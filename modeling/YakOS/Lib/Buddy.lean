import Mathlib.Data.Int.Interval
import Mathlib.Data.List.Nodup
import Mathlib.Data.Nat.Bitwise
import Mathlib.Tactic.Positivity
import Mathlib.Tactic.Ring

/-!
# Blocks of a power-of-two size

A block is a head with an order: `(p, k)` stands for the `2 ^ k` places from `p`
on.  Nothing asks `p` to be a multiple of `2 ^ k`.

## Main definitions

* `Block`, `Block.Has` — a block and the places it stands for.
* `Tiles bs lo hi` — every place of `[lo, hi)` lies in exactly one block of the
  list `bs`, every other place in none.
* `Tree`, `headAt`, `Rooted` — what has become of a block after splits and merges.

## Main results

* `tiles_split` — a block may be replaced by its two halves and back.
* `Tiles.perm`, `Tiles.nodup`, `Tiles.eq_of_has` — a tiling does
  not depend on the order of the list, and its blocks are distinct, inside
  `[lo, hi)` and disjoint.
* `xor_two_pow`, `and_xor_two_pow` — flipping bit `k` of an index steps to one
  side by `2 ^ k`, and the lower of the two has the bit clear.
* `Rooted.split`, `Rooted.merge`, `Tree.collapse` — what splits at a clear bit and
  merges by index leave of a block, and that it is whole again once no two halves
  are left apart.
-/

namespace Buddy

/-- A head and an order. -/
abbrev Block : Type := ℤ × ℕ

/-- The place `x` lies in the block. -/
def Block.Has (b : Block) (x : ℤ) : Prop := b.1 ≤ x ∧ x < b.1 + 2 ^ b.2

instance (b : Block) (x : ℤ) : Decidable (b.Has x) := inferInstanceAs (Decidable (_ ∧ _))

theorem Block.has_head (b : Block) : b.Has b.1 := by
  have : (0 : ℤ) < 2 ^ b.2 := by positivity
  exact ⟨le_rfl, by omega⟩

/-- The two halves of a block have the places of the block, each once. -/
theorem Block.has_succ (p : ℤ) (k : ℕ) (x : ℤ) :
    Block.Has (p, k + 1) x ↔ Block.Has (p, k) x ∨ Block.Has (p + 2 ^ k, k) x := by
  have : (0 : ℤ) < 2 ^ k := by positivity
  simp only [Block.Has, pow_succ]
  omega

theorem Block.not_has_both (p : ℤ) (k : ℕ) (x : ℤ) :
    ¬ (Block.Has (p, k) x ∧ Block.Has (p + 2 ^ k, k) x) := by
  simp only [Block.Has]
  omega

/-- The number of blocks of the list that have the place `x`. -/
def cover (bs : List Block) (x : ℤ) : ℕ := bs.countP fun b => decide (b.Has x)

@[simp] theorem cover_nil (x : ℤ) : cover [] x = 0 := rfl

theorem cover_cons (b : Block) (bs : List Block) (x : ℤ) :
    cover (b :: bs) x = cover bs x + if b.Has x then 1 else 0 := by
  unfold cover
  rw [List.countP_cons]
  simp

@[simp] theorem cover_append (bs cs : List Block) (x : ℤ) :
    cover (bs ++ cs) x = cover bs x + cover cs x := List.countP_append

theorem cover_perm {bs cs : List Block} (h : bs.Perm cs) (x : ℤ) : cover bs x = cover cs x :=
  h.countP_eq _

theorem cover_pos {bs : List Block} {x : ℤ} : 0 < cover bs x ↔ ∃ b ∈ bs, b.Has x := by
  unfold cover
  rw [List.countP_pos_iff]
  simp

theorem cover_split (p : ℤ) (k : ℕ) (bs : List Block) (x : ℤ) :
    cover ((p, k + 1) :: bs) x = cover ((p, k) :: (p + 2 ^ k, k) :: bs) x := by
  have hs := Block.has_succ p k x
  have hn := Block.not_has_both p k x
  simp only [cover_cons]
  by_cases h₁ : Block.Has (p, k) x
  · have h₂ : ¬ Block.Has (p + 2 ^ k, k) x := fun h₂ => hn ⟨h₁, h₂⟩
    simp [hs, h₁, h₂]
  · by_cases h₂ : Block.Has (p + 2 ^ k, k) x
    · simp [hs, h₁, h₂]
    · simp [hs, h₁, h₂]

/-- Every place of `[lo, hi)` lies in exactly one block, every other in none. -/
def Tiles (bs : List Block) (lo hi : ℤ) : Prop :=
  ∀ x, cover bs x = if lo ≤ x ∧ x < hi then 1 else 0

variable {bs cs : List Block} {lo hi : ℤ}

theorem Tiles.perm (h : bs.Perm cs) : Tiles bs lo hi ↔ Tiles cs lo hi := by
  unfold Tiles
  simp only [cover_perm h]

theorem tiles_split {p : ℤ} {k : ℕ} :
    Tiles ((p, k + 1) :: bs) lo hi ↔ Tiles ((p, k) :: (p + 2 ^ k, k) :: bs) lo hi := by
  unfold Tiles
  simp only [cover_split]

theorem Tiles.cover_le_one (h : Tiles bs lo hi) (x : ℤ) : cover bs x ≤ 1 := by
  rw [h x]
  split <;> omega

theorem Tiles.mem_range (h : Tiles bs lo hi) {b : Block} (hb : b ∈ bs) {x : ℤ} (hx : b.Has x) :
    lo ≤ x ∧ x < hi := by
  have hpos : 0 < cover bs x := cover_pos.mpr ⟨b, hb, hx⟩
  rw [h x] at hpos
  by_contra hne
  simp [hne] at hpos

/-- A block of a tiling ends where the places do. -/
theorem Tiles.add_le (h : Tiles bs lo hi) {b : Block} (hb : b ∈ bs) : b.1 + 2 ^ b.2 ≤ hi := by
  have hpos : (0 : ℤ) < 2 ^ b.2 := by positivity
  have hlast : b.Has (b.1 + 2 ^ b.2 - 1) := ⟨by omega, by omega⟩
  have := (h.mem_range hb hlast).2
  omega

/-- Two different entries of a tiling have no place in common. -/
theorem Tiles.disjoint_of_cons {b : Block} (h : Tiles (b :: bs) lo hi) {c : Block} (hc : c ∈ bs)
    {x : ℤ} (hb : b.Has x) : ¬ c.Has x := by
  intro hcx
  have hle := h.cover_le_one x
  have hpos : 0 < cover bs x := cover_pos.mpr ⟨c, hc, hcx⟩
  rw [cover_cons, if_pos hb] at hle
  omega

theorem Tiles.eq_of_has (h : Tiles bs lo hi) {b c : Block} (hb : b ∈ bs) (hc : c ∈ bs) {x : ℤ}
    (hbx : b.Has x) (hcx : c.Has x) : b = c := by
  by_contra hne
  have hp := List.perm_cons_erase hb
  have hc' : c ∈ bs.erase b := (List.mem_erase_of_ne (Ne.symm hne)).mpr hc
  exact ((Tiles.perm hp).mp h).disjoint_of_cons hc' hbx hcx

theorem Tiles.nodup (h : Tiles bs lo hi) : bs.Nodup := by
  rw [List.nodup_iff_count_le_one]
  intro b
  calc bs.count b ≤ cover bs b.1 := by
        unfold cover List.count
        apply List.countP_mono_left
        intro c _ hc
        obtain rfl : c = b := by simpa using hc
        exact decide_eq_true c.has_head
    _ ≤ 1 := h.cover_le_one b.1

/-- A tiling has at most as many blocks as places. -/
theorem Tiles.length_le (h : Tiles bs lo hi) : bs.length ≤ (hi - lo).toNat := by
  have hnodup : (bs.map Prod.fst).Nodup := by
    apply h.nodup.map_on
    intro b hb c hc heq
    refine h.eq_of_has hb hc (Block.has_head b) ?_
    rw [heq]
    exact Block.has_head c
  have hsub : (bs.map Prod.fst).toFinset ⊆ Finset.Ico lo hi := by
    intro x hx
    obtain ⟨b, hb, rfl⟩ := List.mem_map.mp (List.mem_toFinset.mp hx)
    have hb' := h.mem_range hb (Block.has_head b)
    exact Finset.mem_Ico.mpr hb'
  have hcard := Finset.card_le_card hsub
  rw [List.toFinset_card_of_nodup hnodup, Int.card_Ico, List.length_map] at hcard
  exact hcard

theorem tiles_nil (lo : ℤ) : Tiles [] lo lo := by
  intro x
  rw [if_neg (by omega), cover_nil]

/-- A tiling may be extended by a block that starts where it ends. -/
theorem Tiles.snoc {k : ℕ} (h : Tiles bs lo hi) (hle : lo ≤ hi) :
    Tiles (bs ++ [(hi, k)]) lo (hi + 2 ^ k) := by
  intro x
  have hpos : (0 : ℤ) < 2 ^ k := by positivity
  rw [cover_append, h x, cover_cons, cover_nil]
  by_cases h₁ : lo ≤ x ∧ x < hi
  · rw [if_pos h₁, if_neg (by simp only [Block.Has]; omega), if_pos (by omega)]
  · by_cases h₂ : Block.Has (hi, k) x
    · rw [if_neg h₁, if_pos h₂, if_pos (by simp only [Block.Has] at h₂; omega)]
    · rw [if_neg h₁, if_neg h₂, if_neg (by simp only [Block.Has] at h₂; omega)]

/-! ### Lists of lists -/

/-- Adding an entry to one of the lists adds it to their concatenation. -/
theorem flatMap_range_perm {α : Type*} {f g : ℕ → List α} {k n : ℕ} {a : α} (hk : k < n)
    (hne : ∀ j, j ≠ k → f j = g j) (hkp : (f k).Perm (a :: g k)) :
    ((List.range n).flatMap f).Perm (a :: (List.range n).flatMap g) := by
  induction n with
  | zero => omega
  | succ n ih =>
    rw [List.range_succ, List.flatMap_append, List.flatMap_append]
    simp only [List.flatMap_cons, List.flatMap_nil, List.append_nil]
    rcases Nat.lt_or_ge k n with hlt | hge
    · rw [hne n (by omega)]
      exact (ih hlt).append_right _
    · obtain rfl : k = n := by omega
      have hsame : (List.range k).flatMap f = (List.range k).flatMap g := by
        refine List.flatMap_congr fun j hj => hne j ?_
        have := List.mem_range.mp hj
        omega
      rw [hsame]
      exact (hkp.append_left _).trans List.perm_middle

/-! ### The two halves of a block by the bits of the index -/

/-- Flipping bit `k` of an index steps to one side by `2 ^ k`. -/
theorem xor_two_pow (i k : ℕ) :
    i ^^^ 2 ^ k = if i.testBit k then i - 2 ^ k else i + 2 ^ k := by
  have hdiv : (i ^^^ 2 ^ k) / 2 ^ k = i / 2 ^ k ^^^ 1 := by
    rw [Nat.xor_div_two_pow, Nat.div_self (by positivity)]
  have hmod : (i ^^^ 2 ^ k) % 2 ^ k = i % 2 ^ k := by
    rw [Nat.xor_mod_two_pow, Nat.mod_self, Nat.xor_zero]
  have hi := Nat.div_add_mod i (2 ^ k)
  have hx := Nat.div_add_mod (i ^^^ 2 ^ k) (2 ^ k)
  rw [hdiv, hmod] at hx
  rw [Nat.testBit_eq_decide_div_mod_eq]
  rcases Nat.mod_two_eq_zero_or_one (i / 2 ^ k) with h | h
  · rw [Nat.xor_one_of_even (Nat.even_iff.mpr h), Nat.mul_add, Nat.mul_one] at hx
    rw [if_neg (by simp [h])]
    omega
  · rw [Nat.xor_one_of_odd (Nat.odd_iff.mpr h), Nat.mul_sub, Nat.mul_one] at hx
    rw [if_pos (by simp [h])]
    have hpos : 0 < i / 2 ^ k := Nat.pos_of_ne_zero fun h0 => by simp [h0] at h
    have hle : 2 ^ k ≤ 2 ^ k * (i / 2 ^ k) := Nat.le_mul_of_pos_right _ hpos
    omega

/-- Of an index and the one with bit `k` flipped, the common bits are the lower. -/
theorem and_xor_two_pow (i k : ℕ) :
    (i ^^^ 2 ^ k) &&& i = if i.testBit k then i - 2 ^ k else i := by
  cases h : i.testBit k with
  | true =>
    have hx := xor_two_pow i k
    rw [h, if_pos rfl] at hx
    rw [if_pos rfl, ← hx]
    apply Nat.eq_of_testBit_eq
    intro j
    rw [Nat.testBit_and, Nat.testBit_xor, Nat.testBit_two_pow]
    rcases eq_or_ne k j with rfl | hne
    · simp [h]
    · simp [hne]
  | false =>
    rw [if_neg (by simp)]
    apply Nat.eq_of_testBit_eq
    intro j
    rw [Nat.testBit_and, Nat.testBit_xor, Nat.testBit_two_pow]
    rcases eq_or_ne k j with rfl | hne
    · simp [h]
    · simp [hne]

theorem testBit_add_two_pow (i k : ℕ) : (i + 2 ^ k).testBit k = !i.testBit k := by
  rw [Nat.add_comm]
  exact Nat.testBit_two_pow_add_eq i k

/-! ### Trees of halves -/

/-- The block `(p, k)` is one of the blocks of `M`, or both its halves are made up of
such blocks, and the index tells the halves apart at every level. -/
inductive Tree (M : ℕ → ℕ → Prop) : ℕ → ℕ → Prop
  | leaf {p k : ℕ} : M p k → Tree M p k
  | node {p k : ℕ} : p.testBit k = false → Tree M p k → Tree M (p + 2 ^ k) k → Tree M p (k + 1)

variable {M M' S S' : ℕ → ℕ → Prop} {p k q o : ℕ}

/-- Replace the leaves by trees. -/
theorem Tree.bind (h : Tree M p k)
    (f : ∀ q j, p ≤ q → q + 2 ^ j ≤ p + 2 ^ k → M q j → Tree M' q j) : Tree M' p k := by
  induction h with
  | leaf hM => exact f _ _ le_rfl le_rfl hM
  | @node p k hbit _ _ ih₁ ih₂ =>
    have hk : 2 ^ (k + 1) = 2 ^ k + 2 ^ k := by rw [pow_succ]; ring
    have hpos : 0 < 2 ^ k := by positivity
    refine Tree.node hbit (ih₁ fun q j h₁ h₂ => ?_) (ih₂ fun q j h₁ h₂ => ?_)
    · exact f q j h₁ (by omega)
    · exact f q j (by omega) (by omega)

theorem Tree.mono (h : Tree M p k) (f : ∀ q j, M q j → M' q j) : Tree M' p k :=
  h.bind fun q j _ _ hM => Tree.leaf (f q j hM)

/-- A tree below the order of two merged blocks does not use them. -/
theorem Tree.below_merge (h : Tree M p k) (hk : k ≤ o) (hp : k = o → p ≠ q ∧ p ≠ q + 2 ^ o)
    (hM : ∀ p k, M p k → (k = o → p ≠ q ∧ p ≠ q + 2 ^ o) → M' p k) : Tree M' p k := by
  induction h with
  | leaf hl => exact Tree.leaf (hM _ _ hl hp)
  | node hbit _ _ ih₁ ih₂ =>
    exact Tree.node hbit (ih₁ (by omega) (by omega)) (ih₂ (by omega) (by omega))

/-- Two halves of order `o` were merged.  In a tree they are the two children of one
node, since the index tells the halves apart. -/
theorem Tree.merge (h : Tree M p k) (hk : o < k) (hq : q.testBit o = false)
    (hM : ∀ p k, M p k → (k = o → p ≠ q ∧ p ≠ q + 2 ^ o) → M' p k) (hnew : M' q (o + 1)) :
    Tree M' p k := by
  induction h with
  | leaf hl => exact Tree.leaf (hM _ _ hl (by omega))
  | @node p k hbit h₁ h₂ ih₁ ih₂ =>
    rcases Nat.lt_or_ge o k with hlt | hge
    · exact Tree.node hbit (ih₁ hlt) (ih₂ hlt)
    · obtain rfl : k = o := by omega
      by_cases heq : p = q
      · subst heq
        exact Tree.leaf hnew
      · -- heads that differ in bit `k` are different
        have hcross : ∀ a b : ℕ, a.testBit k = false → b.testBit k = false → a ≠ b + 2 ^ k := by
          rintro a b ha hb rfl
          rw [testBit_add_two_pow, hb] at ha
          cases ha
        refine Tree.node hbit (h₁.below_merge le_rfl (fun _ => ⟨heq, hcross p q hbit hq⟩) hM)
          (h₂.below_merge le_rfl (fun _ => ⟨?_, by omega⟩) hM)
        exact fun e => hcross q p hq hbit e.symm

/-- A tree whose leaves are never the two halves of one block is a leaf. -/
theorem Tree.collapse (h : Tree M p k)
    (hM : ∀ q j, q.testBit j = false → p ≤ q → q + 2 ^ (j + 1) ≤ p + 2 ^ k → M q j →
      M (q + 2 ^ j) j → False) : M p k := by
  induction h with
  | leaf hl => exact hl
  | @node p k hbit _ _ ih₁ ih₂ =>
    have hk : 2 ^ (k + 1) = 2 ^ k + 2 ^ k := by rw [pow_succ]; ring
    have hpos : 0 < 2 ^ k := by positivity
    have hl := ih₁ fun q j hb h₁ h₂ => hM q j hb h₁ (by omega)
    have hr := ih₂ fun q j hb h₁ h₂ => hM q j hb (by omega) (by omega)
    exact (hM p k hbit le_rfl le_rfl hl hr).elim

/-- The head of the block of order `j` that `(p, k)` ends up in when it is merged with
its buddies: the bits from `k` up to `j` are cleared. -/
def headAt (p k j : ℕ) : ℕ := p / 2 ^ j * 2 ^ j + p % 2 ^ k

theorem headAt_self (p k : ℕ) : headAt p k k = p := by
  unfold headAt
  rw [Nat.mul_comm]
  exact Nat.div_add_mod p (2 ^ k)

theorem headAt_le {j : ℕ} (hkj : k ≤ j) : headAt p k j ≤ p ∧ p < headAt p k j + 2 ^ j := by
  have hmod : p % 2 ^ k ≤ p % 2 ^ j := by
    rw [← Nat.mod_mod_of_dvd p (Nat.pow_dvd_pow 2 hkj)]
    exact Nat.mod_le _ _
  have hlt : p % 2 ^ j < 2 ^ j := Nat.mod_lt _ (by positivity)
  have hdm := Nat.div_add_mod p (2 ^ j)
  rw [Nat.mul_comm] at hdm
  unfold headAt
  omega

theorem headAt_succ (p k j : ℕ) :
    headAt p k j = headAt p k (j + 1) + if p.testBit j then 2 ^ j else 0 := by
  have hdiv : p / 2 ^ (j + 1) = p / 2 ^ j / 2 := by rw [pow_succ, Nat.div_div_eq_div_mul]
  have hbit : p.testBit j = decide (p / 2 ^ j % 2 = 1) := Nat.testBit_eq_decide_div_mod_eq
  have hdm := Nat.div_add_mod (p / 2 ^ j) 2
  unfold headAt
  rw [hdiv, hbit, pow_succ]
  rcases Nat.mod_two_eq_zero_or_one (p / 2 ^ j) with h | h
  · rw [h] at hdm
    rw [if_neg (by simp [h]), ← hdm]
    simp only [Nat.add_zero, Nat.mul_div_cancel_left _ (by decide : 0 < 2)]
    ring
  · rw [h] at hdm
    rw [if_pos (by simp [h])]
    generalize p / 2 ^ j / 2 = m at hdm ⊢
    rw [← hdm]
    ring

theorem headAt_testBit {j : ℕ} (hkj : k ≤ j) : (headAt p k (j + 1)).testBit j = false := by
  have hlt : p % 2 ^ k < 2 ^ j :=
    (Nat.mod_lt _ (by positivity)).trans_le (Nat.pow_le_pow_right (by decide) hkj)
  unfold headAt
  rw [Nat.mul_comm, Nat.testBit_two_pow_mul_add _ (hlt.trans (Nat.pow_lt_pow_succ (by decide))),
    if_pos (Nat.lt_succ_self j)]
  exact Nat.testBit_lt_two_pow hlt

/-- The block `(p, k)` is inside a block of `S` it was merged into, or is a tree of
blocks of `M`. -/
def Rooted (S M : ℕ → ℕ → Prop) (p k : ℕ) : Prop :=
  (∃ j, k ≤ j ∧ S (headAt p k j) j) ∨ Tree M p k

theorem Rooted.mono (h : Rooted S M p k) (hS : ∀ q j, S q j → S' q j)
    (hM : ∀ q j, M q j → M' q j) : Rooted S' M' p k := by
  rcases h with ⟨j, hkj, hj⟩ | h
  · exact Or.inl ⟨j, hkj, hS _ _ hj⟩
  · exact Or.inr (h.mono hM)

/-- The block `(q, o + 1)` is split in two. -/
theorem Rooted.split (h : Rooted S M p k)
    (hal : q < p + 2 ^ k → p < q + 2 ^ (o + 1) → q.testBit o = false)
    (hS : ∀ a j, S a j → ¬ (a = q ∧ j = o + 1) → S' a j)
    (hM : ∀ a j, M a j → ¬ (a = q ∧ j = o + 1) → M' a j)
    (hSl : S' q o) (hSr : S' (q + 2 ^ o) o) (hMl : M' q o) (hMr : M' (q + 2 ^ o) o) :
    Rooted S' M' p k := by
  have hpos : 0 < 2 ^ k := by positivity
  rcases h with ⟨j, hkj, hj⟩ | h
  · by_cases heq : headAt p k j = q ∧ j = o + 1
    · obtain ⟨rfl, rfl⟩ := heq
      obtain ⟨hle, hlt⟩ := headAt_le (p := p) hkj
      rcases Nat.eq_or_lt_of_le hkj with rfl | hlt'
      · rw [headAt_self] at *
        exact Or.inr (Tree.node (hal (by omega) hlt) (Tree.leaf hMl) (Tree.leaf hMr))
      · refine Or.inl ⟨o, by omega, ?_⟩
        rw [headAt_succ]
        split
        · exact hSr
        · exact hSl
    · exact Or.inl ⟨j, hkj, hS _ _ hj heq⟩
  · refine Or.inr (h.bind fun a j h₁ h₂ ha => ?_)
    by_cases heq : a = q ∧ j = o + 1
    · obtain ⟨rfl, rfl⟩ := heq
      have hpos' : 0 < 2 ^ (o + 1) := by positivity
      exact Tree.node (hal (by omega) (by omega)) (Tree.leaf hMl) (Tree.leaf hMr)
    · exact Tree.leaf (hM a j ha heq)

/-- The blocks `(q, o)` and `(q + 2 ^ o, o)` are merged. -/
theorem Rooted.merge (h : Rooted S M p k) (hq : q.testBit o = false)
    (hsub : ∀ a j, M a j → S a j)
    (hS : ∀ a j, S a j → (j = o → a ≠ q ∧ a ≠ q + 2 ^ o) → S' a j)
    (hM : ∀ a j, M a j → (j = o → a ≠ q ∧ a ≠ q + 2 ^ o) → M' a j)
    (hSnew : S' q (o + 1)) (hMnew : M' q (o + 1)) : Rooted S' M' p k := by
  -- a block the root lies in is either left alone or merged into the next larger one
  have hbig : ∀ j, k ≤ j → S (headAt p k j) j → Rooted S' M' p k := by
    intro j hkj hj
    by_cases hne : j = o → headAt p k j ≠ q ∧ headAt p k j ≠ q + 2 ^ o
    · exact Or.inl ⟨j, hkj, hS _ _ hj hne⟩
    · obtain ⟨rfl, hpair⟩ : j = o ∧ (headAt p k j = q ∨ headAt p k j = q + 2 ^ o) := by
        by_contra hcon
        exact hne fun hjo => ⟨fun e => hcon ⟨hjo, Or.inl e⟩, fun e => hcon ⟨hjo, Or.inr e⟩⟩
      refine Or.inl ⟨j + 1, by omega, ?_⟩
      have hclear := headAt_testBit (p := p) hkj
      have hsucc := headAt_succ p k j
      -- of the two halves, the one that agrees with the root in bit `j` holds it
      have heq : headAt p k (j + 1) = q := by
        rcases hpair with e | e
        · rw [← e, hsucc] at hq
          split at hq
          · rw [testBit_add_two_pow, hclear] at hq
            cases hq
          · rename_i hbit
            rw [if_neg hbit] at hsucc
            omega
        · split at hsucc
          · omega
          · rw [hsucc, Nat.add_zero] at e
            rw [e, testBit_add_two_pow, hq] at hclear
            cases hclear
      rw [heq]
      exact hSnew
  rcases h with ⟨j, hkj, hj⟩ | h
  · exact hbig j hkj hj
  · rcases Nat.lt_or_ge o k with hlt | hge
    · exact Or.inr (h.merge hlt hq hM hMnew)
    · cases h with
      | leaf hl =>
        have := hbig k le_rfl
        rw [headAt_self] at this
        exact this (hsub _ _ hl)
      | node hbit h₁ h₂ =>
        exact Or.inr (Tree.node hbit (h₁.below_merge (by omega) (by omega) hM)
          (h₂.below_merge (by omega) (by omega) hM))

end Buddy
