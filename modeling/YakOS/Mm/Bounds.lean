import YakOS.Mm.Partition

/-!
# Which descriptors a free looks at

`free_one_page` finds a buddy by flipping a bit of the index and looks at its
descriptor without asking whether there is one: `virt_to_page` compares a page with
the length of the zone, the merge loop does not.  Below the block in hand there is
always a descriptor.  Above it there is none when the block ends where the zone ends
and has the lower place in its pair.

## Main definitions

* `freeLoopSeen`, `freeOnePageSeen`, `freePagesSeen` — the release together with the
  positions of the descriptors it looks at.
* `buddyAt` — the buddy of the block that `(p, k)` has grown to at order `j`.
* `FreeInside` — the condition for a release that stays in the zone.

## Main results

* `freeLoopSeen_fst` — the positions are those of the loop of `free_one_page`.
* `freePagesSeen_inside_iff` — a release stays in the zone exactly on the condition.
* `freeInside_of_dvd` — a zone of a whole number of largest blocks is never left.
* `freePagesSeen_le_spanned` — in a run that keeps the zone partitioned it looks at
  most one descriptor too far.
* `free_inside_runs` — every run from `page_alloc_init`; `free_looks_past_the_zone`
  is one whose free looks past the end.
-/

namespace YakOS

open Buddy

/-! ### The positions looked at -/

/-- `freeLoop`, with the positions of the descriptors the loop reads and writes. -/
def freeLoopSeen : ℕ → Zone → ℤ → ℕ → ℕ → Zone × List ℤ
  | 0, z, page, _, order => ((z.setPageOrder page order).pushFree order page, [page])
  | n + 1, z, page, pageIdx, order =>
    let buddyIdx := findBuddyIndex pageIdx order
    let buddy := page + ((buddyIdx : ℤ) - pageIdx)
    if pageIsBuddy z buddy order then
      let combinedIdx := buddyIdx &&& pageIdx
      let r := freeLoopSeen n ((z.dropFree order buddy).rmvPageOrder buddy)
        (page + ((combinedIdx : ℤ) - pageIdx)) combinedIdx (order + 1)
      (r.1, page :: buddy :: r.2)
    else ((z.setPageOrder page order).pushFree order page, [page, buddy])

/-- `freeOnePage` with the positions. -/
def freeOnePageSeen (z : Zone) (page : ℤ) (order : ℕ) : Zone × List ℤ :=
  freeLoopSeen (maxOrder - 1 - order) z page (z.page page).index order

/-- The positions that `free_one_page` looks at when `free_pages` calls it. -/
def freePagesSeen (z : Zone) (addr : ℕ) : List ℤ :=
  if addr = 0 then []
  else
    match virtToPage z addr with
    | none => []
    | some page => (freeOnePageSeen z page (z.page page).priv).2

theorem freeLoopSeen_fst (n : ℕ) (z : Zone) (page : ℤ) (pageIdx order : ℕ) :
    (freeLoopSeen n z page pageIdx order).1 = freeLoop n z page pageIdx order := by
  induction n generalizing z page pageIdx order with
  | zero => rfl
  | succ n ih =>
    unfold freeLoopSeen freeLoop
    dsimp only
    split
    · apply ih
    · rfl

/-- **The rule of the positions.**  `P` is kept by every merge, as in `freeLoop_rule`, and
`Q` holds of the two descriptors that a turn looks at. -/
theorem freeLoopSeen_rule {P : Zone → ℤ → ℕ → ℕ → Prop} {Q : ℤ → Prop}
    (hmerge : ∀ z page pageIdx order, order < maxOrder - 1 → P z page pageIdx order →
      pageIsBuddy z (page + ((findBuddyIndex pageIdx order : ℤ) - pageIdx)) order →
      P (z.takeFree (page + ((findBuddyIndex pageIdx order : ℤ) - pageIdx)) order)
        (page + (((findBuddyIndex pageIdx order &&& pageIdx : ℕ) : ℤ) - pageIdx))
        (findBuddyIndex pageIdx order &&& pageIdx) (order + 1))
    (hpage : ∀ z page pageIdx order, P z page pageIdx order → Q page)
    (hbuddy : ∀ z page pageIdx order, order < maxOrder - 1 → P z page pageIdx order →
      Q (page + ((findBuddyIndex pageIdx order : ℤ) - pageIdx)))
    {z : Zone} {page : ℤ} {pageIdx order : ℕ} (hP : P z page pageIdx order) :
    ∀ q ∈ (freeLoopSeen (maxOrder - 1 - order) z page pageIdx order).2, Q q := by
  generalize hn : maxOrder - 1 - order = n
  induction n generalizing z page pageIdx order with
  | zero =>
    intro q hq
    obtain rfl := List.mem_singleton.mp hq
    exact hpage z q pageIdx order hP
  | succ n ih =>
    have hp := hpage z page pageIdx order hP
    have hb := hbuddy z page pageIdx order (by omega) hP
    unfold freeLoopSeen
    dsimp only
    split
    · rename_i hmatch
      have hnext := ih (hmerge z page pageIdx order (by omega) hP hmatch) (by omega)
      intro q hq
      rcases List.mem_cons.mp hq with rfl | hq
      · exact hp
      · rcases List.mem_cons.mp hq with rfl | hq
        · exact hb
        · exact hnext q hq
    · intro q hq
      rcases List.mem_cons.mp hq with rfl | hq
      · exact hp
      · obtain rfl := List.mem_singleton.mp hq
        exact hb

/-! ### The buddies on the way -/

/-- The buddy of the block that `(p, k)` has grown to at order `j`. -/
def buddyAt (p k j : ℕ) : ℕ := findBuddyIndex (headAt p k j) j

theorem testBit_headAt {p k j : ℕ} (hkj : k ≤ j) : (headAt p k j).testBit j = p.testBit j := by
  have hclear := headAt_testBit (p := p) hkj
  rw [headAt_succ]
  cases h : p.testBit j with
  | true => rw [if_pos rfl, testBit_add_two_pow, hclear, Bool.not_false]
  | false => rw [if_neg Bool.false_ne_true, Nat.add_zero, hclear]

/-- The buddy is the other half of the block of the next order. -/
theorem buddyAt_eq {p k j : ℕ} (hkj : k ≤ j) :
    buddyAt p k j = headAt p k (j + 1) + if p.testBit j then 0 else 2 ^ j := by
  have hsucc := headAt_succ p k j
  unfold buddyAt findBuddyIndex
  rw [xor_two_pow, testBit_headAt hkj]
  cases h : p.testBit j with
  | true =>
    rw [h] at hsucc
    simp only [if_true] at hsucc ⊢
    omega
  | false =>
    rw [h] at hsucc
    simp only [Bool.false_eq_true, if_false] at hsucc ⊢
    omega

theorem combined_headAt {p k j : ℕ} (hkj : k ≤ j) :
    findBuddyIndex (headAt p k j) j &&& headAt p k j = headAt p k (j + 1) := by
  have hsucc := headAt_succ p k j
  unfold findBuddyIndex
  rw [and_xor_two_pow, testBit_headAt hkj]
  cases h : p.testBit j with
  | true =>
    rw [h] at hsucc
    simp only [if_true] at hsucc ⊢
    omega
  | false =>
    rw [h] at hsucc
    simp only [Bool.false_eq_true, if_false] at hsucc ⊢
    omega

theorem headAt_mono {p k j m : ℕ} (hjm : j ≤ m) :
    headAt p k m ≤ headAt p k j ∧ headAt p k j + 2 ^ j ≤ headAt p k m + 2 ^ m := by
  induction m, hjm using Nat.le_induction with
  | base => exact ⟨le_rfl, le_rfl⟩
  | succ m hjm ih =>
    have hsucc := headAt_succ p k m
    have hpow : 2 ^ (m + 1) = 2 ^ m + 2 ^ m := by rw [pow_succ]; ring
    have hpos : 0 < 2 ^ m := by positivity
    obtain ⟨ih₁, ih₂⟩ := ih
    split at hsucc
    · constructor <;> omega
    · constructor <;> omega

/-- The buddies met at two orders are different descriptors: the first is in the block
in hand when the second is looked at. -/
theorem buddyAt_ne {p k j m : ℕ} (hkj : k ≤ j) (hjm : j < m) : buddyAt p k m ≠ buddyAt p k j := by
  have hj := buddyAt_eq (p := p) hkj
  have hm := buddyAt_eq (p := p) (hkj.trans hjm.le)
  have hsucc := headAt_succ p k m
  have hmono : headAt p k m ≤ headAt p k (j + 1) ∧
      headAt p k (j + 1) + 2 ^ (j + 1) ≤ headAt p k m + 2 ^ m :=
    headAt_mono hjm
  have hpow : 2 ^ (j + 1) = 2 ^ j + 2 ^ j := by rw [pow_succ]; ring
  have hpos : 0 < 2 ^ j := by positivity
  -- the block in hand at order `m` is one half, the buddy heads the other
  split at hj
  · split at hm
    · rename_i hbit
      rw [if_pos hbit] at hsucc
      omega
    · rename_i hbit
      rw [if_neg hbit] at hsucc
      omega
  · split at hm
    · rename_i hbit
      rw [if_pos hbit] at hsucc
      omega
    · rename_i hbit
      rw [if_neg hbit] at hsucc
      omega

theorem pageIsBuddy_takeFree {z : Zone} {a b : ℤ} {j m : ℕ} (hne : b ≠ a) :
    pageIsBuddy (z.takeFree a j) b m ↔ pageIsBuddy z b m := by
  unfold pageIsBuddy
  rw [Zone.takeFree_page, if_neg hne]

/-! ### Inside the zone -/

/-- Giving back the block `(p, k)` stays inside the zone: `p` is a page of the zone, and
the merging stops before it comes to a block that ends at the end of the zone, or behind
it, with the lower place in its pair. -/
def FreeInside (z : Zone) (p k : ℕ) : Prop :=
  p < z.spannedPages ∧
    ∀ j, k ≤ j → j < maxOrder - 1 → p.testBit j = false →
      z.spannedPages ≤ headAt p k j + 2 ^ j → ∃ i, k ≤ i ∧ i < j ∧ ¬ pageIsBuddy z (buddyAt p k i) i

/-- Where the buddy of a block with its head in the zone lies. -/
theorem buddyAt_lt_iff {p k j n : ℕ} (hkj : k ≤ j) (hp : p < n) :
    buddyAt p k j < n ↔ (p.testBit j = false → headAt p k j + 2 ^ j < n) := by
  have hbuddy := buddyAt_eq (p := p) hkj
  have hsucc := headAt_succ p k j
  have hle := (headAt_le (p := p) hkj).1
  cases h : p.testBit j with
  | true =>
    rw [h, if_pos rfl] at hbuddy hsucc
    have hpos : 0 < 2 ^ j := by positivity
    constructor
    · intro _ hfalse
      cases hfalse
    · intro _
      omega
  | false =>
    rw [h, if_neg Bool.false_ne_true] at hbuddy hsucc
    rw [hbuddy, hsucc, Nat.add_zero]
    constructor
    · intro hlt _
      exact hlt
    · intro hlt
      exact hlt rfl

/-- The loop from order `j` on: it looks past the first `n` descriptors exactly when a
buddy it comes to, all earlier ones being merged, lies there. -/
theorem freeLoopSeen_lt_iff {p k N : ℕ} {n : ℕ} {z : Zone} {j : ℕ} (hkj : k ≤ j)
    (hhead : headAt p k j < N) :
    (∀ q ∈ (freeLoopSeen n z (headAt p k j : ℕ) (headAt p k j) j).2, 0 ≤ q ∧ q < (N : ℤ)) ↔
      ∀ i, j ≤ i → i < j + n → (∀ m, j ≤ m → m < i → pageIsBuddy z (buddyAt p k m) m) →
        buddyAt p k i < N := by
  induction n generalizing z j with
  | zero =>
    constructor
    · intro _ i hij hi
      omega
    · intro _ q hq
      obtain rfl := List.mem_singleton.mp hq
      omega
  | succ n ih =>
    have hbuddy : ((headAt p k j : ℕ) : ℤ) + ((findBuddyIndex (headAt p k j) j : ℤ)
        - (headAt p k j : ℕ)) = (buddyAt p k j : ℕ) := by
      unfold buddyAt
      omega
    have hcomb : ((headAt p k j : ℕ) : ℤ) + ((headAt p k (j + 1) : ℕ) - (headAt p k j : ℕ) : ℤ)
        = (headAt p k (j + 1) : ℕ) := by omega
    have hnext : headAt p k (j + 1) < N := (headAt_mono (Nat.le_succ j)).1.trans_lt hhead
    unfold freeLoopSeen
    dsimp only
    rw [combined_headAt hkj, hbuddy, hcomb]
    by_cases hmatch : pageIsBuddy z (buddyAt p k j) j
    · rw [if_pos hmatch]
      have ih' := ih (z := z.takeFree (buddyAt p k j) j) (hkj.trans (Nat.le_succ j)) hnext
      -- the buddies of larger orders are as they were
      have hsame : ∀ m, j + 1 ≤ m →
          (pageIsBuddy (z.takeFree (buddyAt p k j) j) (buddyAt p k m) m ↔
            pageIsBuddy z (buddyAt p k m) m) := by
        intro m hm
        apply pageIsBuddy_takeFree
        have := buddyAt_ne (p := p) hkj (show j < m by omega)
        omega
      constructor
      · intro hall i hij hi hchain
        rcases Nat.eq_or_lt_of_le hij with rfl | hlt
        · have := hall (buddyAt p k j : ℕ) (by simp)
          omega
        · refine ih'.mp (fun q hq => hall q ?_) i (by omega) (by omega) fun m hm hmi => ?_
          · exact List.mem_cons_of_mem _ (List.mem_cons_of_mem _ hq)
          · exact (hsame m hm).mpr (hchain m (by omega) hmi)
      · intro hall q hq
        rcases List.mem_cons.mp hq with rfl | hq
        · omega
        · rcases List.mem_cons.mp hq with rfl | hq
          · have := hall j le_rfl (by omega) (by omega)
            omega
          · refine ih'.mpr (fun i hij hi hchain => ?_) q hq
            refine hall i (by omega) (by omega) ?_
            intro m hm hmi
            rcases Nat.eq_or_lt_of_le hm with rfl | hlt
            · exact hmatch
            · exact (hsame m hlt).mp (hchain m hlt hmi)
    · rw [if_neg hmatch]
      constructor
      · intro hall i hij hi hchain
        rcases Nat.eq_or_lt_of_le hij with rfl | hlt
        · have := hall (buddyAt p k j : ℕ) (by simp)
          omega
        · exact absurd (hchain j le_rfl hlt) hmatch
      · intro hall q hq
        rcases List.mem_cons.mp hq with rfl | hq
        · omega
        · obtain rfl := List.mem_singleton.mp hq
          have := hall j le_rfl (by omega) (by omega)
          omega

theorem mem_freeLoopSeen_self (n : ℕ) (z : Zone) (page : ℤ) (pageIdx order : ℕ) :
    page ∈ (freeLoopSeen n z page pageIdx order).2 := by
  cases n with
  | zero => exact List.mem_singleton_self page
  | succ n =>
    unfold freeLoopSeen
    dsimp only
    split <;> exact List.mem_cons_self

/-- **A free stays inside the zone exactly when it meets `FreeInside`.** -/
theorem freeOnePageSeen_inside_iff {z : Zone}
    (hindex : ∀ i : ℕ, i < z.spannedPages → (z.page i).index = i) (p k : ℕ) :
    (∀ q ∈ (freeOnePageSeen z p k).2, 0 ≤ q ∧ q < (z.spannedPages : ℤ)) ↔ FreeInside z p k := by
  rcases Nat.lt_or_ge p z.spannedPages with hlt | hge
  · have hhead : headAt p k k < z.spannedPages := by
      rw [headAt_self]
      exact hlt
    have hiff := freeLoopSeen_lt_iff (n := maxOrder - 1 - k) (z := z) le_rfl hhead
    rw [headAt_self] at hiff
    unfold freeOnePageSeen
    rw [hindex p hlt, hiff]
    constructor
    · intro hall
      refine ⟨hlt, ?_⟩
      intro j hkj hj hbit hend
      by_contra hnone
      have hchain : ∀ m, k ≤ m → m < j → pageIsBuddy z (buddyAt p k m) m := by
        intro m hm hmj
        by_contra hm'
        exact hnone ⟨m, hm, hmj, hm'⟩
      have := (buddyAt_lt_iff hkj hlt).mp (hall j hkj (by omega) hchain) hbit
      omega
    · rintro ⟨-, hall⟩ j hkj hj hchain
      rw [buddyAt_lt_iff hkj hlt]
      intro hbit
      by_contra hend
      obtain ⟨i, hki, hij, hi⟩ := hall j hkj (by omega) hbit (by omega)
      exact hi (hchain i hki hij)
  · constructor
    · intro hall
      have := hall p (mem_freeLoopSeen_self _ z p _ k)
      omega
    · rintro ⟨hlt, -⟩
      omega

/-- A zone of a whole number of largest blocks is never left. -/
theorem freeInside_of_dvd {z : Zone} {p k : ℕ} (hp : p < z.spannedPages)
    (hdvd : 2 ^ (maxOrder - 1) ∣ z.spannedPages) : FreeInside z p k := by
  refine ⟨hp, ?_⟩
  intro j hkj hj hbit hend
  obtain ⟨m, hm⟩ := (Nat.pow_dvd_pow 2 (show j + 1 ≤ maxOrder - 1 by omega)).trans hdvd
  have hlt : p / 2 ^ (j + 1) < m := by
    rw [hm] at hp
    exact Nat.div_lt_of_lt_mul hp
  have hle : 2 ^ (j + 1) * (p / 2 ^ (j + 1)) + 2 ^ (j + 1) ≤ z.spannedPages := by
    rw [hm, ← Nat.mul_succ]
    exact Nat.mul_le_mul_left _ hlt
  have hlow : p % 2 ^ k < 2 ^ j :=
    (Nat.mod_lt _ (by positivity)).trans_le (Nat.pow_le_pow_right (by decide) hkj)
  have hsucc := headAt_succ p k j
  rw [hbit, if_neg Bool.false_ne_true] at hsucc
  have hhead : headAt p k (j + 1) = 2 ^ (j + 1) * (p / 2 ^ (j + 1)) + p % 2 ^ k := by
    rw [Nat.mul_comm]
    rfl
  have hpow : 2 ^ (j + 1) = 2 ^ j + 2 ^ j := by rw [pow_succ]; ring
  omega

/-- A free by address looks at what `virt_to_page` leads to. -/
theorem freePagesSeen_inside_iff {z : Zone}
    (hindex : ∀ i : ℕ, i < z.spannedPages → (z.page i).index = i) (addr : ℕ) :
    (∀ q ∈ freePagesSeen z addr, 0 ≤ q ∧ q < (z.spannedPages : ℤ)) ↔
      ∀ p : ℕ, addr ≠ 0 → virtToPage z addr = some (p : ℤ) → FreeInside z p (z.page p).priv := by
  unfold freePagesSeen
  by_cases h0 : addr = 0
  · simp [h0]
  rw [if_neg h0]
  cases hv : virtToPage z addr with
  | none => simp
  | some page =>
    obtain ⟨p, rfl⟩ : ∃ p : ℕ, page = p := by
      unfold virtToPage at hv
      dsimp only at hv
      split at hv
      · cases hv
      · exact ⟨_, (Option.some.inj hv).symm⟩
    dsimp only
    rw [freeOnePageSeen_inside_iff hindex]
    constructor
    · intro hin q _ hq
      obtain rfl : p = q := by simpa using hq
      exact hin
    · intro hall
      exact hall p h0 rfl

/-! ### Runs -/

/-- In a state that keeps the partition, a free of an outstanding block looks at most one
descriptor past the end of the zone. -/
theorem freePagesSeen_le_spanned {s : PaState} (h : PaInv (0 ≤ ·) s) {b : Block} (hb : b ∈ s.live) :
    ∀ q ∈ freePagesSeen s.zone (pageAddress s.zone b.1), 0 ≤ q ∧ q ≤ (s.zone.spannedPages : ℤ) := by
  obtain ⟨hpos, hlt⟩ := h.mem_bounds (List.mem_append_right _ hb)
  unfold freePagesSeen
  split
  · intro q hq
    cases hq
  rw [virtToPage_pageAddress h.aligned h.fits hpos hlt]
  dsimp only
  unfold freeOnePageSeen
  -- the block in hand stays in the zone, and its index is its position
  refine freeLoopSeen_rule
    (P := fun z page idx k => BuddyInv (0 ≤ ·) s.zone.usedPages s.zone.spannedPages z
      ((page, k) :: s.live.erase b) ∧ page = idx)
    (Q := fun q => 0 ≤ q ∧ q ≤ (s.zone.spannedPages : ℤ)) ?_ ?_ ?_ ?_
  · rintro z page idx k hk ⟨hinv, rfl⟩ hmatch
    have hmem := hinv.marks _ (by omega) ⟨hmatch.1, by rw [hmatch.2]; exact hk⟩
    rw [hmatch.2] at hmem
    exact ⟨hinv.joinBuddy (by omega) hmem, by ring⟩
  · rintro z page idx k ⟨hinv, -⟩
    have hin := hinv.tiles.mem_range (List.mem_append_right _ List.mem_cons_self)
      (Block.has_head (page, k))
    simp only at hin
    omega
  · rintro z page idx k - ⟨hinv, rfl⟩
    have hpow : (0 : ℤ) < 2 ^ k := by positivity
    have hin := hinv.tiles.add_le (List.mem_append_right _ List.mem_cons_self)
    simp only at hin
    have hbud := buddy_offset idx k
    split at hbud <;> omega
  · refine ⟨?_, (h.index b.1 hpos hlt).symm⟩
    rw [(h.live b hb).2]
    exact h.buddy.perm (List.perm_cons_erase hb)

/-- What is asked of a state: a free of an outstanding block only looks at descriptors of
the zone. -/
def SeesInside (s : PaState) (b : Block) : Prop :=
  ∀ q ∈ freePagesSeen s.zone (pageAddress s.zone b.1), 0 ≤ q ∧ q < (s.zone.spannedPages : ℤ)

/-- **Frees and the end of the descriptors.**  In every reachable state in which index
equals position, a free of an outstanding block stays inside the zone exactly when the
descriptor found from its address meets `FreeInside`. -/
theorem free_inside_runs (mem : ℤ → Page) (addr size : ℕ) (es : List PaEvent) :
    ∀ z ∈ pageAllocInit mem addr size, ∀ s ∈ Run.exec paStep { zone := z, live := [] } es,
      (∀ i : ℕ, i < s.zone.spannedPages → (s.zone.page i).index = i) →
      ∀ b ∈ s.live, SeesInside s b ↔
        ∀ p : ℕ, pageAddress s.zone b.1 ≠ 0 →
          virtToPage s.zone (pageAddress s.zone b.1) = some (p : ℤ) →
          FreeInside s.zone p (s.zone.page p).priv := by
  intro z _ s _ hindex b _
  apply freePagesSeen_inside_iff hindex

/-- What is used of a state below: five pages, index equals position, and the positions
that a free of the one outstanding block `b` looks at. -/
def FivePages (b : Block) (seen : List ℤ) (s : PaState) : Prop :=
  s.zone.spannedPages = 5 ∧ (∀ i < 5, (s.zone.page (i : ℕ)).index = i) ∧ s.live = [b] ∧
    freePagesSeen s.zone (pageAddress s.zone b.1) = seen

instance (b : Block) (seen : List ℤ) (s : PaState) : Decidable (FivePages b seen s) :=
  inferInstanceAs (Decidable (_ ∧ _ ∧ _ ∧ _))

theorem free_inside_runs_five_pages :
    ∃ z ∈ pageAllocInit blankMem 4096 (5 * 4096),
      ∃ s ∈ Run.exec paStep { zone := z, live := [] } [.alloc 4096],
        SeesInside s (1, 0) ↔ ∀ p : ℕ, pageAddress s.zone 1 ≠ 0 →
          virtToPage s.zone (pageAddress s.zone 1) = some (p : ℤ) →
          FreeInside s.zone p (s.zone.page p).priv := by
  have hrun : ((pageAllocInit blankMem 4096 (5 * 4096)).bind fun z =>
      (Run.exec paStep { zone := z, live := [] } [.alloc 4096]).map fun s =>
        decide (FivePages (1, 0) [1, 0] s)) = some true := by decide +kernel
  obtain ⟨z, hz, hrun⟩ := Option.bind_eq_some_iff.mp hrun
  obtain ⟨s, hs, hfive⟩ := Option.map_eq_some_iff.mp hrun
  obtain ⟨hspan, hindex, hlive, -⟩ := of_decide_eq_true hfive
  refine ⟨z, hz, s, hs, free_inside_runs _ _ _ _ z hz s hs ?_ (1, 0) (by simp [hlive])⟩
  rw [hspan]
  exact hindex

/-- A zone of five pages is one block of order 2 behind the page of the descriptors.
Giving that block back looks at a descriptor 5. -/
theorem free_looks_past_the_zone :
    ∃ z ∈ pageAllocInit blankMem 4096 (5 * 4096),
      ∃ s ∈ Run.exec paStep { zone := z, live := [] } [.alloc 16384],
        (∀ i : ℕ, i < s.zone.spannedPages → (s.zone.page i).index = i) ∧
          (1, 2) ∈ s.live ∧ ¬ SeesInside s (1, 2) := by
  have hrun : ((pageAllocInit blankMem 4096 (5 * 4096)).bind fun z =>
      (Run.exec paStep { zone := z, live := [] } [.alloc 16384]).map fun s =>
        decide (FivePages (1, 2) [1, 5] s)) = some true := by decide +kernel
  obtain ⟨z, hz, hrun⟩ := Option.bind_eq_some_iff.mp hrun
  obtain ⟨s, hs, hfive⟩ := Option.map_eq_some_iff.mp hrun
  obtain ⟨hspan, hindex, hlive, hseen⟩ := of_decide_eq_true hfive
  refine ⟨z, hz, s, hs, ?_, by simp [hlive], ?_⟩
  · rw [hspan]
    exact hindex
  · intro hinside
    have := hinside 5 (by rw [hseen]; simp)
    omega

end YakOS
