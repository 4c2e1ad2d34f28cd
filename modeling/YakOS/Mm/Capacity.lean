import YakOS.Mm.Partition

/-!
# What giving everything back restores

The merge loop finds the second half of a block by flipping a bit of the index, and
so can only undo a split at a bit that was clear in the head of the block.  The
blocks `page_alloc_init` makes start at `used_pages` and need not be aligned, so a
split of one of them may be one that is never undone.

The result follows one initial block `(P, K)`, its *root*, through a run.  As long
as blocks with pages of the root are only split at clear bits, the root is either
part of a larger block, whole, or a tree of blocks of which no two marked halves
are left apart.  With nothing handed out such a tree is a single block.

## Main definitions

* `Marked`, `Settled`, `Somewhere` — the blocks a root can be made of.
* `CapInv` — the invariant for a root.
* `PaMemEvent`, `paMemStep` — the runs, in which the memory around the descriptors changes.
* `Restorable` — the condition on a call.
* `Restored` — with nothing handed out, what could be allocated at first can be
  allocated again.

## Main results

* `CapInv.take`, `CapInv.splitPut`, `CapInv.merge`, `CapInv.put` — the moves.
* `restored_runs` — runs in which the blocks of a root of the largest order are
  split at clear bits; `capacity_lost_to_odd_block` is a run that loses capacity.
-/

namespace YakOS

open Buddy

/-- The block is on its free list and its head says so. -/
def Marked (z : Zone) (p k : ℕ) : Prop := ((p : ℤ), k) ∈ z.freeBlocks ∧ pageIsBuddy z p k

/-- The block is held by a caller, or free and marked. -/
def Settled (z : Zone) (held : List Block) (p k : ℕ) : Prop :=
  ((p : ℤ), k) ∈ held ∨ Marked z p k

/-- The block is free or held. -/
def Somewhere (z : Zone) (held : List Block) (p k : ℕ) : Prop :=
  ((p : ℤ), k) ∈ z.freeBlocks ++ held

/-- What a run keeps of the root `(P, K)`. -/
structure CapInv (R : ℤ → Prop) (lo hi : ℤ) (P K : ℕ) (z : Zone) (held : List Block) : Prop where
  buddy : BuddyInv R lo hi z held
  rooted : Rooted (Somewhere z held) (Settled z held) P K
  /-- No two halves of a block inside the root are both free and marked. -/
  apart : ∀ q j, q.testBit j = false → P ≤ q → q + 2 ^ (j + 1) ≤ P + 2 ^ K →
    Marked z q j → Marked z (q + 2 ^ j) j → False

namespace CapInv

variable {R : ℤ → Prop} {lo hi : ℤ} {P K : ℕ} {z : Zone} {held held' : List Block} {p k : ℕ}

theorem perm (h : CapInv R lo hi P K z held) (hp : held.Perm held') :
    CapInv R lo hi P K z held' where
  buddy := h.buddy.perm hp
  rooted := by
    refine h.rooted.mono (fun q j hq => ?_) fun q j hq => ?_
    · exact (hp.append_left _).mem_iff.mp hq
    · exact hq.imp hp.mem_iff.mp id
  apart := h.apart

/-- Two blocks of the zone with a common page are the same. -/
theorem eq_of_has (h : CapInv R lo hi P K z held) {b c : Block} (hb : b ∈ z.freeBlocks ++ held)
    (hc : c ∈ z.freeBlocks ++ held) {x : ℤ} (hbx : b.Has x) (hcx : c.Has x) : b = c :=
  h.buddy.tiles.eq_of_has hb hc hbx hcx

/-! ### The moves -/

/-- A block goes from its free list to a caller. -/
theorem take (h : CapInv R lo hi P K z held) (hk : k < maxOrder)
    (hp : (p : ℤ) ∈ (z.freeArea k).freeList) :
    CapInv R lo hi P K (z.takeFree p k) (((p : ℤ), k) :: held) := by
  have hperm := Zone.freeBlocks_takeFree hk hp
  have hpmem : ((p : ℤ), k) ∈ z.freeBlocks ++ held :=
    List.mem_append_left _ (Zone.mem_freeBlocks.mpr ⟨hk, hp⟩)
  refine ⟨h.buddy.take hk hp, h.rooted.mono (fun q j hq => ?_) fun q j hq => ?_, ?_⟩
  · refine ((hperm.append_right held).trans List.perm_middle.symm).mem_iff.mp hq
  · rcases hq with hq | ⟨hq, hbuddy⟩
    · exact Or.inl (List.mem_cons_of_mem _ hq)
    · by_cases heq : (q : ℤ) = p
      · refine Or.inl (List.mem_cons.mpr (Or.inl ?_))
        refine h.eq_of_has (List.mem_append_left _ hq) hpmem (x := q) (Block.has_head _) ?_
        rw [heq]
        exact Block.has_head _
      · refine Or.inr ⟨?_, ?_⟩
        · refine (List.mem_cons.mp (hperm.mem_iff.mp hq)).resolve_left fun e => heq ?_
          exact congrArg Prod.fst e
        · simpa [pageIsBuddy, heq] using hbuddy
  · -- unlinking makes no new mark
    have hold : ∀ q j, Marked (z.takeFree p k) q j → Marked z q j := by
      rintro q j ⟨hq, hbuddy⟩
      have hne : (q : ℤ) ≠ p := by
        rintro heq
        simp [pageIsBuddy, heq, pageBuddyMapcountValue] at hbuddy
      refine ⟨hperm.mem_iff.mpr (List.mem_cons_of_mem _ hq), ?_⟩
      simpa [pageIsBuddy, hne] using hbuddy
    exact fun q j hbit h₁ h₂ hl hr => h.apart q j hbit h₁ h₂ (hold _ _ hl) (hold _ _ hr)

/-- A held block gives its upper half to a free list, at a bit that is clear if the
block has pages of the root. -/
theorem splitPut (h : CapInv R lo hi P K z (((p : ℤ), k + 1) :: held)) (hk : k < maxOrder)
    (hbit : p < P + 2 ^ K → P < p + 2 ^ (k + 1) → p.testBit k = false)
    (hmap : (z.page p).mapcount = -1) :
    CapInv R lo hi P K (z.putFree (p + 2 ^ k) k) (((p : ℤ), k) :: held) := by
  have hcast : (p : ℤ) + 2 ^ k = ((p + 2 ^ k : ℕ) : ℤ) := by push_cast; ring
  have hpos : 0 < 2 ^ k := by positivity
  have hsucc : 2 ^ (k + 1) = 2 ^ k + 2 ^ k := by rw [pow_succ]; ring
  have hperm := Zone.freeBlocks_putFree (z := z) (p := (p : ℤ) + 2 ^ k) hk
  have hhead : ((p : ℤ), k + 1) ∈ z.freeBlocks ++ (((p : ℤ), k + 1) :: held) := by simp
  -- the upper half heads no block of the zone before the split
  have hfresh : ∀ q j, ((q : ℤ), j) ∈ z.freeBlocks ++ (((p : ℤ), k + 1) :: held) →
      (q : ℤ) ≠ p + 2 ^ k := by
    intro q j hq heq
    have hsame := h.eq_of_has hq hhead (x := q) (Block.has_head _) (by
      have : (0 : ℤ) < 2 ^ k := by positivity
      simp only [Block.Has, pow_succ]
      omega)
    have hfst : (q : ℤ) = p := congrArg Prod.fst hsame
    have : (0 : ℤ) < 2 ^ k := by positivity
    omega
  have hnew : ∀ q j, Marked z q j → Marked (z.putFree (p + 2 ^ k) k) q j := by
    rintro q j ⟨hq, hbuddy⟩
    have hne := hfresh q j (List.mem_append_left _ hq)
    refine ⟨hperm.mem_iff.mpr (List.mem_cons_of_mem _ hq), ?_⟩
    simpa [pageIsBuddy, hne] using hbuddy
  have hmarked : Marked (z.putFree (p + 2 ^ k) k) (p + 2 ^ k) k := by
    refine ⟨hperm.mem_iff.mpr (List.mem_cons.mpr (Or.inl ?_)), ?_⟩
    · rw [hcast]
    · simp [pageIsBuddy]
  refine ⟨h.buddy.split.put hk, h.rooted.split (q := p) (o := k) hbit ?_ ?_ ?_ ?_ ?_ ?_, ?_⟩
  · intro a j ha hne
    rcases List.mem_append.mp ha with ha | ha
    · exact List.mem_append_left _ (hperm.mem_iff.mpr (List.mem_cons_of_mem _ ha))
    · rcases List.mem_cons.mp ha with ha | ha
      · simp only [Prod.mk.injEq, Nat.cast_inj] at ha
        exact absurd ha hne
      · exact List.mem_append_right _ (List.mem_cons_of_mem _ ha)
  · rintro a j (ha | ha) hne
    · rcases List.mem_cons.mp ha with ha | ha
      · simp only [Prod.mk.injEq, Nat.cast_inj] at ha
        exact absurd ha hne
      · exact Or.inl (List.mem_cons_of_mem _ ha)
    · exact Or.inr (hnew a j ha)
  · exact List.mem_append_right _ (by simp)
  · exact List.mem_append_left _ hmarked.1
  · exact Or.inl (by simp)
  · exact Or.inr hmarked
  · -- the only new mark is the upper half's, and its lower half is held
    have hcases : ∀ q j, Marked (z.putFree (p + 2 ^ k) k) q j →
        (q = p + 2 ^ k ∧ j = k) ∨ Marked z q j := by
      rintro q j ⟨hq, hbuddy⟩
      rcases List.mem_cons.mp (hperm.mem_iff.mp hq) with heq | hq
      · rw [hcast] at heq
        simp only [Prod.mk.injEq, Nat.cast_inj] at heq
        exact Or.inl heq
      · have hne := hfresh q j (List.mem_append_left _ hq)
        exact Or.inr ⟨hq, by simpa [pageIsBuddy, hne] using hbuddy⟩
    have hlower : ¬ Marked z p k := by
      rintro ⟨-, hbuddy, -⟩
      rw [hmap] at hbuddy
      exact absurd hbuddy (by decide)
    intro q j hq h₁ h₂ hl hr
    rcases hcases q j hl with ⟨rfl, rfl⟩ | hl'
    · rw [testBit_add_two_pow, hbit (by omega) (by omega)] at hq
      cases hq
    · rcases hcases _ j hr with ⟨heq, rfl⟩ | hr'
      · obtain rfl : q = p := by omega
        exact hlower hl'
      · exact h.apart q j hq h₁ h₂ hl' hr'

/-- Two held halves become one held block. -/
theorem merge (h : CapInv R lo hi P K z (((p : ℤ) + 2 ^ k, k) :: ((p : ℤ), k) :: held))
    (hbit : p.testBit k = false) : CapInv R lo hi P K z (((p : ℤ), k + 1) :: held) := by
  have hcast : (p : ℤ) + 2 ^ k = ((p + 2 ^ k : ℕ) : ℤ) := by push_cast; ring
  -- a held block other than the two halves is still held
  have hheld : ∀ a j : ℕ, ((a : ℤ), j) ∈ ((p : ℤ) + 2 ^ k, k) :: ((p : ℤ), k) :: held →
      (j = k → a ≠ p ∧ a ≠ p + 2 ^ k) → ((a : ℤ), j) ∈ ((p : ℤ), k + 1) :: held := by
    intro a j ha hne
    rw [hcast] at ha
    simp only [List.mem_cons, Prod.mk.injEq, Nat.cast_inj] at ha
    rcases ha with ⟨rfl, rfl⟩ | ⟨rfl, rfl⟩ | ha
    · exact absurd rfl (hne rfl).2
    · exact absurd rfl (hne rfl).1
    · exact List.mem_cons_of_mem _ ha
  refine ⟨h.buddy.merge, h.rooted.merge hbit ?_ ?_ ?_ ?_ ?_, h.apart⟩
  · rintro a j (ha | ha)
    · exact List.mem_append_right _ ha
    · exact List.mem_append_left _ ha.1
  · intro a j ha hne
    rcases List.mem_append.mp ha with ha | ha
    · exact List.mem_append_left _ ha
    · exact List.mem_append_right _ (hheld a j ha hne)
  · rintro a j (ha | ha) hne
    · exact Or.inl (hheld a j ha hne)
    · exact Or.inr ha
  · exact List.mem_append_right _ (by simp)
  · exact Or.inl (by simp)

/-- A held block goes to its free list; its buddy is not there. -/
theorem put (h : CapInv R lo hi P K z (((p : ℤ), k) :: held)) (hk : k < maxOrder)
    (hK : K < maxOrder)
    (hstop : k < maxOrder - 1 → ¬ pageIsBuddy z (findBuddyIndex p k : ℕ) k) :
    CapInv R lo hi P K (z.putFree p k) held := by
  have hperm := Zone.freeBlocks_putFree (z := z) (p := (p : ℤ)) hk
  have hhead : ((p : ℤ), k) ∈ z.freeBlocks ++ (((p : ℤ), k) :: held) := by simp
  have hfresh : ∀ q j, ((q : ℤ), j) ∈ z.freeBlocks → (q : ℤ) ≠ p := by
    intro q j hq heq
    have ht := (Tiles.perm List.perm_middle).mp h.buddy.tiles
    refine ht.disjoint_of_cons (List.mem_append_left _ hq) (Block.has_head _) ?_
    rw [← heq]
    exact Block.has_head _
  refine ⟨h.buddy.put hk, h.rooted.mono (fun q j hq => ?_) fun q j hq => ?_, ?_⟩
  · exact (List.perm_middle.trans (hperm.append_right held).symm).mem_iff.mp hq
  · rcases hq with hq | ⟨hq, hbuddy⟩
    · rcases List.mem_cons.mp hq with heq | hq
      · simp only [Prod.mk.injEq, Nat.cast_inj] at heq
        obtain ⟨rfl, rfl⟩ := heq
        exact Or.inr ⟨hperm.mem_iff.mpr (by simp), by simp [pageIsBuddy]⟩
      · exact Or.inl hq
    · refine Or.inr ⟨hperm.mem_iff.mpr (List.mem_cons_of_mem _ hq), ?_⟩
      simpa [pageIsBuddy, hfresh q j hq] using hbuddy
  -- two free buddies were free before, or one is the block put back, whose buddy is not free
  · have hcases : ∀ q j, Marked (z.putFree p k) q j → (q = p ∧ j = k) ∨ Marked z q j := by
      rintro q j ⟨hq, hbuddy⟩
      rcases List.mem_cons.mp (hperm.mem_iff.mp hq) with heq | hq
      · simp only [Prod.mk.injEq, Nat.cast_inj] at heq
        exact Or.inl heq
      · exact Or.inr ⟨hq, by simpa [pageIsBuddy, hfresh q j hq] using hbuddy⟩
    intro q j hq h₁ h₂ hl hr
    have hjK : 2 ^ (j + 1) ≤ 2 ^ K := by omega
    have hj : j + 1 ≤ K := (Nat.pow_le_pow_iff_right (by decide)).mp hjK
    have hpos : 0 < 2 ^ j := by positivity
    rcases hcases q j hl with ⟨rfl, rfl⟩ | hl'
    · rcases hcases _ j hr with ⟨heq, -⟩ | hr'
      · omega
      · refine hstop (by omega) ?_
        have hx : findBuddyIndex q j = q + 2 ^ j := by
          rw [findBuddyIndex, xor_two_pow, hq]
          rfl
        rw [hx]
        exact hr'.2
    · rcases hcases _ j hr with ⟨rfl, rfl⟩ | hr'
      · refine hstop (by omega) ?_
        have hx : findBuddyIndex (q + 2 ^ j) j = q := by
          rw [findBuddyIndex, xor_two_pow, testBit_add_two_pow, hq]
          simp
        rw [hx]
        exact hl'.2
      · exact h.apart q j hq h₁ h₂ hl' hr'

/-- Writing the order of a held, unmarked page changes no mark. -/
theorem modifyPriv (h : CapInv R lo hi P K z held) {order : ℕ} (hmap : (z.page p).mapcount = -1) :
    CapInv R lo hi P K (z.modifyPage p fun g => { g with priv := order }) held := by
  have hiff : ∀ q j, Marked (z.modifyPage p fun g => { g with priv := order }) q j ↔
      Marked z q j := by
    intro q j
    unfold Marked
    refine and_congr Iff.rfl ?_
    by_cases heq : (q : ℤ) = p
    · simp [pageIsBuddy, Zone.modifyPage, heq, hmap, pageBuddyMapcountValue]
    · simp [pageIsBuddy, Zone.modifyPage, heq]
  refine ⟨h.buddy.modifyPage ?_, h.rooted.mono (fun _ _ hq => hq) fun q j hq => ?_, ?_⟩
  · exact fun hl => absurd (hmap.symm.trans hl.1) (by decide)
  · exact hq.imp id (hiff q j).mpr
  · intro q j hq h₁ h₂ hl hr
    exact h.apart q j hq h₁ h₂ ((hiff q j).mp hl) ((hiff _ j).mp hr)

theorem widen {R' : ℤ → Prop} (h : CapInv R lo hi P K z held)
    (hR : ∀ b, R' b → ¬ R b → ¬ (z.page b).LooksFree) : CapInv R' lo hi P K z held :=
  { h with buddy := h.buddy.widen hR }

/-- The memory around the descriptors of the zone does not matter. -/
theorem remap (h : CapInv R lo hi P K z held) {m : ℤ → Page} (hlo : 0 ≤ lo)
    (hhi : hi ≤ z.spannedPages) (hR : ∀ b, R b → 0 ≤ b ∧ b < z.spannedPages) :
    CapInv R lo hi P K (z.remap m) held := by
  have hiff : ∀ q j, Marked (z.remap m) q j ↔ Marked z q j := by
    intro q j
    refine and_congr_right ?_
    intro hq
    have hrange := h.buddy.tiles.mem_range (List.mem_append_left _ hq) (Block.has_head _)
    simp only at hrange
    unfold pageIsBuddy
    rw [Zone.remap_of_mem ⟨hlo.trans hrange.1, hrange.2.trans_le hhi⟩]
  refine ⟨h.buddy.remap hR, h.rooted.mono (fun _ _ hq => hq) fun q j hq => ?_, ?_⟩
  · exact hq.imp id (hiff q j).mpr
  · intro q j hq h₁ h₂ hl hr
    exact h.apart q j hq h₁ h₂ ((hiff q j).mp hl) ((hiff _ j).mp hr)

/-- With nothing held the root is whole, alone or inside a larger block. -/
theorem exists_free (h : CapInv R lo hi P K z []) : ∃ b ∈ z.freeBlocks, K ≤ b.2 := by
  rcases h.rooted with ⟨j, hKj, hj⟩ | htree
  · exact ⟨_, by simpa [Somewhere] using hj, hKj⟩
  · have hmarked : ∀ q j, Settled z [] q j → Marked z q j := fun q j hq =>
      hq.resolve_left (by simp)
    have hroot := htree.collapse fun q j hq h₁ h₂ hl hr =>
      h.apart q j hq h₁ h₂ (hmarked _ _ hl) (hmarked _ _ hr)
    exact ⟨_, (hmarked _ _ hroot).1, le_rfl⟩

end CapInv

/-! ### The operations -/

theorem testBit_of_mod_lt {p k low i : ℕ} (h : p % 2 ^ k < 2 ^ low) (hlow : low ≤ i)
    (hi : i < k) : p.testBit i = false := by
  have hlt : p % 2 ^ k < 2 ^ i := h.trans_le (Nat.pow_le_pow_right (by decide) hlow)
  have hbit := Nat.testBit_mod_two_pow p k i
  rw [Nat.testBit_lt_two_pow hlt] at hbit
  simpa [hi] using hbit.symm

section Operations

variable {R : ℤ → Prop} {lo hi : ℤ} {P K : ℕ} {z : Zone} {held : List Block} {p k : ℕ}

theorem capInv_rmqueueTake {order : ℕ} (h : CapInv R lo hi P K z held) (hle : order ≤ k)
    (hk : k < maxOrder) (hp : (p : ℤ) ∈ (z.freeArea k).freeList)
    (hal : p < P + 2 ^ K → P < p + 2 ^ k → p % 2 ^ k < 2 ^ order) :
    CapInv R lo hi P K (rmqueueTake z order k p) (((p : ℤ), order) :: held) := by
  have hstart : CapInv R lo hi P K (z.takeFree p k) (((p : ℤ), k) :: held) ∧
      ((z.takeFree p k).page p).mapcount = -1 := ⟨h.take hk hp, by simp⟩
  have hsplit : ∀ z' j, order ≤ j → j < k →
      (CapInv R lo hi P K z' (((p : ℤ), j + 1) :: held) ∧ (z'.page p).mapcount = -1) →
      CapInv R lo hi P K (z'.putFree (p + 2 ^ j) j) (((p : ℤ), j) :: held) ∧
        ((z'.putFree (p + 2 ^ j) j).page p).mapcount = -1 := by
    rintro z' j hj hjk ⟨hz', hmap⟩
    refine ⟨hz'.splitPut (by omega) ?_ hmap, ?_⟩
    · intro h₁ h₂
      have hpow : 2 ^ (j + 1) ≤ 2 ^ k := Nat.pow_le_pow_right (by decide) hjk
      exact testBit_of_mod_lt (hal h₁ (by omega)) hj hjk
    · have hne : (p : ℤ) ≠ p + 2 ^ j := by
        have : (0 : ℤ) < 2 ^ j := by positivity
        omega
      simpa [hne] using hmap
  obtain ⟨hcap, hmap⟩ := expand_rule
    (P := fun z' j => CapInv R lo hi P K z' (((p : ℤ), j) :: held) ∧ (z'.page p).mapcount = -1)
    hsplit hle hstart
  exact hcap.modifyPriv hmap

theorem capInv_freeOnePage (h : CapInv R lo hi P K z (((p : ℤ), k) :: held)) (hk : k < maxOrder)
    (hK : K < maxOrder) (hindex : (z.page p).index = p) (hR : ∀ b : ℤ, 0 ≤ b → b ≤ hi → R b) :
    CapInv R lo hi P K (freeOnePage z p k) held := by
  refine freeLoop_rule
    (P := fun z' page idx k => page = (idx : ℤ) ∧ CapInv R lo hi P K z' (((idx : ℤ), k) :: held))
    (Q := fun z' => CapInv R lo hi P K z' held) ?_ ?_ hk ⟨by rw [hindex], by rwa [hindex]⟩
  · rintro z' page idx j hj ⟨rfl, hcap⟩ hbuddy
    rw [add_sub_cancel] at hbuddy ⊢
    rw [add_sub_cancel]
    refine ⟨rfl, ?_⟩
    have hmem : ((findBuddyIndex idx j : ℕ) : ℤ) ∈ (z'.freeArea j).freeList := by
      have hend := hcap.buddy.tiles.add_le (b := ((idx : ℤ), j)) (by simp)
      have hbud := buddy_offset idx j
      have hle : (findBuddyIndex idx j : ℤ) ≤ hi := by
        have hpos : (0 : ℤ) < 2 ^ j := by positivity
        simp only at hend
        split at hbud <;> omega
      have := hcap.buddy.marks _ (hR _ (Int.natCast_nonneg _) hle)
        ⟨hbuddy.1, by rw [hbuddy.2]; exact hj⟩
      rwa [hbuddy.2] at this
    have htake := hcap.take (by omega) hmem
    unfold findBuddyIndex at htake ⊢
    cases hbit : idx.testBit j with
    | true =>
      obtain ⟨q, rfl⟩ : ∃ q, idx = q + 2 ^ j :=
        ⟨idx - 2 ^ j, (Nat.sub_add_cancel (Nat.ge_two_pow_of_testBit hbit)).symm⟩
      have hq : q.testBit j = false := by simpa [testBit_add_two_pow] using hbit
      rw [and_xor_two_pow, hbit]
      rw [xor_two_pow, hbit] at htake ⊢
      simp only [if_true, Nat.add_sub_cancel] at htake ⊢
      refine CapInv.merge (htake.perm ?_) hq
      push_cast
      exact List.Perm.swap _ _ _
    | false =>
      rw [and_xor_two_pow, hbit]
      rw [xor_two_pow, hbit] at htake ⊢
      simp only [Bool.false_eq_true, if_false] at htake ⊢
      push_cast at htake ⊢
      exact htake.merge hbit
  · rintro z' page idx j hj ⟨rfl, hcap⟩ hstop
    rw [add_sub_cancel] at hstop
    exact hcap.put hj hK hstop

end Operations

/-! ### Runs -/

/-- If the block `b` has pages of the initial block `c`, then the bits of its head from
`order` up to its own order are clear. -/
def SplitsAligned (c : Block) (order : ℕ) (b : Block) : Prop :=
  b.1 < c.1 + 2 ^ c.2 → c.1 < b.1 + 2 ^ b.2 → b.1 % 2 ^ b.2 < 2 ^ order

instance (c : Block) (order : ℕ) (b : Block) : Decidable (SplitsAligned c order b) :=
  inferInstanceAs (Decidable (_ → _))

/-- A call of the page allocator, or a change of the memory around the descriptors of the zone.  Among the
changes is what the owners of the blocks store, and what the slob allocator does. -/
inductive PaMemEvent
  | call (e : PaEvent)
  | around (m : ℤ → Page)

def paMemStep (s : PaState) : PaMemEvent → Option PaState
  | .call e => paStep s e
  | .around m => some { s with zone := s.zone.remap m }

/-- The block `alloc_pages` is about to take, if any, may be split to the order asked for as far as the
initial block `c` is concerned, and `free_pages` finds no descriptor behind the zone that looks free. -/
def Restorable (c : Block) (s : PaState) : PaMemEvent → Prop
  | .call (.alloc size) =>
    ∀ b ∈ rmqueueFind s.zone (maxOrder - getOrder size) (getOrder size),
      SplitsAligned c (getOrder size) b
  | .call (.free _) => s.zone.QuietBehind
  | .around _ => True

instance (c : Block) (s : PaState) : ∀ e, Decidable (Restorable c s e)
  | .call (.alloc _) => inferInstanceAs (Decidable (∀ b ∈ _, _))
  | .call (.free _) => inferInstanceAs (Decidable s.zone.QuietBehind)
  | .around _ => isTrue trivial

/-- With nothing handed out, every request that the zone `z` could serve is served. -/
def Restored (z : Zone) (s : PaState) : Prop :=
  s.live = [] → ∀ size, 1 ≤ size → size < 2 ^ 32 → (allocPages z size).isSome →
    (allocPages s.zone size).isSome

section Steps

variable {R : ℤ → Prop} {lo hi : ℤ} {P K : ℕ} {s s' : PaState}

theorem capInv_alloc {size : ℕ} (hs : PaInv R s) (h : CapInv R lo hi P K s.zone s.live)
    (he : Restorable (P, K) s (.call (.alloc size))) (hstep : paStep s (.alloc size) = some s') :
    CapInv R lo hi P K s'.zone s'.live := by
  obtain rfl | ⟨k, q, hfind, hle, hk, hp, hz, hlive⟩ := paStep_alloc hstep
  · exact h
  · have hq : (q, k) ∈ s.zone.freeBlocks ++ s.live :=
      List.mem_append_left _ (Zone.mem_freeBlocks.mpr ⟨hk, hp⟩)
    obtain ⟨p, rfl⟩ := Int.eq_ofNat_of_zero_le (hs.mem_bounds hq).1
    rw [hlive, hz, (buddyInv_rmqueueTake hs.buddy hle hk hp).2.1]
    apply capInv_rmqueueTake h hle hk hp
    intro h₁ h₂
    have hal : (p : ℤ) < P + 2 ^ K → (P : ℤ) < p + 2 ^ k → (p : ℤ) % 2 ^ k < 2 ^ getOrder size :=
      he _ hfind
    exact_mod_cast hal (by exact_mod_cast h₁) (by exact_mod_cast h₂)

theorem capInv_free (hK : K < maxOrder) {addr : ℕ} (hs : PaInv R s)
    (h : CapInv R lo hi P K s.zone s.live) (hR : ∀ b : ℤ, 0 ≤ b → b ≤ hi → R b)
    (hstep : paStep s (.free addr) = some s') : CapInv R lo hi P K s'.zone s'.live := by
  obtain ⟨⟨q, k⟩, hb, rfl, rfl⟩ := paStep_free hstep
  obtain ⟨hpos, hlt⟩ := hs.mem_bounds (List.mem_append_right _ hb)
  obtain ⟨p, rfl⟩ := Int.eq_ofNat_of_zero_le hpos
  show CapInv R lo hi P K (freePages s.zone (pageAddress s.zone p)) (s.live.erase ((p : ℤ), k))
  rw [hs.freePages_eq hb]
  refine capInv_freeOnePage (h.perm (List.perm_cons_erase hb)) (hs.live _ hb).1 hK ?_ hR
  exact_mod_cast hs.index p hpos hlt

/-- The invariant of the runs that start with the zone `z`: the marks are known inside the zone only. -/
structure RootInv (z : Zone) (P K : ℕ) (s : PaState) : Prop where
  span : s.zone.spannedPages = z.spannedPages
  pages : PaInv z.Within s
  root : CapInv z.Within z.usedPages z.spannedPages P K s.zone s.live

/-- **The step lemma.**  For the time of a `free_pages` the marks are known behind the zone too. -/
theorem RootInv.step {z : Zone} {e : PaMemEvent} (hK : K < maxOrder) (h : RootInv z P K s)
    (he : Restorable (P, K) s e) (hstep : paMemStep s e = some s') : RootInv z P K s' := by
  obtain ⟨hspan, hpages, hroot⟩ := h
  cases e with
  | around m =>
    obtain rfl := Option.some.inj hstep
    have hR : ∀ b, z.Within b → 0 ≤ b ∧ b < s.zone.spannedPages := fun b hb => hspan ▸ hb
    exact ⟨hspan, hpages.remap hR, hroot.remap (Int.natCast_nonneg _) (by rw [hspan]) hR⟩
  | call e =>
    cases e with
    | alloc size =>
      obtain ⟨hpages', hspan'⟩ := hpages.alloc hstep
      exact ⟨hspan'.trans hspan, hpages', capInv_alloc hpages hroot he hstep⟩
    | free addr =>
      have hwiden : ∀ b : ℤ, (0 ≤ b ∧ b ≤ s.zone.spannedPages) → ¬ z.Within b →
          ¬ (s.zone.page b).LooksFree := fun b hb hout =>
        Zone.QuietBehind.not_looksFree he hb fun hin => hout ⟨hin.1, hspan ▸ hin.2⟩
      have hnarrow : ∀ (t : PaState) (b : ℤ), z.Within b → ¬ (0 ≤ b ∧ b ≤ s.zone.spannedPages) →
          ¬ (t.zone.page b).LooksFree := fun t b hb hout => absurd ⟨hb.1, hspan ▸ hb.2.le⟩ hout
      obtain ⟨hpages', hspan'⟩ := (hpages.widen hwiden).free (fun b h₀ h₁ => ⟨h₀, h₁⟩) hstep
      have hroot' := capInv_free hK (hpages.widen hwiden) (hroot.widen hwiden)
        (fun b h₀ h₁ => ⟨h₀, hspan ▸ h₁⟩) hstep
      exact ⟨hspan'.trans hspan, hpages'.widen (hnarrow s'), hroot'.widen (hnarrow s')⟩

/-- With nothing handed out the root is whole, alone or inside a larger block. -/
theorem RootInv.exists_free {z : Zone} (h : RootInv z P K s) (hlive : s.live = []) :
    ∃ b ∈ s.zone.freeBlocks, K ≤ b.2 := by
  have hroot := h.root
  rw [hlive] at hroot
  exact hroot.exists_free

end Steps

/-- **Capacity.**  Follow a run from a fresh zone without stale marks, in which the memory around the
descriptors changes as it likes between the calls.  If for every initial block there is one at least as large
whose pages are only split off at clear bits, and no `free_pages` finds a descriptor behind the zone that
looks free, then whenever everything has been given back all requests the fresh zone could serve can be
served again. -/
theorem restored_runs {mem : ℤ → Page} {addr size : ℕ} {z : Zone}
    (hz : pageAllocInit mem addr size = some z) (hfit : addr + size ≤ 2 ^ 32)
    (hindex : ∀ i : ℕ, i < z.spannedPages → (z.page i).index = i)
    (hpage : HasPage addr size)
    (hmem : ∀ i : ℕ, z.managedPages ≤ i → i < z.spannedPages → ¬ (mem i).LooksFree)
    {es : List PaMemEvent}
    (hes : ∀ b ∈ z.freeBlocks, ∃ c ∈ z.freeBlocks, b.2 ≤ c.2 ∧
      Run.Guarded paMemStep (Restorable c) { zone := z, live := [] } es) :
    Run.Always paMemStep (Restored z) { zone := z, live := [] } es := by
  have hzone := initialZone_pageAllocInit hz hfit hpage
  have hfree : ∀ b, z.Within b → ¬ (z.page b).LooksFree := fun b hb => hzone.not_looksFree hmem hb
  have hpa := paInv_init hzone hindex hfree
  -- an initial block that is only split at clear bits comes back
  have hroot : ∀ c ∈ z.freeBlocks,
      Run.Guarded paMemStep (Restorable c) { zone := z, live := [] } es →
      Run.Always paMemStep (fun s => s.live = [] → ∃ b ∈ s.zone.freeBlocks, c.2 ≤ b.2)
        { zone := z, live := [] } es := by
    rintro ⟨q, K⟩ hc hguard
    obtain ⟨P, rfl⟩ := Int.eq_ofNat_of_zero_le
      (hpa.mem_bounds (s := { zone := z, live := [] }) (by simpa using hc)).1
    have hK : K < maxOrder := (Zone.mem_freeBlocks.mp hc).1
    have hcap : CapInv z.Within z.usedPages z.spannedPages P K z [] := by
      refine ⟨hpa.buddy, Or.inl ⟨K, le_rfl, ?_⟩, fun q j _ _ hle hl _ => ?_⟩
      · rw [headAt_self]
        exact List.mem_append_left _ hc
      · have hj : j + 1 ≤ K := (Nat.pow_le_pow_iff_right (by decide : 1 < 2)).mp (by omega)
        have hq := hpa.mem_bounds (s := { zone := z, live := [] }) (List.mem_append_left _ hl.1)
        exact hfree q hq ⟨hl.2.1, by rw [hl.2.2]; omega⟩
    have hrun := Run.always_of_guarded (fun s e s' hs he hstep => RootInv.step hK hs he hstep)
      (⟨rfl, hpa, hcap⟩ : RootInv z P K { zone := z, live := [] }) hguard
    exact hrun.mono fun s hs => hs.exists_free
  -- every request the fresh zone could serve fits into one of its blocks
  have hall : ∀ b ∈ z.freeBlocks, Run.Always paMemStep
      (fun s => s.live = [] → ∃ b' ∈ s.zone.freeBlocks, b.2 ≤ b'.2) { zone := z, live := [] } es := by
    intro b hb
    obtain ⟨c, hc, hbc, hguard⟩ := hes b hb
    refine (hroot c hc hguard).mono ?_
    intro s hs hlive
    obtain ⟨b', hb', hle⟩ := hs hlive
    exact ⟨b', hb', hbc.trans hle⟩
  refine (Run.always_forall hall).mono ?_
  intro s hs hlive n hpos hlt hsome
  have hne : ¬ allocPages z n = none := by
    rintro hnone
    rw [hnone] at hsome
    cases hsome
  rw [allocPages_eq_none] at hne
  push Not at hne
  obtain ⟨b, hb, hle⟩ := hne
  obtain ⟨b', hb', hle'⟩ := hs b hb hlive
  rw [Option.isSome_iff_ne_none, Ne, allocPages_eq_none]
  push Not
  exact ⟨b', hb', hle.trans hle'⟩

/-- A block is handed out, its owner and others write, and it is given back. -/
def twoPageRun : List PaMemEvent :=
  [.call (.alloc 8192), .around fun b => { blankMem b with mapcount := b }, .call (.free 8192)]

/-- The zone of five pages has the one initial block `[1, 5)`.  Taking a block of two
pages from it splits at bit 1 of its head, which is clear. -/
theorem restored_runs_two_pages :
    ∃ z, pageAllocInit blankMem 4096 (5 * 4096) = some z ∧
      Run.Always paMemStep (Restored z) { zone := z, live := [] } twoPageRun := by
  obtain ⟨z, hz⟩ := Option.isSome_iff_exists.mp
    (by decide : (pageAllocInit blankMem 4096 (5 * 4096)).isSome)
  have hfit : 4096 + 5 * 4096 ≤ 2 ^ 32 := by decide
  have hpage : HasPage 4096 (5 * 4096) := by unfold HasPage; decide
  have hinit := initialZone_pageAllocInit hz hfit hpage
  have hblocks : z.freeBlocks = [(1, 2)] := by
    have : (pageAllocInit blankMem 4096 (5 * 4096)).map Zone.freeBlocks = some [(1, 2)] := by
      decide +kernel
    simpa [hz] using this
  have hguard : Run.Guarded paMemStep (Restorable (1, 2)) { zone := z, live := [] }
      twoPageRun := by
    have : (pageAllocInit blankMem 4096 (5 * 4096)).all (fun z => decide (Run.Guarded paMemStep
        (Restorable (1, 2)) { zone := z, live := [] } twoPageRun)) = true := by
      decide +kernel
    simpa [hz] using this
  refine ⟨z, hz, restored_runs hz hfit (fun i _ => hinit.index_eq (fun _ => rfl) i) hpage
    (fun i _ _ => blankMem_not_looksFree i) fun b hb => ⟨(1, 2), by simp [hblocks], ?_, hguard⟩⟩
  rw [hblocks, List.mem_singleton] at hb
  rw [hb]

/-- Taking one page from the block `[1, 5)` and giving it back: pages 1 and 2 are not
buddies, so four pages in a row can no longer be had. -/
theorem capacity_lost_to_odd_block :
    ∃ z, pageAllocInit blankMem 4096 (5 * 4096) = some z ∧
      (∀ i : ℕ, i < z.spannedPages → (z.page i).index = i) ∧
      ¬ Run.Always paMemStep (Restored z) { zone := z, live := [] } [.call (.alloc 4096), .call (.free 8192)] := by
  obtain ⟨z, hz⟩ := Option.isSome_iff_exists.mp
    (by decide : (pageAllocInit blankMem 4096 (5 * 4096)).isSome)
  have hinit := initialZone_pageAllocInit hz (by decide) (by unfold HasPage; decide)
  refine ⟨z, hz, fun i _ => hinit.index_eq (fun _ => rfl) i, ?_⟩
  intro hrun
  have hbefore : (allocPages z 16384).isSome := by
    have : (pageAllocInit blankMem 4096 (5 * 4096)).all
        (fun z => (allocPages z 16384).isSome) = true := by decide +kernel
    simpa [hz] using this
  have hafter : (Run.exec paMemStep { zone := z, live := [] } [.call (.alloc 4096), .call (.free 8192)]).map
      (fun s => (s.live, (allocPages s.zone 16384).isSome)) = some ([], false) := by
    have : (pageAllocInit blankMem 4096 (5 * 4096)).bind (fun z =>
        (Run.exec paMemStep { zone := z, live := [] } [.call (.alloc 4096), .call (.free 8192)]).map
          fun s => (s.live, (allocPages s.zone 16384).isSome)) = some ([], false) := by
      decide +kernel
    rwa [hz] at this
  obtain ⟨s, hs, heq⟩ := Option.map_eq_some_iff.mp hafter
  simp only [Prod.mk.injEq] at heq
  have := hrun.exec hs heq.1 16384 (by decide) (by decide) hbefore
  rw [heq.2] at this
  cases this

end YakOS
