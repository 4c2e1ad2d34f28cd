import YakOS.Lib.Run
import YakOS.Mm.PageAlloc

/-!
# The page allocator keeps a partition of the zone

The free blocks and the blocks handed out tile the zone, through every order of
splits and merges.  The argument does not need blocks to be aligned: the merge
loop only ever joins the block in hand with a marked block of the same order right
before or right after it, and a marked descriptor heads a block on the free list
of its order.  That last fact is where the code falls short: the descriptors from
`managed_pages` on are never initialised.

## Main definitions

* `BuddyInv` — tiling, list lengths and marks; the blocks held by callers are a
  parameter.
* `PaState`, `paStep` — the zone together with the blocks handed out.
* `Partitioned` — what is promised of every state of a run.

## Main results

* `BuddyInv.take`, `BuddyInv.put`, `BuddyInv.split`, `BuddyInv.merge` — the four
  moves the operations are made of.
* `buddyInv_rmqueueTake`, `buddyInv_freeOnePage` — the two operations.
* `buddyInv_pageAllocInit` — the initial zone.
* `partitioned_runs` — every run keeps the partition if no stale descriptor looks
  free; `partition_lost_to_stale_page` is a run that loses it.
-/

namespace YakOS

open Buddy

/-- The merge loop can take the descriptor for the head of a free block. -/
def Page.LooksFree (g : Page) : Prop :=
  g.mapcount = pageBuddyMapcountValue ∧ g.priv < maxOrder - 1

instance (g : Page) : Decidable g.LooksFree := inferInstanceAs (Decidable (_ ∧ _))

/-- The position is that of a descriptor of the zone. -/
def Zone.Within (z : Zone) (b : ℤ) : Prop := 0 ≤ b ∧ b < z.spannedPages

/-- The descriptor behind those of the zone does not look free.  It can lie in the first page of the
heap, where the owner of a block writes. -/
def Zone.QuietBehind (z : Zone) : Prop := ¬ (z.page z.spannedPages).LooksFree

instance (z : Zone) : Decidable z.QuietBehind := inferInstanceAs (Decidable (¬ _))

theorem Zone.QuietBehind.not_looksFree {z : Zone} (h : z.QuietBehind) {b : ℤ}
    (hb : 0 ≤ b ∧ b ≤ z.spannedPages) (hout : ¬ z.Within b) : ¬ (z.page b).LooksFree := by
  obtain rfl : b = z.spannedPages := by
    unfold Zone.Within at hout
    omega
  exact h

/-- The descriptors the merge loop can ask for while it gives back a block of a zone that spans
`[lo, hi)`: some in front of the zone, when an index is wrong, and one behind it. -/
def MergeRange (lo hi b : ℤ) : Prop := lo - 2 ^ (maxOrder - 2) ≤ b ∧ b ≤ hi

/-- The invariant of a zone that spans `[lo, hi)` while the blocks `held` are out of
its lists.  The marks are only known at the positions in `R`. -/
structure BuddyInv (R : ℤ → Prop) (lo hi : ℤ) (z : Zone) (held : List Block) : Prop where
  tiles : Tiles (z.freeBlocks ++ held) lo hi
  nrFree : ∀ k, (z.freeArea k).nrFree = BitVec.ofNat 32 (z.freeArea k).freeList.length
  marks : ∀ b, R b → (z.page b).LooksFree → b ∈ (z.freeArea (z.page b).priv).freeList

namespace BuddyInv

variable {R : ℤ → Prop} {lo hi : ℤ} {z : Zone} {held held' : List Block} {p : ℤ} {k : ℕ}

theorem perm (h : BuddyInv R lo hi z held) (hp : held.Perm held') : BuddyInv R lo hi z held' :=
  { h with tiles := (Tiles.perm (hp.append_left _)).mp h.tiles }

/-! ### The four moves -/

theorem take (h : BuddyInv R lo hi z held) (hk : k < maxOrder)
    (hp : p ∈ (z.freeArea k).freeList) : BuddyInv R lo hi (z.takeFree p k) ((p, k) :: held) where
  tiles := by
    refine (Tiles.perm ?_).mp h.tiles
    exact ((Zone.freeBlocks_takeFree hk hp).append_right held).trans List.perm_middle.symm
  nrFree j := by
    rw [Zone.takeFree_nrFree, Zone.takeFree_freeList]
    split
    · rename_i hj
      subst hj
      rw [h.nrFree j, ← List.length_erase_add_one hp, BitVec.ofNat_add]
      exact BitVec.add_sub_cancel _ _
    · exact h.nrFree j
  marks b hR hb := by
    rw [Zone.takeFree_page] at hb ⊢
    split at hb
    · exact absurd hb.1 (by simp [pageBuddyMapcountValue])
    · rename_i hne
      rw [if_neg hne, Zone.takeFree_freeList]
      have hmem := h.marks b hR hb
      split
      · exact (List.mem_erase_of_ne hne).mpr hmem
      · exact hmem

theorem put (h : BuddyInv R lo hi z ((p, k) :: held)) (hk : k < maxOrder) :
    BuddyInv R lo hi (z.putFree p k) held where
  tiles := by
    refine (Tiles.perm ?_).mp h.tiles
    exact List.perm_middle.trans ((Zone.freeBlocks_putFree hk).append_right held).symm
  nrFree j := by
    rw [Zone.putFree_nrFree, Zone.putFree_freeList]
    split
    · rw [h.nrFree j, List.length_cons, BitVec.ofNat_add]
      rfl
    · exact h.nrFree j
  marks b hR hb := by
    rw [Zone.putFree_page] at hb ⊢
    rw [Zone.putFree_freeList]
    split at hb
    · rename_i heq
      subst heq
      simp
    · rename_i hne
      rw [if_neg hne]
      have hmem := h.marks b hR hb
      split
      · exact List.mem_cons_of_mem _ hmem
      · exact hmem

theorem split (h : BuddyInv R lo hi z ((p, k + 1) :: held)) :
    BuddyInv R lo hi z ((p + 2 ^ k, k) :: (p, k) :: held) := by
  have ht : Tiles ((p, k) :: (p + 2 ^ k, k) :: (z.freeBlocks ++ held)) lo hi :=
    tiles_split.mp ((Tiles.perm List.perm_middle).mp h.tiles)
  refine { h with tiles := (Tiles.perm ?_).mp ht }
  refine (List.Perm.swap _ _ _).trans ?_
  exact (List.perm_middle.trans (List.perm_middle.cons _)).symm

theorem merge (h : BuddyInv R lo hi z ((p + 2 ^ k, k) :: (p, k) :: held)) :
    BuddyInv R lo hi z ((p, k + 1) :: held) := by
  refine { h with tiles := ?_ }
  refine (Tiles.perm List.perm_middle).mpr (tiles_split.mpr ((Tiles.perm ?_).mp h.tiles))
  refine List.Perm.trans ?_ (List.Perm.swap _ _ _)
  exact List.perm_middle.trans (List.perm_middle.cons _)

/-- A free block that the index of the block in hand makes its buddy is joined with it:
the merged block starts at the lower of the two. -/
theorem joinBuddy {page : ℤ} {idx : ℕ} (h : BuddyInv R lo hi z ((page, k) :: held))
    (hk : k < maxOrder)
    (hmem : page + ((findBuddyIndex idx k : ℤ) - idx) ∈ (z.freeArea k).freeList) :
    BuddyInv R lo hi (z.takeFree (page + ((findBuddyIndex idx k : ℤ) - idx)) k)
      ((page + (((findBuddyIndex idx k &&& idx : ℕ) : ℤ) - idx), k + 1) :: held) := by
  have htake := h.take hk hmem
  rw [combined_offset]
  rw [buddy_offset] at htake ⊢
  by_cases hbit : idx.testBit k
  · rw [if_pos hbit] at htake ⊢
    rw [if_pos hbit]
    refine BuddyInv.merge (htake.perm ?_)
    rw [neg_add_cancel_right]
    exact List.Perm.swap _ _ _
  · rw [if_neg hbit] at htake ⊢
    rw [if_neg hbit, add_zero]
    exact htake.merge

/-- A descriptor that does not look free may be written as long as it stays so. -/
theorem modifyPage {f : Page → Page} (h : BuddyInv R lo hi z held)
    (hf : ¬ (f (z.page p)).LooksFree) : BuddyInv R lo hi (z.modifyPage p f) held := by
  refine { h with marks := fun b hR hb => ?_ }
  simp only [Zone.modifyPage] at hb ⊢
  split at hb
  · rename_i heq
    subst heq
    exact absurd hb hf
  · rename_i hne
    rw [if_neg hne]
    exact h.marks b hR hb

/-- The marks are known where they were, and where no descriptor looks free. -/
theorem widen {R' : ℤ → Prop} (h : BuddyInv R lo hi z held)
    (hR : ∀ b, R' b → ¬ R b → ¬ (z.page b).LooksFree) : BuddyInv R' lo hi z held := by
  refine { h with marks := fun b hb hl => ?_ }
  by_cases hRb : R b
  · exact h.marks b hRb hl
  · exact absurd hl (hR b hb hRb)

/-- Other descriptors than those of the zone. -/
theorem remap (h : BuddyInv R lo hi z held) {m : ℤ → Page}
    (hR : ∀ b, R b → 0 ≤ b ∧ b < z.spannedPages) : BuddyInv R lo hi (z.remap m) held := by
  refine { h with marks := fun b hb hl => ?_ }
  rw [Zone.remap_of_mem (hR b hb)] at hl ⊢
  exact h.marks b hb hl

end BuddyInv

/-! ### The operations -/

theorem buddyInv_expand {R : ℤ → Prop} {lo hi : ℤ} {z : Zone} {held : List Block} {p : ℤ}
    {low high : ℕ} (h : BuddyInv R lo hi z ((p, high) :: held)) (hle : low ≤ high)
    (hhigh : high ≤ maxOrder) : BuddyInv R lo hi (expand z p low high) ((p, low) :: held) :=
  expand_rule (P := fun z k => BuddyInv R lo hi z ((p, k) :: held))
    (fun _ _ _ hk hz => hz.split.put (by omega)) hle h

/-! ### What the operations leave alone -/

/-- The operations never touch the zone's bounds nor the flags and index of a page,
and leave the descriptors in `keep` as they are. -/
structure Zone.Frame (keep : ℤ → Prop) (z z' : Zone) : Prop where
  memmapPages : z'.memmapPages = z.memmapPages
  zoneStartPfn : z'.zoneStartPfn = z.zoneStartPfn
  spannedPages : z'.spannedPages = z.spannedPages
  managedPages : z'.managedPages = z.managedPages
  flags : ∀ b, (z'.page b).flags = (z.page b).flags
  index : ∀ b, (z'.page b).index = (z.page b).index
  page : ∀ b, keep b → z'.page b = z.page b

namespace Zone.Frame

variable {keep : ℤ → Prop} {z z' z'' : Zone} {p : ℤ} {k : ℕ}

theorem refl : Zone.Frame keep z z := ⟨rfl, rfl, rfl, rfl, fun _ => rfl, fun _ => rfl, fun _ _ => rfl⟩

theorem trans (h : Zone.Frame keep z z') (h' : Zone.Frame keep z' z'') : Zone.Frame keep z z'' where
  memmapPages := h'.memmapPages.trans h.memmapPages
  zoneStartPfn := h'.zoneStartPfn.trans h.zoneStartPfn
  spannedPages := h'.spannedPages.trans h.spannedPages
  managedPages := h'.managedPages.trans h.managedPages
  flags b := (h'.flags b).trans (h.flags b)
  index b := (h'.index b).trans (h.index b)
  page b hb := (h'.page b hb).trans (h.page b hb)

/-- Writing the mark and the order of one page. -/
theorem modifyPage {f : Page → Page} (hp : ¬ keep p)
    (hf : (f (z.page p)).flags = (z.page p).flags ∧ (f (z.page p)).index = (z.page p).index) :
    Zone.Frame keep z (z.modifyPage p f) := by
  refine ⟨rfl, rfl, rfl, rfl, ?_, ?_, ?_⟩
  · intro b
    by_cases h : b = p
    · subst h
      simpa [Zone.modifyPage] using hf.1
    · simp [Zone.modifyPage, h]
  · intro b
    by_cases h : b = p
    · subst h
      simpa [Zone.modifyPage] using hf.2
    · simp [Zone.modifyPage, h]
  · intro b hb
    have h : b ≠ p := fun e => hp (e ▸ hb)
    simp [Zone.modifyPage, h]

theorem takeFree (hp : ¬ keep p) : Zone.Frame keep z (z.takeFree p k) :=
  { Zone.Frame.modifyPage (z := z) (f := fun g => { g with priv := 0, mapcount := -1 }) hp
      ⟨rfl, rfl⟩ with }

theorem putFree (hp : ¬ keep p) : Zone.Frame keep z (z.putFree p k) :=
  { Zone.Frame.modifyPage (z := z)
      (f := fun g => { g with priv := k, mapcount := pageBuddyMapcountValue }) hp ⟨rfl, rfl⟩ with }

end Zone.Frame

/-- `expand` writes the heads of the halves it frees only. -/
theorem expand_frame (z : Zone) (p : ℤ) {low high : ℕ} (hle : low ≤ high) :
    Zone.Frame (fun b => b = p ∨ ¬ Block.Has (p, high) b) z (expand z p low high) := by
  refine expand_rule
    (P := fun z' _ => Zone.Frame (fun b => b = p ∨ ¬ Block.Has (p, high) b) z z')
    (fun z' k _ hk hz => hz.trans (Zone.Frame.putFree ?_)) hle Zone.Frame.refl
  have hpos : (0 : ℤ) < 2 ^ k := by positivity
  have hlt : (2 : ℤ) ^ k < 2 ^ high := pow_lt_pow_right₀ (by norm_num) hk
  simp only [Block.Has]
  omega

/-- **The allocation step.**  `__rmqueue` splits the block it found down to the
order it was asked for. -/
theorem buddyInv_rmqueueTake {R : ℤ → Prop} {lo hi : ℤ} {z : Zone} {held : List Block} {p : ℤ}
    {order k : ℕ} (h : BuddyInv R lo hi z held) (hle : order ≤ k) (hk : k < maxOrder)
    (hp : p ∈ (z.freeArea k).freeList) :
    BuddyInv R lo hi (rmqueueTake z order k p) ((p, order) :: held) ∧
      (rmqueueTake z order k p).page p = { z.page p with mapcount := -1, priv := order } ∧
      Zone.Frame (fun b => ¬ Block.Has (p, k) b) z (rmqueueTake z order k p) := by
  have hframe := expand_frame (z.takeFree p k) p hle
  have hpage : (expand (z.takeFree p k) p order k).page p =
      { z.page p with mapcount := -1, priv := 0 } := by
    rw [hframe.page p (Or.inl rfl), Zone.takeFree_page, if_pos rfl]
  have hnot : ¬ ¬ Block.Has (p, k) p := not_not.mpr (Block.has_head (p, k))
  refine ⟨?_, ?_, ?_⟩
  · refine (buddyInv_expand (h.take hk hp) hle hk.le).modifyPage ?_
    rw [hpage]
    exact fun hl => absurd hl.1 (by simp [pageBuddyMapcountValue])
  · show (Zone.modifyPage (expand (z.takeFree p k) p order k) p _).page p = _
    simp only [Zone.modifyPage, if_true, hpage]
  · have hexpand : Zone.Frame (fun b => ¬ Block.Has (p, k) b) (z.takeFree p k)
        (expand (z.takeFree p k) p order k) :=
      { hframe with page := fun b hb => hframe.page b (Or.inr hb) }
    exact ((Zone.Frame.takeFree hnot).trans hexpand).trans
      (Zone.Frame.modifyPage hnot ⟨rfl, rfl⟩)

/-- **The release step.**  Only the displacement between a page's position and its
`index` matters: whatever the index is, a merge joins two adjacent blocks. -/
theorem buddyInv_freeOnePage {R : ℤ → Prop} {lo hi : ℤ} {z : Zone} {held : List Block} {p : ℤ}
    {order : ℕ} (h : BuddyInv R lo hi z ((p, order) :: held)) (horder : order < maxOrder)
    (hR : ∀ n : ℕ, MergeRange lo hi (n + (p - (z.page p).index)) → R (n + (p - (z.page p).index))) :
    BuddyInv R lo hi (freeOnePage z p order) held ∧
      Zone.Frame (fun b => b ≠ p ∧ ∀ c ∈ z.freeBlocks, c.1 ≠ b) z (freeOnePage z p order) := by
  set keep : ℤ → Prop := fun b => b ≠ p ∧ ∀ c ∈ z.freeBlocks, c.1 ≠ b
  -- the block in hand, the displacement, and that only heads of free blocks were written
  refine freeLoop_rule
    (P := fun z' page idx k => BuddyInv R lo hi z' ((page, k) :: held) ∧
      page - idx = p - (z.page p).index ∧ Zone.Frame keep z z' ∧ ¬ keep page ∧
      ∀ b ∈ z'.freeBlocks, b ∈ z.freeBlocks)
    (Q := fun z' => BuddyInv R lo hi z' held ∧ Zone.Frame keep z z') ?_ ?_ horder
    ⟨h, rfl, Zone.Frame.refl, fun hk => hk.1 rfl, fun _ hb => hb⟩
  · rintro z' page idx k hk ⟨hinv, hdisp, hframe, hpage, hsub⟩ hbuddy
    set buddy := page + ((findBuddyIndex idx k : ℤ) - idx) with hbuddy_def
    have hrange : MergeRange lo hi buddy := by
      have hpow : (2 : ℤ) ^ k ≤ 2 ^ (maxOrder - 2) := pow_le_pow_right₀ (by norm_num) (by omega)
      have hblock : (page, k) ∈ z'.freeBlocks ++ (page, k) :: held := by simp
      have hlo := (hinv.tiles.mem_range hblock (Block.has_head _)).1
      have hhi := hinv.tiles.add_le hblock
      have hpos : (0 : ℤ) < 2 ^ k := by positivity
      simp only at hlo hhi
      unfold MergeRange
      rw [hbuddy_def, buddy_offset idx k]
      split <;> omega
    have hRb : R buddy := by
      have hn : (findBuddyIndex idx k : ℤ) + (p - (z.page p).index) = buddy := by
        rw [hbuddy_def, ← hdisp]
        ring
      exact hn ▸ hR (findBuddyIndex idx k) (hn ▸ hrange)
    have hlooks : (z'.page buddy).LooksFree := ⟨hbuddy.1, by rw [hbuddy.2]; exact hk⟩
    have hmem : buddy ∈ (z'.freeArea k).freeList := by
      have := hinv.marks buddy hRb hlooks
      rwa [hbuddy.2] at this
    have hk' : k < maxOrder := by omega
    have hnot : ¬ keep buddy := fun hkeep =>
      hkeep.2 (buddy, k) (hsub _ (Zone.mem_freeBlocks.mpr ⟨hk', hmem⟩)) rfl
    have hcomb := combined_offset idx k
    have hbud := buddy_offset idx k
    refine ⟨hinv.joinBuddy hk' hmem, ?_, hframe.trans (Zone.Frame.takeFree hnot), ?_, ?_⟩
    · rw [← hdisp]
      ring
    · by_cases hbit : idx.testBit k
      · rw [if_pos hbit] at hcomb hbud
        rw [hcomb, ← hbud]
        exact hnot
      · rw [if_neg hbit] at hcomb
        rw [hcomb, add_zero]
        exact hpage
    · intro b hb
      refine hsub b ((Zone.freeBlocks_takeFree hk' hmem).mem_iff.mpr ?_)
      exact List.mem_cons_of_mem _ hb
  · rintro z' page idx k hk ⟨hinv, -, hframe, hpage, -⟩ -
    exact ⟨hinv.put hk, hframe.trans (Zone.Frame.putFree hpage)⟩

/-- A block that stays handed out is neither the block given back nor the head of a free
one. -/
theorem BuddyInv.held_apart {R : ℤ → Prop} {lo hi : ℤ} {z : Zone} {held : List Block} {b c : Block}
    (h : BuddyInv R lo hi z (b :: held)) (hc : c ∈ held) :
    c.1 ≠ b.1 ∧ ∀ d ∈ z.freeBlocks, d.1 ≠ c.1 := by
  constructor
  · intro heq
    refine ((Tiles.perm List.perm_middle).mp h.tiles).disjoint_of_cons
      (List.mem_append_right _ hc) (x := b.1) (Block.has_head b) ?_
    rw [← heq]
    exact Block.has_head c
  · intro d hd heq
    obtain ⟨hk, hp⟩ := Zone.mem_freeBlocks.mp hd
    refine ((Tiles.perm List.perm_middle).mp (h.take hk hp).tiles).disjoint_of_cons
      (List.mem_append_right _ (List.mem_cons_of_mem _ hc)) (x := d.1) (Block.has_head d) ?_
    rw [heq]
    exact Block.has_head c

/-! ### The initial zone -/

/-- **The rule of `insert_to_free_area`.**  What linking a block at the current page
keeps holds at the end, with the current page past the pages inserted. -/
theorem insertLoop_rule {P : Zone → ℤ → Prop}
    (hlink : ∀ z page k, k < maxOrder → P z page → P (z.pushFreeTail k page) (page + 2 ^ k))
    {fuel : ℕ} {z : Zone} {page : ℤ} {num order : ℕ} (hfuel : num + order < fuel)
    (hnum : num < 2 ^ 31) (horder : order < maxOrder) (hP : P z page) :
    P (insertLoop fuel z page num order) (page + num) := by
  induction fuel generalizing z page num order with
  | zero => omega
  | succ fuel ih =>
    unfold insertLoop
    by_cases hge : 2 ^ order ≤ num
    · have hpos : 0 < 2 ^ order := by positivity
      have hadd : page + 2 ^ order + ((num - 2 ^ order : ℕ) : ℤ) = page + num := by
        push_cast [hge]
        ring
      simp only [if_pos hge]
      split
      · rw [← hadd]
        exact ih (by omega) (by omega) horder (hlink z page order horder hP)
      · have hzero : num - 2 ^ order = 0 := by omega
        rw [hzero, Nat.cast_zero, add_zero] at hadd
        rw [← hadd]
        exact hlink z page order horder hP
    · simp only [if_neg hge]
      split
      · rename_i hcont
        have hord : order ≠ 0 := by
          rintro rfl
          omega
        rw [if_pos (by omega)]
        exact ih (by omega) hnum (by omega) hP
      · obtain rfl : num = 0 := by omega
        simpa using hP

/-- `insert_to_free_area` has come from page `lo` to page `cur`. -/
structure Inserted (zone : Zone) (lo : ℤ) (z : Zone) (cur : ℤ) : Prop where
  tiles : Tiles z.freeBlocks lo cur
  le : lo ≤ cur
  nrFree : ∀ k, (z.freeArea k).nrFree = BitVec.ofNat 32 (z.freeArea k).freeList.length
  same : z = { zone with freeArea := z.freeArea }

theorem Inserted.pushFreeTail {zone z : Zone} {lo cur : ℤ} {k : ℕ} (h : Inserted zone lo z cur)
    (hk : k < maxOrder) : Inserted zone lo (z.pushFreeTail k cur) (cur + 2 ^ k) where
  tiles := by
    refine (Tiles.perm ?_).mpr (h.tiles.snoc h.le)
    exact (Zone.freeBlocks_pushFreeTail hk).trans (List.perm_append_singleton _ _).symm
  le := by
    have : (0 : ℤ) < 2 ^ k := by positivity
    have := h.le
    omega
  nrFree j := by
    simp only [Zone.pushFreeTail, Zone.modifyArea]
    split
    · simp only [List.length_append, List.length_singleton]
      rw [h.nrFree j, BitVec.ofNat_add]
      rfl
    · exact h.nrFree j
  same := by
    rw [h.same]
    rfl

/-- A memory region `[addr, addr + size)` in which at least one whole page lies. -/
def HasPage (addr size : ℕ) : Prop :=
  (addr + pageSize - 1) / pageSize * pageSize + pageSize ≤ addr + size

/-- The number of whole pages in the region `[addr, addr + size)`. -/
def wholePages (addr size : ℕ) : ℕ :=
  (addr + size - (addr + pageSize - 1) / pageSize * pageSize) / pageSize

/-- The zone of `n` pages at `a` before `insert_to_free_area` is called. -/
def bareZone (mem : ℤ → Page) (a n : ℕ) : Zone :=
  let managed := n - (n * sizeofPage / pageSize + 1)
  { memmapPages := a
    zoneStartPfn := a / pageSize
    spannedPages := n
    managedPages := managed
    freeArea := fun _ => { freeList := [], nrFree := 0 }
    page := fun b =>
      if 0 ≤ b ∧ b < managed then { flags := 0, index := b.toNat, mapcount := 0, priv := 0 }
      else mem b }

theorem usedPages_le {n : ℕ} (hn : 1 ≤ n) : n * sizeofPage / pageSize + 1 ≤ n := by
  unfold sizeofPage pageSize
  omega

theorem HasPage.wholePages_pos {addr size : ℕ} (h : HasPage addr size) : 1 ≤ wholePages addr size := by
  unfold HasPage at h
  unfold wholePages
  unfold pageSize at *
  omega

/-- `page_alloc_init` on a region that has a page: the pages counted are those of the region, also
when the end of the region wraps around. -/
theorem pageAllocInit_eq (mem : ℤ → Page) {addr size : ℕ} (hne : addr ≠ 0) (haddr : addr < 2 ^ 32)
    (hsize : size < 2 ^ 32) (hpage : HasPage addr size) :
    pageAllocInit mem addr size =
      some (insertToFreeArea
        (bareZone mem ((addr + pageSize - 1) % 2 ^ 32 / pageSize * pageSize) (wholePages addr size))
        ((wholePages addr size * sizeofPage / pageSize + 1 : ℕ) : ℤ)
        (wholePages addr size - (wholePages addr size * sizeofPage / pageSize + 1))) := by
  have hpos := hpage.wholePages_pos
  have hused := usedPages_le hpos
  have hlt : wholePages addr size < 2 ^ 20 := by
    unfold wholePages
    unfold pageSize
    omega
  have hspanned : (size + (2 ^ 32 - ((addr + pageSize - 1) % 2 ^ 32 / pageSize * pageSize
      + (2 ^ 32 - addr)) % 2 ^ 32)) % 2 ^ 32 / pageSize * pageSize / pageSize
      = wholePages addr size := by
    unfold HasPage at hpage
    unfold wholePages
    unfold pageSize at *
    omega
  unfold pageAllocInit
  rw [if_neg hne]
  dsimp only
  rw [hspanned]
  have hmanaged : (wholePages addr size
      + (2 ^ 32 - (wholePages addr size * sizeofPage / pageSize + 1))) % 2 ^ 32
      = wholePages addr size - (wholePages addr size * sizeofPage / pageSize + 1) := by
    generalize wholePages addr size * sizeofPage / pageSize + 1 = used at hused ⊢
    omega
  rw [hmanaged]
  rfl

/-- `insert_to_free_area` links the managed pages of the zone, and changes nothing else. -/
theorem inserted_bareZone (mem : ℤ → Page) (a : ℕ) {n : ℕ} (hn : 1 ≤ n) (hlt : n < 2 ^ 31) :
    Inserted (bareZone mem a n) (n * sizeofPage / pageSize + 1 : ℕ)
      (insertToFreeArea (bareZone mem a n) ((n * sizeofPage / pageSize + 1 : ℕ) : ℤ)
        (n - (n * sizeofPage / pageSize + 1))) n := by
  have hused := usedPages_le hn
  set used := n * sizeofPage / pageSize + 1 with hdef
  have hstart : Inserted (bareZone mem a n) used (bareZone mem a n) used :=
    ⟨tiles_nil _, le_rfl, fun _ => rfl, rfl⟩
  have hins : Inserted (bareZone mem a n) used
      (insertToFreeArea (bareZone mem a n) used (n - used)) (used + (n - used : ℕ)) :=
    insertLoop_rule (P := Inserted (bareZone mem a n) used) (fun _ _ _ hk hP => hP.pushFreeTail hk)
      (by unfold maxOrder; omega) ((Nat.sub_le n used).trans_lt hlt) (by decide) hstart
  have hend : (used : ℤ) + (n - used : ℕ) = n := by omega
  rwa [hend] at hins

/-- What `page_alloc_init` sets up on a region that has a page. -/
structure InitialZone (mem : ℤ → Page) (z : Zone) : Prop where
  tiles : Tiles z.freeBlocks z.usedPages z.spannedPages
  nrFree : ∀ k, (z.freeArea k).nrFree = BitVec.ofNat 32 (z.freeArea k).freeList.length
  page : ∀ b, z.page b = if 0 ≤ b ∧ b < z.managedPages then
    { flags := 0, index := b.toNat, mapcount := 0, priv := 0 } else mem b
  managed : z.managedPages + z.usedPages = z.spannedPages
  aligned : z.memmapPages = z.zoneStartPfn * pageSize
  nonzero : 0 < z.memmapPages
  fits : z.memmapPages + z.spannedPages * pageSize ≤ 2 ^ 32

theorem initialZone_pageAllocInit {mem : ℤ → Page} {addr size : ℕ} {z : Zone}
    (h : pageAllocInit mem addr size = some z) (hfit : addr + size ≤ 2 ^ 32)
    (hpage : HasPage addr size) : InitialZone mem z := by
  have hne : addr ≠ 0 := by
    rintro rfl
    cases h
  have hpos := hpage.wholePages_pos
  have hused := usedPages_le hpos
  -- no step of the address arithmetic wraps around
  have haddr : (addr + pageSize - 1) % 2 ^ 32 = addr + pageSize - 1 := by
    unfold HasPage at hpage
    unfold pageSize at *
    omega
  have hsize : size < 2 ^ 32 := by omega
  have hn : wholePages addr size < 2 ^ 31 := by
    unfold wholePages
    unfold pageSize
    omega
  rw [pageAllocInit_eq mem hne (by unfold HasPage pageSize at hpage; omega) hsize hpage, haddr] at h
  set a := (addr + pageSize - 1) / pageSize * pageSize with ha
  have hins := inserted_bareZone mem a hpos hn
  rw [Option.some.inj h] at hins
  rw [hins.same]
  refine ⟨?_, hins.nrFree, fun b => rfl, ?_, ?_, ?_, ?_⟩
  · have := hins.tiles
    rw [hins.same] at this
    exact this
  · show wholePages addr size - _ + _ = wholePages addr size
    exact Nat.sub_add_cancel hused
  · show a = a / pageSize * pageSize
    rw [ha, Nat.mul_div_cancel _ (by decide : 0 < pageSize)]
  · show 0 < a
    rw [ha]
    unfold pageSize
    omega
  · show a + wholePages addr size * pageSize ≤ 2 ^ 32
    rw [ha]
    unfold wholePages
    unfold pageSize
    omega

/-! ### Runs -/

/-- The zone and the blocks handed out and not yet given back. -/
structure PaState where
  zone : Zone
  live : List Block

/-- A call of `alloc_pages(size)` or of `free_pages(addr)`. -/
inductive PaEvent
  | alloc (size : ℕ)
  | free (addr : ℕ)
  deriving DecidableEq, Repr

/-- One call.  A block handed out has the order its descriptor records; only the
address of such a block may be given back. -/
def paStep (s : PaState) : PaEvent → Option PaState
  | .alloc size =>
    if 1 ≤ size ∧ size < 2 ^ 32 then
      match allocPages s.zone size with
      | none => some s
      | some (page, zone) => some { zone := zone, live := (page, (zone.page page).priv) :: s.live }
    else none
  | .free addr =>
    match s.live.find? fun b => pageAddress s.zone b.1 = addr with
    | none => none
    | some b => some { zone := freePages s.zone addr, live := s.live.erase b }

theorem paStep_alloc {s s' : PaState} {size : ℕ} (h : paStep s (.alloc size) = some s') :
    s' = s ∨ ∃ k p,
      rmqueueFind s.zone (maxOrder - getOrder size) (getOrder size) = some (p, k) ∧
      getOrder size ≤ k ∧ k < maxOrder ∧ p ∈ (s.zone.freeArea k).freeList ∧
      s'.zone = rmqueueTake s.zone (getOrder size) k p ∧
      s'.live = (p, (s'.zone.page p).priv) :: s.live := by
  simp only [paStep] at h
  split at h
  · split at h
    · exact Or.inl (by simpa using h.symm)
    · rename_i p z hz
      obtain rfl := Option.some.inj h
      obtain ⟨k, hfind, hle, hk, hp, rfl⟩ := allocPages_eq_some hz
      exact Or.inr ⟨k, p, hfind, hle, hk, hp, rfl, rfl⟩
  · cases h

theorem paStep_free {s s' : PaState} {addr : ℕ} (h : paStep s (.free addr) = some s') :
    ∃ b ∈ s.live, pageAddress s.zone b.1 = addr ∧
      s' = { zone := freePages s.zone addr, live := s.live.erase b } := by
  simp only [paStep] at h
  split at h
  · cases h
  · rename_i b hb
    refine ⟨b, List.mem_of_find?_eq_some hb, ?_, by simpa using h.symm⟩
    simpa using List.find?_some hb

/-- The invariant of the runs.  The marks are known at the positions in `R`. -/
structure PaInv (R : ℤ → Prop) (s : PaState) : Prop where
  buddy : BuddyInv R s.zone.usedPages s.zone.spannedPages s.zone s.live
  live : ∀ b ∈ s.live, b.2 < maxOrder ∧ (s.zone.page b.1).priv = b.2
  index : ∀ b : ℤ, 0 ≤ b → b < s.zone.spannedPages → ((s.zone.page b).index : ℤ) = b
  aligned : s.zone.memmapPages = s.zone.zoneStartPfn * pageSize
  nonzero : 0 < s.zone.memmapPages
  fits : s.zone.memmapPages + s.zone.spannedPages * pageSize ≤ 2 ^ 32

namespace PaInv

variable {R : ℤ → Prop} {s s' : PaState}

theorem mem_bounds (h : PaInv R s) {b : Block} (hb : b ∈ s.zone.freeBlocks ++ s.live) :
    0 ≤ b.1 ∧ b.1 < s.zone.spannedPages := by
  have hb' := h.buddy.tiles.mem_range hb (Block.has_head b)
  omega

/-- Giving back an outstanding block reaches its own descriptor. -/
theorem freePages_eq (h : PaInv R s) {b : Block} (hb : b ∈ s.live) :
    freePages s.zone (pageAddress s.zone b.1) = freeOnePage s.zone b.1 b.2 := by
  obtain ⟨hpos, hlt⟩ := h.mem_bounds (List.mem_append_right _ hb)
  have hpage := virtToPage_pageAddress h.aligned h.fits hpos hlt
  have hne : pageAddress s.zone b.1 ≠ 0 := by
    intro h0
    rw [h0] at hpage
    have hnz := h.nonzero
    have hal := h.aligned
    unfold virtToPage at hpage
    unfold pageSize at *
    simp only [Nat.zero_div] at hpage
    rw [if_pos (by omega)] at hpage
    cases hpage
  unfold freePages
  rw [if_neg hne, hpage]
  simp only [(h.live b hb).2]

/-- What the invariant says about the descriptors is kept when the zone stays where it is,
the indices do not change, and the outstanding blocks keep their orders. -/
theorem of_frame {keep : ℤ → Prop} {live' : List Block} {z' : Zone} (h : PaInv R s)
    (hframe : Zone.Frame keep s.zone z')
    (hbuddy : BuddyInv R s.zone.usedPages s.zone.spannedPages z' live')
    (hlive : ∀ b ∈ live', b.2 < maxOrder ∧ (z'.page b.1).priv = b.2) :
    PaInv R { zone := z', live := live' } := by
  have hused : z'.usedPages = s.zone.usedPages := by unfold Zone.usedPages; rw [hframe.spannedPages]
  refine ⟨?_, hlive, ?_, ?_, ?_, ?_⟩
  · show BuddyInv _ (z'.usedPages : ℤ) (z'.spannedPages : ℤ) z' live'
    rw [hused, hframe.spannedPages]
    exact hbuddy
  · intro b h₀ h₁
    show ((z'.page b).index : ℤ) = b
    rw [hframe.index b]
    exact h.index b h₀ (hframe.spannedPages ▸ h₁)
  · show z'.memmapPages = z'.zoneStartPfn * pageSize
    rw [hframe.memmapPages, hframe.zoneStartPfn]
    exact h.aligned
  · show 0 < z'.memmapPages
    rw [hframe.memmapPages]
    exact h.nonzero
  · show z'.memmapPages + z'.spannedPages * pageSize ≤ 2 ^ 32
    rw [hframe.memmapPages, hframe.spannedPages]
    exact h.fits

theorem alloc (h : PaInv R s) {size : ℕ} (hs : paStep s (.alloc size) = some s') :
    PaInv R s' ∧ s'.zone.spannedPages = s.zone.spannedPages := by
  obtain rfl | ⟨k, p, -, hle, hk, hp, hz, hlive⟩ := paStep_alloc hs
  · exact ⟨h, rfl⟩
  · obtain ⟨z', live'⟩ := s'
    obtain ⟨hinv, hpage, hframe⟩ := buddyInv_rmqueueTake h.buddy hle hk hp
    simp only at hz hlive
    subst hz hlive
    rw [hpage]
    refine ⟨h.of_frame hframe hinv fun b hb => ?_, hframe.spannedPages⟩
    rcases List.mem_cons.mp hb with rfl | hb
    · exact ⟨hle.trans_lt hk, by rw [hpage]⟩
    · -- an outstanding block does not lie in the free block that was split
      have hkeep : ¬ Block.Has (p, k) b.1 := by
        have ht := (Tiles.perm List.perm_middle).mp (h.buddy.take hk hp).tiles
        exact fun hhas =>
          ht.disjoint_of_cons (List.mem_append_right _ hb) hhas (Block.has_head b)
      rw [hframe.page _ hkeep]
      exact h.live b hb

theorem free (h : PaInv R s) (hR : ∀ b : ℤ, 0 ≤ b → b ≤ s.zone.spannedPages → R b) {addr : ℕ}
    (hs : paStep s (.free addr) = some s') :
    PaInv R s' ∧ s'.zone.spannedPages = s.zone.spannedPages := by
  obtain ⟨b, hb, rfl, rfl⟩ := paStep_free hs
  rw [h.freePages_eq hb]
  obtain ⟨hpos, hlt⟩ := h.mem_bounds (List.mem_append_right _ hb)
  have hperm := List.perm_cons_erase hb
  obtain ⟨hinv, hframe⟩ := buddyInv_freeOnePage (h.buddy.perm hperm) (h.live b hb).1 fun n hn => by
    refine hR _ ?_ hn.2
    rw [h.index b.1 hpos hlt]
    omega
  refine ⟨h.of_frame hframe hinv fun c hc => ?_, hframe.spannedPages⟩
  rw [hframe.page _ ((h.buddy.perm hperm).held_apart hc)]
  exact h.live c (List.mem_of_mem_erase hc)

/-- **The step lemma.** -/
theorem step (h : PaInv R s) (hR : ∀ b : ℤ, 0 ≤ b → b ≤ s.zone.spannedPages → R b) {e : PaEvent}
    (hs : paStep s e = some s') : PaInv R s' ∧ s'.zone.spannedPages = s.zone.spannedPages := by
  cases e with
  | alloc size => exact h.alloc hs
  | free addr => exact h.free hR hs

/-- The marks are known where they were, and where no descriptor looks free. -/
theorem widen {R' : ℤ → Prop} (h : PaInv R s)
    (hR : ∀ b, R' b → ¬ R b → ¬ (s.zone.page b).LooksFree) : PaInv R' s :=
  { h with buddy := h.buddy.widen hR }

/-- The memory around the descriptors of the zone does not matter. -/
theorem remap (h : PaInv R s) {m : ℤ → Page} (hR : ∀ b, R b → 0 ≤ b ∧ b < s.zone.spannedPages) :
    PaInv R { s with zone := s.zone.remap m } where
  buddy := h.buddy.remap hR
  live b hb := by
    have hrange := h.mem_bounds (List.mem_append_right _ hb)
    show b.2 < maxOrder ∧ ((s.zone.remap m).page b.1).priv = b.2
    rw [Zone.remap_of_mem hrange]
    exact h.live b hb
  index b h₀ h₁ := by
    have hlt : b < s.zone.spannedPages := h₁
    show (((s.zone.remap m).page b).index : ℤ) = b
    rw [Zone.remap_of_mem ⟨h₀, hlt⟩]
    exact h.index b h₀ hlt
  aligned := h.aligned
  nonzero := h.nonzero
  fits := h.fits

end PaInv

/-- What is promised of a state: the free and the outstanding blocks tile the pages
`[used_pages, spanned_pages)`, `nr_free` counts each list, and `alloc_pages` returns
a block of the least sufficient order unless there is none. -/
structure Partitioned (s : PaState) : Prop where
  tiles : Tiles (s.zone.freeBlocks ++ s.live) s.zone.usedPages s.zone.spannedPages
  nrFree : ∀ k < maxOrder, (s.zone.freeArea k).nrFree.toNat = (s.zone.freeArea k).freeList.length
  order : ∀ size page zone, 1 ≤ size → size < 2 ^ 32 → allocPages s.zone size = some (page, zone) →
    IsLeast {k | size ≤ pageSize * 2 ^ k} (zone.page page).priv
  fails : ∀ size k, 1 ≤ size → size < 2 ^ 32 → allocPages s.zone size = none →
    IsLeast {k | size ≤ pageSize * 2 ^ k} k → maxOrder ≤ k ∨ ∀ b ∈ s.zone.freeBlocks, b.2 < k

/-- A list of the zone has at most as many entries as the zone has pages. -/
theorem PaInv.length_le {R : ℤ → Prop} {s : PaState} (h : PaInv R s) {k : ℕ} (hk : k < maxOrder) :
    (s.zone.freeArea k).freeList.length ≤ s.zone.spannedPages := by
  have hsub : (((s.zone.freeArea k).freeList.map fun p => (p, k)) : List Block).Sublist
      (s.zone.freeBlocks ++ s.live) := by
    refine List.Sublist.trans ?_ (List.sublist_append_left _ _)
    unfold Zone.freeBlocks
    rw [List.flatMap_def]
    exact List.sublist_flatten_of_mem (List.mem_map.mpr ⟨k, List.mem_range.mpr hk, rfl⟩)
  have hlen := hsub.length_le.trans h.buddy.tiles.length_le
  rw [List.length_map] at hlen
  omega

theorem PaInv.partitioned {R : ℤ → Prop} {s : PaState} (h : PaInv R s) : Partitioned s where
  tiles := h.buddy.tiles
  nrFree k hk := by
    have hlen := h.length_le hk
    have hfit := h.fits
    unfold pageSize at hfit
    rw [h.buddy.nrFree k, BitVec.toNat_ofNat]
    exact Nat.mod_eq_of_lt (by omega)
  order size page zone hpos hlt ha := by
    obtain ⟨k, -, hle, hk, hp, rfl⟩ := allocPages_eq_some ha
    rw [(buddyInv_rmqueueTake h.buddy hle hk hp).2.1]
    exact isLeast_getOrder hpos hlt
  fails size k hpos hlt ha hleast := by
    obtain rfl := hleast.unique (isLeast_getOrder hpos hlt)
    exact Or.inr (allocPages_eq_none.mp ha)

theorem InitialZone.page_of_ge {mem : ℤ → Page} {z : Zone} (h : InitialZone mem z) {i : ℕ}
    (hi : z.managedPages ≤ i) : z.page i = mem i := by
  rw [h.page, if_neg (by omega)]

/-- Right after `page_alloc_init` no descriptor of the zone looks free, unless one was left
so in the memory the descriptors are laid over. -/
theorem InitialZone.not_looksFree {mem : ℤ → Page} {z : Zone} (h : InitialZone mem z)
    (hmem : ∀ i : ℕ, z.managedPages ≤ i → i < z.spannedPages → ¬ (mem i).LooksFree) {b : ℤ}
    (hb : z.Within b) : ¬ (z.page b).LooksFree := by
  obtain ⟨i, rfl⟩ := Int.eq_ofNat_of_zero_le hb.1
  rw [h.page]
  split
  · exact fun hl => absurd hl.1 (by simp [pageBuddyMapcountValue])
  · exact hmem i (by omega) (by exact_mod_cast hb.2)

theorem paInv_init {mem : ℤ → Page} {z : Zone} (h : InitialZone mem z)
    (hindex : ∀ i : ℕ, i < z.spannedPages → (z.page i).index = i)
    {R : ℤ → Prop} (hfree : ∀ b, R b → ¬ (z.page b).LooksFree) :
    PaInv R { zone := z, live := [] } where
  buddy :=
    { tiles := by simpa using h.tiles
      nrFree := h.nrFree
      marks := fun b hb hlooks => absurd hlooks (hfree b hb) }
  live := by simp
  index b hb hlt := by
    obtain ⟨i, rfl⟩ := Int.eq_ofNat_of_zero_le hb
    rw [hindex i (by simpa using hlt)]
  aligned := h.aligned
  nonzero := h.nonzero
  fits := h.fits

/-- **The partition of the zone.**  On a region that has a page and holds no stale
descriptor that looks like a free buddy, every run of `alloc_pages` and `free_pages`
keeps the zone partitioned. -/
theorem partitioned_runs {mem : ℤ → Page} {addr size : ℕ} {z : Zone}
    (hz : pageAllocInit mem addr size = some z) (hfit : addr + size ≤ 2 ^ 32)
    (hindex : ∀ i : ℕ, i < z.spannedPages → (z.page i).index = i)
    (hbeyond : ∀ i : ℕ, z.spannedPages ≤ i → ¬ (z.page i).LooksFree)
    (hpage : HasPage addr size)
    (hstale : ∀ i : ℕ, z.managedPages ≤ i → i < z.spannedPages → ¬ (mem i).LooksFree)
    (es : List PaEvent) :
    Run.Always paStep Partitioned { zone := z, live := [] } es := by
  have hzone := initialZone_pageAllocInit hz hfit hpage
  have hfree : ∀ b, 0 ≤ b → ¬ (z.page b).LooksFree := by
    intro b hb
    obtain ⟨i, rfl⟩ := Int.eq_ofNat_of_zero_le hb
    rcases Nat.lt_or_ge i z.spannedPages with hlt | hge
    · exact hzone.not_looksFree hstale ⟨hb, by exact_mod_cast hlt⟩
    · exact hbeyond i hge
  have hinit := paInv_init hzone hindex hfree
  have hrun : Run.Always paStep (PaInv (0 ≤ ·)) { zone := z, live := [] } es :=
    Run.always_of_guarded (fun _ _ _ hs _ hstep => (hs.step (fun _ hb _ => hb) hstep).1) hinit
      (Run.guarded_of_forall (C := fun _ _ => True) (fun _ _ => trivial) _ es)
  exact hrun.mono fun _ hs => hs.partitioned

/-- Memory whose descriptors hold their positions and nothing else. -/
def blankMem : ℤ → Page := fun b => { flags := 0, index := b.toNat, mapcount := 0, priv := 0 }

/-- `blankMem` except that the word of page 340 that becomes `_mapcount` holds the
mark of a free buddy. -/
def staleMem : ℤ → Page := fun b =>
  if b = 340 then { blankMem b with mapcount := pageBuddyMapcountValue } else blankMem b

theorem InitialZone.index_eq {mem : ℤ → Page} {z : Zone} (h : InitialZone mem z)
    (hmem : ∀ i : ℕ, (mem i).index = i) (i : ℕ) : (z.page i).index = i := by
  rw [h.page]
  split
  · simp
  · exact hmem i

theorem blankMem_not_looksFree (b : ℤ) : ¬ (blankMem b).LooksFree :=
  fun h => absurd h.1 (by simp [blankMem, pageBuddyMapcountValue])

theorem partitioned_runs_five_pages :
    ∃ z, pageAllocInit blankMem 4096 (5 * 4096) = some z ∧
      Run.Always paStep Partitioned { zone := z, live := [] }
        [.alloc 4096, .alloc 5000, .free 8192, .alloc 4096] := by
  obtain ⟨z, hz⟩ := Option.isSome_iff_exists.mp
    (by decide : (pageAllocInit blankMem 4096 (5 * 4096)).isSome)
  have hfit : 4096 + 5 * 4096 ≤ 2 ^ 32 := by decide
  have hpage : HasPage 4096 (5 * 4096) := by unfold HasPage; decide
  have hinit := initialZone_pageAllocInit hz hfit hpage
  refine ⟨z, hz, partitioned_runs hz hfit (fun i _ => hinit.index_eq (fun _ => rfl) i)
    (fun i hi => ?_) hpage (fun i _ _ => blankMem_not_looksFree i) _⟩
  rw [hinit.page_of_ge (by have := hinit.managed; omega)]
  exact blankMem_not_looksFree i

/-- A zone of 342 pages whose stale descriptor 340 looks free: giving back page 341
merges it with page 340, which lies in the middle of the free block `[339, 341)`. -/
theorem partition_lost_to_stale_page :
    ∃ z, pageAllocInit staleMem 4096 (342 * 4096) = some z ∧
      (∀ i : ℕ, i < z.spannedPages → (z.page i).index = i) ∧
      (∀ i : ℕ, z.spannedPages ≤ i → ¬ (z.page i).LooksFree) ∧
      ¬ Run.Always paStep Partitioned { zone := z, live := [] }
        [.alloc 4096, .free (342 * 4096)] := by
  obtain ⟨z, hz⟩ := Option.isSome_iff_exists.mp
    (by decide : (pageAllocInit staleMem 4096 (342 * 4096)).isSome)
  have hinit := initialZone_pageAllocInit hz (by decide) (by unfold HasPage; decide)
  have hspan : z.spannedPages = 342 := by
    have : (pageAllocInit staleMem 4096 (342 * 4096)).map Zone.spannedPages = some 342 := by decide
    simpa [hz] using this
  have htwice : (Run.exec paStep { zone := z, live := [] } [.alloc 4096, .free (342 * 4096)]).map
      (fun s => cover (s.zone.freeBlocks ++ s.live) 340) = some 2 := by
    have : (pageAllocInit staleMem 4096 (342 * 4096)).bind (fun z =>
        (Run.exec paStep { zone := z, live := [] } [.alloc 4096, .free (342 * 4096)]).map
          fun s => cover (s.zone.freeBlocks ++ s.live) 340) = some 2 := by decide +kernel
    rwa [hz] at this
  refine ⟨z, hz, fun i _ => hinit.index_eq (fun j => ?_) i, fun i hi => ?_, fun hrun => ?_⟩
  · unfold staleMem
    split <;> rfl
  · have hne : (i : ℤ) ≠ 340 := by omega
    rw [hinit.page_of_ge (by have := hinit.managed; omega), staleMem, if_neg hne]
    exact blankMem_not_looksFree i
  · obtain ⟨s, hs, hcover⟩ := Option.map_eq_some_iff.mp htwice
    have hle := (hrun.exec hs).tiles.cover_le_one 340
    omega

end YakOS
