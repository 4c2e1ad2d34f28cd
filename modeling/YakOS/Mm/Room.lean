import YakOS.Mm.Extents

/-!
# The room in a block

`kmalloc` adds `SLOB_UNIT + align - 1` to the size and rounds the sum down to a
multiple of eight.  That makes room for the two bytes of the header; but the pointer
returned for a small block lies eight bytes behind the header, so that the block ends
before its last bytes unless the size leaves the remainder 0 or 7.  The sum is
computed modulo `2 ^ 32`, and wraps around for the last nine sizes.

## Main definitions

* `extentEnd` — where the extent of the block at a pointer ends.
* `Fits` — `kmalloc` returns `NULL` or a pointer with room for the bytes asked for.
* `RoomFor` — the sizes that have room.
* `HeapReachable` — the heaps of the runs of `kmalloc` and `kfree`.

## Main results

* `slobAlloc_header` — a small block records its size, in every heap.
* `kmalloc_end` — where the block ends, in every heap.
* `kmalloc_room_iff` — **there is room in every reachable heap exactly for the sizes of
  `RoomFor`.**
-/

namespace YakOS

/-- The end of the extent reserved for the block at `p` that `kmalloc(size)` has returned: that
of the units recorded in its header, or that of its pages. -/
def extentEnd (h : Heap) (size p : ℕ) : ℕ :=
  if kmallocSize size < pageSize then
    p - archSlobMinalign + slobUnit * (slobUnits h.units (p - archSlobMinalign)).toNat
  else p + 2 ^ getOrder (kmallocSize size) * pageSize

/-- `kmalloc(size)` returns `NULL` or a pointer from which on `size` bytes lie in the extent of
the block. -/
def Fits (h : Heap) (size : ℕ) : Prop :=
  ∀ p, (kmalloc h size).1 = some p → p + size ≤ extentEnd (kmalloc h size).2 size p

/-- The sizes for which `kmalloc` reserves enough: those that get pages, and those for which the
bytes lost in front of the pointer are made up by the rounding. -/
def RoomFor (size : ℕ) : Prop :=
  size ≠ 2 ^ 32 - 1 ∧ (4087 ≤ size ∨ size % 8 = 0 ∨ size % 8 = 7)

/-- A heap of a run of `kmalloc` and `kfree` on a zone that was set up in a region with a page. -/
def HeapReachable (h : Heap) : Prop :=
  ∃ (mem : ℤ → Page) (addr size : ℕ) (z : Zone) (cells : ℕ → ℤ) (es : List KmEvent) (s : KmState),
    addr < 2 ^ 32 ∧ size < 2 ^ 32 ∧ HasPage addr size ∧ pageAllocInit mem addr size = some z ∧
    Run.exec kmStep (kmallocInit z cells) es = some s ∧ s.heap = h

/-! ### The header of a small block -/

section Header

variable {h h' : Heap} {size align r : ℕ}

theorem slobTake_header {sp : ℤ} {units : ℤ} (hu : 1 < units) (prev : Option ℕ) (cur : ℕ)
    (avail : ℤ) : (slobTake h sp units prev cur avail).units cur = units :=
  setSlob_self _ hu _

/-- The pointer lies `align` bytes behind the cell that records the size. -/
theorem slobPageAllocLoop_header {sp : ℤ} {units : ℤ} (hu : 1 < units) {fuel : ℕ}
    {prev : Option ℕ} {cur : ℕ}
    (hr : slobPageAllocLoop h sp units align fuel prev cur = some (r, h')) :
    ∃ a, r = a + align ∧ h'.units a = units := by
  induction fuel generalizing prev cur with
  | zero => cases hr
  | succ fuel ih =>
    unfold slobPageAllocLoop at hr
    dsimp only at hr
    generalize (if align = 0 then (0 : ℤ)
      else (((cur + align - 1) / align * align : ℕ) - (cur : ℤ)) / slobUnit) = delta at hr
    split at hr
    · split at hr
      · obtain ⟨rfl, rfl⟩ := Prod.mk.inj (Option.some.inj hr)
        exact ⟨cur, rfl, slobTake_header hu _ _ _⟩
      · obtain ⟨rfl, rfl⟩ := Prod.mk.inj (Option.some.inj hr)
        exact ⟨_, rfl, slobTake_header hu _ _ _⟩
    · split at hr
      · cases hr
      · exact ih hr

theorem slobPageAlloc_header {sp : ℤ} (hu : 1 < slobUnitsOf size)
    (hr : slobPageAlloc h sp size align = some (r, h')) :
    ∃ a, r = a + align ∧ h'.units a = slobUnitsOf size :=
  slobPageAllocLoop_header (by exact_mod_cast hu) hr

theorem slobScan_header {c : SlobClass} (hu : 1 < slobUnitsOf size) {before after : List ℤ}
    (hr : slobScan h c size align before after = some (r, h')) :
    ∃ a, r = a + align ∧ h'.units a = slobUnitsOf size := by
  induction after generalizing before with
  | nil => cases hr
  | cons sp after ih =>
    unfold slobScan at hr
    split at hr
    · exact ih hr
    · split at hr
      · exact ih hr
      · rename_i halloc
        obtain ⟨a, ha, hunits⟩ := slobPageAlloc_header hu halloc
        obtain ⟨rfl, rfl⟩ := Prod.mk.inj (Option.some.inj hr)
        exact ⟨a, ha, hunits⟩

theorem slobNewPage_header (hu : 1 < slobUnitsOf size)
    (hr : slobNewPage h size align = (some r, h')) :
    ∃ a, r = a + align ∧ h'.units a = slobUnitsOf size := by
  unfold slobNewPage at hr
  split at hr
  · cases hr
  · split at hr
    · cases hr
    · dsimp only at hr
      split at hr
      · cases hr
      · rename_i halloc
        obtain ⟨hsome, rfl⟩ := Prod.mk.inj hr
        obtain rfl := Option.some.inj hsome
        exact slobPageAlloc_header hu halloc

/-- `slob_alloc` returns a pointer behind a header that records the units, in every heap. -/
theorem slobAlloc_header (hu : 1 < slobUnitsOf size) (hr : slobAlloc h size align = (some r, h')) :
    ∃ a, r = a + align ∧ h'.units a = slobUnitsOf size := by
  unfold slobAlloc at hr
  split at hr
  · rename_i hscan
    obtain ⟨hsome, rfl⟩ := Prod.mk.inj hr
    obtain rfl := Option.some.inj hsome
    exact slobScan_header hu hscan
  · exact slobNewPage_header hu hr

end Header

/-! ### Where the block ends -/

/-- The sum is a multiple of eight, and either wraps around or is more than the size. -/
theorem kmallocSize_cases {size : ℕ} (hsize : size < 2 ^ 32) :
    kmallocSize size % 8 = 0 ∧
      (size + 9 < 2 ^ 32 ∧ kmallocSize size = (size + 9) / 8 * 8 ∨
        size + 10 = 2 ^ 32 + 9 ∧ kmallocSize size = 8 ∨
        2 ^ 32 ≤ size + 9 ∧ size ≠ 2 ^ 32 - 1 ∧ kmallocSize size = 0) := by
  unfold kmallocSize slobUnit archSlobMinalign
  omega

/-- Where a block returned by `kmalloc` ends. -/
theorem kmalloc_end {h : Heap} {size p : ℕ} (hp : (kmalloc h size).1 = some p) :
    extentEnd (kmalloc h size).2 size p =
      if kmallocSize size < pageSize then p - archSlobMinalign + kmallocSize size
      else p + 2 ^ getOrder (kmallocSize size) * pageSize := by
  have hr : kmalloc h size = (some p, (kmalloc h size).2) := Prod.ext hp rfl
  unfold extentEnd
  split
  · rename_i hsmall
    obtain ⟨hnone, -⟩ | ⟨-, h₀, ha⟩ | ⟨hlarge, -⟩ := kmalloc_cases hr
    · cases hnone
    · obtain ⟨hpos, h4⟩ := kmallocSize_units h₀
      obtain ⟨a, rfl, hunits⟩ := slobAlloc_header (by omega) ha
      rw [Nat.add_sub_cancel, slobUnits_of_eq _ hunits hpos, Int.toNat_natCast]
      have h8 : kmallocSize size % 8 = 0 := by
        unfold kmallocSize archSlobMinalign
        omega
      unfold slobUnitsOf slobUnit
      omega
    · exact absurd hsmall hlarge
  · rfl

/-- A block returned by `kmalloc` has room exactly for the sizes of `RoomFor`, in every heap. -/
theorem kmalloc_end_iff {h : Heap} {size p : ℕ} (hsize : size < 2 ^ 32)
    (hp : (kmalloc h size).1 = some p) :
    p + size ≤ extentEnd (kmalloc h size).2 size p ↔ RoomFor size := by
  have hr : kmalloc h size = (some p, (kmalloc h size).2) := Prod.ext hp rfl
  rw [kmalloc_end hp]
  obtain ⟨h8, hcases⟩ := kmallocSize_cases hsize
  unfold RoomFor
  obtain ⟨hnone, -⟩ | ⟨hsmall, h₀, ha⟩ | ⟨hlarge, -⟩ := kmalloc_cases hr
  · cases hnone
  · obtain ⟨hpos, h4⟩ := kmallocSize_units h₀
    obtain ⟨a, rfl, -⟩ := slobAlloc_header (by omega) ha
    rw [if_pos hsmall]
    unfold archSlobMinalign pageSize at *
    omega
  · rw [if_neg hlarge]
    unfold pageSize at hlarge
    have hnowrap : size + 9 < 2 ^ 32 ∧ kmallocSize size = (size + 9) / 8 * 8 := by omega
    have hle : kmallocSize size ≤ pageSize * 2 ^ getOrder (kmallocSize size) :=
      (isLeast_getOrder (by omega) (by omega)).1
    rw [Nat.mul_comm] at hle
    refine iff_of_true ?_ ?_
    · omega
    · omega

/-! ### A heap in which there is a block for every size -/

/-- A new slob page has room for every small block. -/
theorem slobPageAlloc_adoptHeap {h : Heap} {p : ℤ} {c : SlobClass} {size : ℕ}
    (haddr : pageAddress h.zone p % pageSize = 0) (hsize : size ≤ pageSize) :
    slobPageAlloc (adoptHeap h p c) p size archSlobMinalign ≠ none := by
  have heven : (pageAddress h.zone p + pageSize) % 2 = 0 := by
    unfold pageSize at *
    omega
  have hchain : Chain (adoptHeap h p c).units ((adoptHeap h p c).zone.page p).index
      [(pageAddress h.zone p, slobUnitsOf pageSize)] (pageAddress h.zone p + pageSize) := by
    unfold adoptHeap
    rw [Zone.modifyPage_self]
    exact chain_singleton h.units (by decide) heven
  rcases slobPageAlloc_eq size (fragsWf_page haddr) hchain (List.cons_ne_nil _ _) with
    ⟨pre, a, n, post, -, -, -, heq⟩ | ⟨hall, -⟩
  · rw [heq]
    exact Option.some_ne_none _
  · have := hall _ List.mem_cons_self
    unfold slobUnitsOf slobUnit pageSize at *
    omega

/-- The heap after `kmalloc_init` on five pages at `0x1000`. -/
theorem kmalloc_five_pages {z : Zone} (hz : pageAllocInit blankMem 4096 (5 * 4096) = some z)
    {size : ℕ} (h₀ : size ≠ 0) (hk₀ : kmallocSize size ≠ 0) (hk : kmallocSize size < pageSize) :
    (kmalloc (kmallocInit z fun _ => 0).heap size).1 ≠ none := by
  have hpage : ∃ p z', allocPages z (pageSize - 1) = some (p, z') ∧
      virtToPage z' (pageAddress z' p) = some p ∧ pageAddress z' p % pageSize = 0 := by
    have : ((pageAllocInit blankMem 4096 (5 * 4096)).all fun z =>
        (allocPages z (pageSize - 1)).any fun r =>
          decide (virtToPage r.2 (pageAddress r.2 r.1) = some r.1 ∧
            pageAddress r.2 r.1 % pageSize = 0)) = true := by decide
    rw [hz, Option.all_some, Option.any_eq_true] at this
    obtain ⟨⟨p, z'⟩, ha, hdec⟩ := this
    exact ⟨p, z', ha, of_decide_eq_true hdec⟩
  obtain ⟨p, z', ha, hvirt, haddr⟩ := hpage
  unfold kmalloc
  rw [if_neg h₀, if_pos hk, if_neg hk₀]
  unfold slobAlloc
  have hscan : slobScan (kmallocInit z fun _ => 0).heap (slobClass (kmallocSize size))
      (kmallocSize size) archSlobMinalign []
      ((kmallocInit z fun _ => 0).heap.freeSlob (slobClass (kmallocSize size))) = none := rfl
  rw [hscan, slobNewPage_eq (h := (kmallocInit z fun _ => 0).heap) ha hvirt]
  obtain ⟨r, hr⟩ := Option.ne_none_iff_exists'.mp
    (slobPageAlloc_adoptHeap (h := { (kmallocInit z fun _ => 0).heap with zone := z' })
      (c := slobClass (kmallocSize size)) haddr hk.le)
  simp only [hr]
  exact Option.some_ne_none _

/-- **The room in a block.**  In every reachable heap `kmalloc(size)` returns `NULL` or a pointer
with room for `size` bytes exactly for the sizes of `RoomFor`; and for any other size no block
it returns, in any heap, has room. -/
theorem kmalloc_room_iff {size : ℕ} (hsize : size < 2 ^ 32) :
    ((∀ h, HeapReachable h → Fits h size) ↔ RoomFor size) ∧
    ∀ h p, (kmalloc h size).1 = some p →
      (p + size ≤ extentEnd (kmalloc h size).2 size p ↔ RoomFor size) := by
  refine ⟨⟨fun hall => ?_, fun hroom h _ p hp => (kmalloc_end_iff hsize hp).mpr hroom⟩,
    fun h p hp => kmalloc_end_iff hsize hp⟩
  by_contra hnot
  obtain ⟨h8, hcases⟩ := kmallocSize_cases hsize
  obtain ⟨z, hz⟩ := Option.isSome_iff_exists.mp
    (by decide : (pageAllocInit blankMem 4096 (5 * 4096)).isSome)
  have hreach : HeapReachable (kmallocInit z fun _ => 0).heap :=
    ⟨blankMem, 4096, 5 * 4096, z, fun _ => 0, [], kmallocInit z fun _ => 0, by decide, by decide,
      by unfold HasPage; decide, hz, rfl, rfl⟩
  have hsmall : size ≠ 0 ∧ kmallocSize size ≠ 0 ∧ kmallocSize size < pageSize := by
    unfold RoomFor at hnot
    unfold pageSize
    omega
  obtain ⟨p, hp⟩ := Option.ne_none_iff_exists'.mp
    (kmalloc_five_pages hz hsmall.1 hsmall.2.1 hsmall.2.2)
  exact hnot ((kmalloc_end_iff hsize hp).mp (hall _ hreach p hp))

theorem kmalloc_room_iff_eight : RoomFor 8 ∧ ∀ h, HeapReachable h → Fits h 8 := by
  have hroom : RoomFor 8 := by unfold RoomFor; decide
  exact ⟨hroom, (kmalloc_room_iff (by decide)).1.mpr hroom⟩

/-- `kmalloc(1)` reserves eight bytes from the header on, and returns the pointer behind them. -/
theorem kmalloc_one_no_room :
    ¬ ∀ (size : ℕ) (h : Heap), size < 2 ^ 32 → HeapReachable h → Fits h size := by
  intro hall
  obtain ⟨z, hz⟩ := Option.isSome_iff_exists.mp
    (by decide : (pageAllocInit blankMem 4096 (5 * 4096)).isSome)
  have hfits := hall 1 (kmallocInit z fun _ => 0).heap (by decide)
    ⟨blankMem, 4096, 5 * 4096, z, fun _ => 0, [], kmallocInit z fun _ => 0, by decide, by decide,
      by unfold HasPage; decide, hz, rfl, rfl⟩
  have hshort : (kmalloc (kmallocInit z fun _ => 0).heap 1).1 = some 8200 ∧
      extentEnd (kmalloc (kmallocInit z fun _ => 0).heap 1).2 1 8200 = 8200 := by
    have : ((pageAllocInit blankMem 4096 (5 * 4096)).all fun z =>
        decide ((kmalloc (kmallocInit z fun _ => 0).heap 1).1 = some 8200 ∧
          extentEnd (kmalloc (kmallocInit z fun _ => 0).heap 1).2 1 8200 = 8200)) = true := by
      decide +kernel
    rw [hz, Option.all_some, decide_eq_true_eq] at this
    exact this
  have := hfits 8200 hshort.1
  rw [hshort.2] at this
  omega

end YakOS
