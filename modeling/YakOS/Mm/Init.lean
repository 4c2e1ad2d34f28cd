import YakOS.Mm.Partition

/-!
# The descriptors after `page_alloc_init`

`page_alloc_init` writes the descriptors at the positions `0 .. managed_pages - 1`,
and puts the pages at the positions `used_pages .. spanned_pages - 1` on the free
lists.  The two ranges have the same length and start at different places: the last
`used_pages` pages of the zone are on a free list with whatever the memory held as
their descriptors.

## Main definitions

* `initPage` — the descriptor that `page_alloc_init` writes.
* `DescriptorsSet` — the pages on the free lists have such descriptors.
* `InsertStops` — `insert_to_free_area` comes to an end.

## Main results

* `insertLoop_fuel` — the rounds the model allows for the loop are enough.
* `descriptors_set_iff` — **the descriptors are initialised whatever the memory held
  exactly when the zone has one page**, which is not on a list.
-/

namespace YakOS

open Buddy

/-- The descriptor `page_alloc_init` writes at position `i`. -/
def initPage (i : ℕ) : Page := { flags := 0, index := i, mapcount := 0, priv := 0 }

/-- The pages of the blocks on the free lists have initialised descriptors. -/
def DescriptorsSet (z : Zone) : Prop := ∀ b ∈ z.freeBlocks, ∀ i : ℕ, b.Has i → z.page i = initPage i

/-- `insert_to_free_area` comes to an end: from some number of rounds on, its loop has linked what
it links. -/
def InsertStops (z : Zone) (page : ℤ) (num : ℕ) : Prop :=
  ∃ rounds, ∀ fuel, rounds ≤ fuel →
    insertLoop fuel z page num (maxOrder - 1) = insertToFreeArea z page num

/-- Each round links a block or lowers the order. -/
theorem insertLoop_fuel {fuel fuel' : ℕ} {z : Zone} {page : ℤ} {num order : ℕ}
    (h : num + order < fuel) (h' : num + order < fuel') :
    insertLoop fuel z page num order = insertLoop fuel' z page num order := by
  induction fuel generalizing fuel' z page num order with
  | zero => omega
  | succ fuel ih =>
    cases fuel' with
    | zero => omega
    | succ fuel' =>
      unfold insertLoop
      by_cases hge : 2 ^ order ≤ num
      · have hpos : 0 < 2 ^ order := by positivity
        simp only [if_pos hge]
        split
        · exact ih (by omega) (by omega)
        · rfl
      · simp only [if_neg hge]
        split
        · rename_i hcont
          have hord : order ≠ 0 := by
            rintro rfl
            omega
          rw [if_pos (by omega)]
          exact ih (by omega) (by omega)
        · rfl

theorem insertStops (z : Zone) (page : ℤ) (num : ℕ) : InsertStops z page num := by
  refine ⟨num + maxOrder, fun fuel hfuel => insertLoop_fuel ?_ ?_⟩
  · unfold maxOrder at *
    omega
  · unfold maxOrder
    omega

section Zone

variable {mem : ℤ → Page} {a n : ℕ} {z : Zone}

/-- The pages on the free lists are those behind the descriptors. -/
theorem Inserted.mem_iff {zone : Zone} {lo hi : ℤ} (h : Inserted zone lo z hi) (i : ℕ) :
    (∃ b ∈ z.freeBlocks, b.Has i) ↔ lo ≤ i ∧ i < hi := by
  rw [← cover_pos, h.tiles i]
  split
  · rename_i hi
    exact iff_of_true Nat.one_pos hi
  · rename_i hi
    exact iff_of_false (Nat.lt_irrefl 0) hi

/-- A descriptor of the zone: those below `managed_pages` are written. -/
theorem Inserted.page_eq {lo hi : ℤ} (h : Inserted (bareZone mem a n) lo z hi) (i : ℕ) :
    z.page i = if i < n - (n * sizeofPage / pageSize + 1) then initPage i else mem i := by
  rw [h.same]
  show (if 0 ≤ (i : ℤ) ∧ (i : ℤ) < (n - (n * sizeofPage / pageSize + 1) : ℕ) then _ else mem i) = _
  by_cases hi : i < n - (n * sizeofPage / pageSize + 1)
  · rw [if_pos hi, if_pos ⟨by omega, by exact_mod_cast hi⟩]
    rfl
  · rw [if_neg hi, if_neg fun hcon => hi (by exact_mod_cast hcon.2)]

/-- The descriptors are initialised exactly when those that are not written were so before. -/
theorem descriptorsSet_iff (h : Inserted (bareZone mem a n) (n * sizeofPage / pageSize + 1 : ℕ) z n) :
    DescriptorsSet z ↔ ∀ i : ℕ, n * sizeofPage / pageSize + 1 ≤ i →
      n - (n * sizeofPage / pageSize + 1) ≤ i → i < n → mem i = initPage i := by
  have hmem := h.mem_iff
  have hpage := h.page_eq
  generalize n * sizeofPage / pageSize + 1 = used at *
  constructor
  · intro hset i hused hmanaged hlt
    obtain ⟨b, hb, hi⟩ := (hmem i).mpr ⟨by omega, by omega⟩
    rw [← hset b hb i hi, hpage, if_neg (by omega)]
  · intro hbefore b hb i hi
    obtain ⟨hlo, hhi⟩ := (hmem i).mp ⟨b, hb, hi⟩
    rw [hpage]
    split
    · rfl
    · exact hbefore i (by omega) (by omega) (by omega)

end Zone

/-- Memory none of whose words is a descriptor that `page_alloc_init` writes. -/
def dirtyMem : ℤ → Page := fun _ => { flags := 1, index := 0, mapcount := 0, priv := 0 }

theorem dirtyMem_ne (i : ℕ) : dirtyMem i ≠ initPage i := fun h =>
  absurd (congrArg Page.flags h) (by decide : ¬ (1 : BitVec 32) = 0)

/-- **The descriptors of the free pages.**  `page_alloc_init` comes to an end; the pages on the free
lists are those behind the descriptors; their descriptors are initialised exactly when those from
`managed_pages` on were so before, and whatever the memory held exactly when there is one page
only, or none is set up because the address is null. -/
theorem descriptors_set_iff {addr size : ℕ} (haddr : addr < 2 ^ 32) (hsize : size < 2 ^ 32)
    (hpage : HasPage addr size) :
    (∀ mem, addr ≠ 0 → ∃ zone used managed z,
      used = wholePages addr size * sizeofPage / pageSize + 1 ∧
      managed = wholePages addr size - used ∧
      pageAllocInit mem addr size = some z ∧ z = insertToFreeArea zone used managed ∧
      InsertStops zone used managed ∧
      (∀ i : ℕ, (∃ b ∈ z.freeBlocks, b.Has i) ↔ used ≤ i ∧ i < wholePages addr size) ∧
      (DescriptorsSet z ↔
        ∀ i : ℕ, used ≤ i → managed ≤ i → i < wholePages addr size → mem i = initPage i)) ∧
    ((∀ mem z, pageAllocInit mem addr size = some z → DescriptorsSet z) ↔
      addr = 0 ∨ wholePages addr size = 1) := by
  have hpos := hpage.wholePages_pos
  have hlt : wholePages addr size < 2 ^ 31 := by
    unfold wholePages
    unfold pageSize
    omega
  have hins := fun mem => inserted_bareZone mem
    ((addr + pageSize - 1) % 2 ^ 32 / pageSize * pageSize) hpos hlt
  constructor
  · intro mem hne
    refine ⟨_, _, _, _, rfl, rfl, pageAllocInit_eq mem hne haddr hsize hpage, rfl,
      insertStops _ _ _, fun i => ?_, descriptorsSet_iff (hins mem)⟩
    rw [(hins mem).mem_iff]
    omega
  · constructor
    · intro hall
      by_contra hcon
      rw [not_or] at hcon
      have hset := hall dirtyMem _ (pageAllocInit_eq dirtyMem hcon.1 haddr hsize hpage)
      -- the last page is on a list, and its descriptor is not written
      refine dirtyMem_ne (wholePages addr size - 1)
        ((descriptorsSet_iff (hins dirtyMem)).mp hset _ ?_ ?_ ?_)
      · have := hcon.2
        unfold sizeofPage pageSize
        omega
      · exact Nat.sub_le_sub_left (Nat.le_add_left 1 _) _
      · omega
    · rintro (rfl | hone) mem z hz
      · cases hz
      · have hne : addr ≠ 0 := by
          rintro rfl
          cases hz
        rw [pageAllocInit_eq mem hne haddr hsize hpage] at hz
        have hz' := hins mem
        rw [Option.some.inj hz] at hz'
        refine (descriptorsSet_iff hz').mpr ?_
        intro i hused _ hi
        rw [hone] at hi
        exact absurd ((Nat.le_add_left 1 _).trans hused) (Nat.not_le.mpr hi)

theorem descriptors_set_iff_one_page :
    HasPage 4096 4096 ∧ ∀ mem z, pageAllocInit mem 4096 4096 = some z → DescriptorsSet z := by
  have hpage : HasPage 4096 4096 := by unfold HasPage; decide
  exact ⟨hpage, (descriptors_set_iff (by decide) (by decide) hpage).2.mpr (Or.inr (by decide))⟩

/-- Five pages at `0x1000`: page 4 is on a list, and its descriptor is what the memory held. -/
theorem last_page_not_set :
    ¬ ∀ (mem : ℤ → Page) (addr size : ℕ), addr < 2 ^ 32 → size < 2 ^ 32 → HasPage addr size →
      ∀ z, pageAllocInit mem addr size = some z → DescriptorsSet z := by
  intro h
  obtain ⟨z, hz⟩ := Option.isSome_iff_exists.mp
    (by decide : (pageAllocInit dirtyMem 4096 (5 * 4096)).isSome)
  have hset := h dirtyMem 4096 (5 * 4096) (by decide) (by decide) (by unfold HasPage; decide) z hz
  have hlast : (1, 2) ∈ z.freeBlocks ∧ z.page 4 = dirtyMem 4 := by
    have : ((pageAllocInit dirtyMem 4096 (5 * 4096)).all fun z =>
        decide ((1, 2) ∈ z.freeBlocks ∧ z.page 4 = dirtyMem 4)) = true := by decide
    rw [hz, Option.all_some, decide_eq_true_eq] at this
    exact this
  refine dirtyMem_ne 4 (hlast.2.symm.trans (hset (1, 2) hlast.1 4 ?_))
  exact ⟨by decide, by decide⟩

end YakOS
