import YakOS.Lib.Bitops
import YakOS.Mm.PageAlloc

/-!
# The small-object allocator

`mm/slob.c` and `mm/malloc.c`.  A page of small blocks keeps its free fragments in
a list threaded through the fragments themselves: a fragment starts with a cell
that holds its size in units of two bytes, followed by one that holds the place of
the next fragment, counted from the start of the page.

Pointers are byte addresses.  `units` is the memory the cells live in; the code
writes numbers between `-2048` and `2048` into them, so their width does not
matter.  The fields `freelist` and `units` of a page are the fields `index` and
`mapcount` of its descriptor.  The lock is left out.

## Main definitions

* `Heap` — the zone, the cells and the three lists of pages with free fragments.
* `setSlob`, `slobUnits`, `slobNext`, `slobLast` — the encoding of a fragment.
* `slobPageAlloc`, `slobAlloc`, `slobFree`, `kmalloc`, `kfree` — the operations.
-/

namespace YakOS

/-- `SLOB_UNIT`. -/
def slobUnit : ℕ := 2

/-- `SLOB_UNITS(size)`. -/
def slobUnitsOf (size : ℕ) : ℕ := (size + slobUnit - 1) / slobUnit

/-- `ARCH_SLOB_MINALIGN`. -/
def archSlobMinalign : ℕ := 8

/-- `PG_slob_free`. -/
def pgSlobFree : ℕ := 0

/-- The three lists of partially free pages. -/
inductive SlobClass
  | small
  | medium
  | large
  deriving DecidableEq, Repr

/-- The list for blocks of `size` bytes, by `SLOB_BREAK1` and `SLOB_BREAK2`. -/
def slobClass (size : ℕ) : SlobClass :=
  if size < 256 then .small else if size < 1024 then .medium else .large

/-- What `kmalloc` works on. -/
structure Heap where
  zone : Zone
  /-- The cell `slob_t` at each address. -/
  units : ℕ → ℤ
  /-- `free_slob_small`, `free_slob_medium` and `free_slob_large`. -/
  freeSlob : SlobClass → List ℤ
  /-- The calls of `free_one_page` so far: the page and the `index` read there. -/
  handedBack : List (ℤ × ℕ)

/-! ### Fragments -/

/-- Write one cell. -/
def setCell (m : ℕ → ℤ) (a : ℕ) (v : ℤ) : ℕ → ℤ := fun x => if x = a then v else m x

/-- The start of the page an address lies in. -/
def pageBase (a : ℕ) : ℕ := a / pageSize * pageSize

/-- `set_slob`. -/
def setSlob (m : ℕ → ℤ) (s : ℕ) (size : ℤ) (next : ℕ) : ℕ → ℤ :=
  let offset : ℤ := ((next : ℤ) - pageBase s) / slobUnit
  if 1 < size then setCell (setCell m s size) (s + slobUnit) offset else setCell m s (-offset)

/-- `slob_units`. -/
def slobUnits (m : ℕ → ℤ) (s : ℕ) : ℤ := if 0 < m s then m s else 1

/-- `slob_next`. -/
def slobNext (m : ℕ → ℤ) (s : ℕ) : ℕ :=
  let next : ℤ := if m s < 0 then -m s else m (s + slobUnit)
  ((pageBase s : ℤ) + slobUnit * next).toNat

/-- `slob_last`. -/
def slobLast (m : ℕ → ℤ) (s : ℕ) : Prop := slobNext m s % pageSize = 0

instance (m : ℕ → ℤ) (s : ℕ) : Decidable (slobLast m s) := inferInstanceAs (Decidable (_ = _))

/-! ### Pages with free fragments -/

/-- `PageSlob`, which is also `slob_page_free`: it tests `PG_slob_free`. -/
def pageSlob (g : Page) : Bool := Bitops.testBit pgSlobFree g.flags

namespace Heap

/-- Write the descriptor of a page. -/
def modifyPage (h : Heap) (sp : ℤ) (f : Page → Page) : Heap :=
  { h with zone := h.zone.modifyPage sp f }

/-- `set_slob_page_free`. -/
def setSlobPageFree (h : Heap) (sp : ℤ) (c : SlobClass) : Heap :=
  { h with
    zone := h.zone.modifyPage sp fun g => { g with flags := Bitops.setBit pgSlobFree g.flags }
    freeSlob := fun d => if d = c then sp :: h.freeSlob d else h.freeSlob d }

/-- `clear_slob_page_free`; `list_del` unlinks the page from the list it is on. -/
def clearSlobPageFree (h : Heap) (sp : ℤ) : Heap :=
  { h with
    zone := h.zone.modifyPage sp fun g => { g with flags := Bitops.clearBit pgSlobFree g.flags }
    freeSlob := fun d => (h.freeSlob d).erase sp }

end Heap

/-! ### Allocation -/

/-- The part of `slob_page_alloc` after a fragment with room enough was found at `cur`:
take `units` from its front, with `prev` the fragment before it. -/
def slobTake (h : Heap) (sp : ℤ) (units : ℤ) (prev : Option ℕ) (cur : ℕ) (avail : ℤ) : Heap :=
  let next := slobNext h.units cur
  let rest := cur + slobUnit * units.toNat
  -- where the list goes on: behind the fragment if it is used up, else at its rest
  let link := if avail = units then next else rest
  let h₁ :=
    match prev with
    | some p => { h with units := setSlob h.units p (slobUnits h.units p) link }
    | none => h.modifyPage sp fun g => { g with index := link }
  let h₂ :=
    if avail = units then h₁ else { h₁ with units := setSlob h₁.units rest (avail - units) next }
  let h₃ := h₂.modifyPage sp fun g => { g with mapcount := g.mapcount - units }
  let h₄ := if (h₃.zone.page sp).mapcount = 0 then h₃.clearSlobPageFree sp else h₃
  -- just to store the size
  { h₄ with units := setSlob h₄.units cur units rest }

/-- The loop of `slob_page_alloc` along the fragments of a page. -/
def slobPageAllocLoop (h : Heap) (sp : ℤ) (units : ℤ) (align : ℕ) :
    ℕ → Option ℕ → ℕ → Option (ℕ × Heap)
  | 0, _, _ => none
  | fuel + 1, prev, cur =>
    let avail := slobUnits h.units cur
    let aligned := (cur + align - 1) / align * align
    let delta : ℤ := if align = 0 then 0 else ((aligned : ℤ) - cur) / slobUnit
    if units + delta ≤ avail then
      if delta = 0 then some (cur + align, slobTake h sp units prev cur avail)
      else
        -- fragment the head to align
        let next := slobNext h.units cur
        let m := setSlob (setSlob h.units aligned (avail - delta) next) cur delta aligned
        some (aligned + align,
          slobTake { h with units := m } sp units (some cur) aligned (slobUnits m aligned))
    else if slobLast h.units cur then none
    else slobPageAllocLoop h sp units align fuel (some cur) (slobNext h.units cur)

/-- `slob_page_alloc`.  A page has at most `PAGE_SIZE` fragments. -/
def slobPageAlloc (h : Heap) (sp : ℤ) (size align : ℕ) : Option (ℕ × Heap) :=
  slobPageAllocLoop h sp (slobUnitsOf size) align pageSize none (h.zone.page sp).index

/-- `slob_new_pages`. -/
def slobNewPages (h : Heap) (size : ℕ) : Option (ℕ × Heap) :=
  (allocPages h.zone size).map fun r => (pageAddress r.2 r.1, { h with zone := r.2 })

/-- The search of `slob_alloc` through one list; `before` are the pages passed.  After
a hit the head of the circular list is moved in front of the page after the last one
passed, unless it is there already. -/
def slobScan (h : Heap) (c : SlobClass) (size align : ℕ) :
    List ℤ → List ℤ → Option (ℕ × Heap)
  | _, [] => none
  | before, sp :: after =>
    if (h.zone.page sp).mapcount < slobUnitsOf size then
      slobScan h c size align (before ++ [sp]) after
    else
      match slobPageAlloc h sp size align with
      | none => slobScan h c size align (before ++ [sp]) after
      | some (b, h') =>
        let passed := (h'.freeSlob c).take before.length
        let rest := (h'.freeSlob c).drop before.length
        let l := if passed ≠ [] ∧ rest ≠ [] then rest ++ passed else h'.freeSlob c
        some (b, { h' with freeSlob := fun d => if d = c then l else h'.freeSlob d })

/-- The part of `slob_alloc` after the list had no room: a new page. -/
def slobNewPage (h : Heap) (size align : ℕ) : Option ℕ × Heap :=
  match slobNewPages h (pageSize - 1) with
  | none => (none, h)
  | some (b, h₁) =>
    match virtToPage h₁.zone b with
    | none => (none, h₁)
    | some sp =>
      let h₂ := h₁.modifyPage sp fun g => { g with mapcount := slobUnitsOf pageSize, index := b }
      let h₃ : Heap := { h₂ with units := setSlob h₂.units b (slobUnitsOf pageSize) (b + pageSize) }
      let h₄ := h₃.setSlobPageFree sp (slobClass size)
      match slobPageAlloc h₄ sp size align with
      | none => (none, h₄)
      | some (a, h₅) => (some a, h₅)

/-- `slob_alloc`. -/
def slobAlloc (h : Heap) (size align : ℕ) : Option ℕ × Heap :=
  match slobScan h (slobClass size) size align [] (h.freeSlob (slobClass size)) with
  | some (b, h') => (some b, h')
  | none => slobNewPage h size align

/-- The size `kmalloc` asks for: room for the header, aligned. -/
def kmallocSize (size : ℕ) : ℕ :=
  (size + slobUnit + archSlobMinalign - 1) % 2 ^ 32 / archSlobMinalign * archSlobMinalign

/-- `kmalloc`. -/
def kmalloc (h : Heap) (size : ℕ) : Option ℕ × Heap :=
  if size = 0 then (none, h)
  else if kmallocSize size < pageSize then
    if kmallocSize size = 0 then (none, h)
    else slobAlloc h (kmallocSize size) archSlobMinalign
  else
    match slobNewPages h (kmallocSize size) with
    | none => (none, h)
    | some (b, h') => (some b, h')

/-! ### Release -/

/-- `free_pages`, with the call of `free_one_page` recorded. -/
def Heap.freePages (h : Heap) (addr : ℕ) : Heap :=
  { h with
    zone := YakOS.freePages h.zone addr
    handedBack := h.handedBack ++
      if addr = 0 then []
      else ((virtToPage h.zone addr).map fun sp => (sp, (h.zone.page sp).index)).toList }

/-- The loop of `slob_free` that finds the fragment before the block. -/
def slobFreeFind (m : ℕ → ℤ) (b : ℕ) : ℕ → ℕ → ℕ
  | 0, prev => prev
  | fuel + 1, prev =>
    if slobNext m prev < b then slobFreeFind m b fuel (slobNext m prev) else prev

/-- The reinsertion of `slob_free` when the block lies behind the first fragment. -/
def slobFreeAfter (m : ℕ → ℤ) (prev b : ℕ) (units : ℤ) : ℕ → ℤ :=
  let next := slobNext m prev
  let m₁ :=
    if ¬ slobLast m prev ∧ b + slobUnit * units.toNat = next then
      -- merge with the following block
      setSlob m b (units + slobUnits m next) (slobNext m next)
    else setSlob m b units next
  if prev + slobUnit * (slobUnits m₁ prev).toNat = b then
    -- merge with the previous block
    setSlob m₁ prev (slobUnits m₁ b + slobUnits m₁ prev) (slobNext m₁ b)
  else setSlob m₁ prev (slobUnits m₁ prev) b

/-- `slob_free`. -/
def slobFree (h : Heap) (b size : ℕ) : Heap :=
  match virtToPage h.zone b with
  | none => h
  | some sp =>
    let g := h.zone.page sp
    let units : ℤ := slobUnitsOf size
    if g.mapcount + units = slobUnitsOf pageSize then
      -- go directly to the page allocator
      let h₁ := if pageSlob g then h.clearSlobPageFree sp else h
      (h₁.modifyPage sp fun g => { g with mapcount := -1 }).freePages b
    else if pageSlob g = false then
      -- this slob page is about to become partially free
      let h₁ := h.modifyPage sp fun g => { g with mapcount := units, index := b }
      let h₂ : Heap := { h₁ with units := setSlob h₁.units b units (pageBase (b + pageSize)) }
      h₂.setSlobPageFree sp (slobClass size)
    else
      let h₁ := h.modifyPage sp fun g => { g with mapcount := g.mapcount + units }
      let first := g.index
      if b < first then
        let merge := b + slobUnit * units.toNat = first
        let units' := if merge then units + slobUnits h.units first else units
        let next := if merge then slobNext h.units first else first
        { h₁.modifyPage sp fun g => { g with index := b } with
          units := setSlob h.units b units' next }
      else
        { h₁ with units := slobFreeAfter h.units (slobFreeFind h.units b pageSize first) b units }

/-- `kfree`. -/
def kfree (h : Heap) (addr : ℕ) : Heap :=
  if addr = 0 then h
  else
    match virtToPage h.zone addr with
    | none => h
    | some sp =>
      if pageSlob (h.zone.page sp) then
        let m := addr - archSlobMinalign
        slobFree h m (h.units m * slobUnit).toNat
      else h.freePages addr

end YakOS
