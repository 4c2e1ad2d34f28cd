import Mathlib.Data.BitVec
import Mathlib.Data.Nat.Size
import Mathlib.Order.Bounds.Basic
import YakOS.Lib.Buddy

/-!
# The page allocator

`mm/page_alloc.c` on its one zone.  A page descriptor is named by its position in
`memmap_pages`, an integer: the merge loop of `free_one_page` computes positions
from the `index` field and may look below the first descriptor when that field is
wrong.  A descriptor's `list` node is linked on the list that has its position.

The zone's lock only brackets the operations and is left out, as are the zone's
name and the printing functions.

## Main definitions

* `Page`, `FreeArea`, `Zone` — the data.
* `pageAllocInit`, `allocPages`, `freePages` — the operations, with the functions
  they call: `insertToFreeArea`, `getOrder`, `expand`, `rmqueue`, `freeOnePage`,
  `pageAddress`, `virtToPage`.
* `Zone.freeBlocks` — the blocks on the free lists.

## Main results

* `isLeast_getOrder` — `get_order` is the least order that holds the size.
* `Zone.freeBlocks_takeFree`, `Zone.freeBlocks_putFree` — unlinking and linking a
  block.
* `expand_rule`, `freeLoop_rule` — the invariant rules of the two loops.
* `allocPages_eq_some`, `allocPages_eq_none` — which block `alloc_pages` takes.
* `virtToPage_pageAddress` — a page of the zone is found from its address.
-/

namespace YakOS

open Buddy

/-- `MAX_ORDER`. -/
def maxOrder : ℕ := 11

/-- `PAGE_SIZE`. -/
def pageSize : ℕ := 4096

/-- `sizeof(struct page)`. -/
def sizeofPage : ℕ := 24

/-- `PAGE_BUDDY_MAPCOUNT_VALUE`. -/
def pageBuddyMapcountValue : ℤ := -128

/-- `struct page`.  `index` shares its word with `freelist`, and `_mapcount` with
`units`; each pair is one field here. -/
structure Page where
  flags : BitVec 32
  index : ℕ
  mapcount : ℤ
  priv : ℕ
  deriving DecidableEq, Repr, Inhabited

/-- `struct free_area`: the positions of the linked pages, first to last. -/
structure FreeArea where
  freeList : List ℤ
  nrFree : BitVec 32
  deriving DecidableEq, Repr, Inhabited

/-- `struct zone`, with `memmap_pages` (its address and the descriptors).  At a position that is none of
the `spanned_pages` stands what a reader of `memmap_pages` finds there in memory that is not the zone's:
the descriptor at `spanned_pages` can reach into the first page of the heap. -/
structure Zone where
  memmapPages : ℕ
  zoneStartPfn : ℕ
  spannedPages : ℕ
  managedPages : ℕ
  freeArea : ℕ → FreeArea
  page : ℤ → Page

namespace Zone

/-- Write the descriptor at `p`. -/
def modifyPage (z : Zone) (p : ℤ) (f : Page → Page) : Zone :=
  { z with page := fun b => if b = p then f (z.page b) else z.page b }

@[simp] theorem modifyPage_modifyPage (z : Zone) (p : ℤ) (f g : Page → Page) :
    (z.modifyPage p f).modifyPage p g = z.modifyPage p fun x => g (f x) := by
  unfold modifyPage
  congr 1
  funext b
  by_cases h : b = p <;> simp [h]

@[simp] theorem modifyPage_self (z : Zone) (p : ℤ) (f : Page → Page) :
    (z.modifyPage p f).page p = f (z.page p) := if_pos rfl

theorem modifyPage_of_ne (z : Zone) {p b : ℤ} (f : Page → Page) (h : b ≠ p) :
    (z.modifyPage p f).page b = z.page b := if_neg h

theorem modifyPage_priv {z : Zone} {p : ℤ} {f : Page → Page}
    (h : (f (z.page p)).priv = (z.page p).priv) (b : ℤ) :
    ((z.modifyPage p f).page b).priv = (z.page b).priv := by
  by_cases hb : b = p
  · rw [hb, modifyPage_self, h]
  · rw [modifyPage_of_ne _ _ hb]

theorem modifyPage_congr {z : Zone} {p : ℤ} {f g : Page → Page}
    (h : f (z.page p) = g (z.page p)) : z.modifyPage p f = z.modifyPage p g := by
  unfold modifyPage
  congr 1
  funext b
  by_cases hb : b = p
  · rw [if_pos hb, if_pos hb, hb, h]
  · rw [if_neg hb, if_neg hb]

/-- The memory around the descriptors of the zone is written: a descriptor read there is now one of `m`. -/
def remap (z : Zone) (m : ℤ → Page) : Zone :=
  { z with page := fun b => if 0 ≤ b ∧ b < z.spannedPages then z.page b else m b }

theorem remap_of_mem {z : Zone} {m : ℤ → Page} {b : ℤ} (h : 0 ≤ b ∧ b < z.spannedPages) :
    (z.remap m).page b = z.page b := if_pos h

/-- Write `free_area[k]`. -/
def modifyArea (z : Zone) (k : ℕ) (f : FreeArea → FreeArea) : Zone :=
  { z with freeArea := fun j => if j = k then f (z.freeArea j) else z.freeArea j }

/-- `list_add(&page->list, &free_area[k].free_list); free_area[k].nr_free++`. -/
def pushFree (z : Zone) (k : ℕ) (p : ℤ) : Zone :=
  z.modifyArea k fun a => { freeList := p :: a.freeList, nrFree := a.nrFree + 1 }

/-- `list_add_tail(&page->list, &free_area[k].free_list); free_area[k].nr_free++`. -/
def pushFreeTail (z : Zone) (k : ℕ) (p : ℤ) : Zone :=
  z.modifyArea k fun a => { freeList := a.freeList ++ [p], nrFree := a.nrFree + 1 }

/-- `list_del(&page->list); free_area[k].nr_free--`. -/
def dropFree (z : Zone) (k : ℕ) (p : ℤ) : Zone :=
  z.modifyArea k fun a => { freeList := a.freeList.erase p, nrFree := a.nrFree - 1 }

/-- `set_page_order`. -/
def setPageOrder (z : Zone) (p : ℤ) (order : ℕ) : Zone :=
  z.modifyPage p fun g => { g with priv := order, mapcount := pageBuddyMapcountValue }

/-- `rmv_page_order`. -/
def rmvPageOrder (z : Zone) (p : ℤ) : Zone :=
  z.modifyPage p fun g => { g with priv := 0, mapcount := -1 }

/-- The blocks on the free lists, smallest order first. -/
def freeBlocks (z : Zone) : List Block :=
  (List.range maxOrder).flatMap fun k => (z.freeArea k).freeList.map fun p => (p, k)

/-- The pages that hold the descriptors: `used_pages` of `page_alloc_init`. -/
def usedPages (z : Zone) : ℕ := z.spannedPages * sizeofPage / pageSize + 1

end Zone

/-! ### Initialisation -/

/-- The loop of `insert_to_free_area`.  Each round links a block or lowers the
order, so `fuel` rounds are enough when `curNum + order < fuel`. -/
def insertLoop : ℕ → Zone → ℤ → ℕ → ℕ → Zone
  | 0, z, _, _, _ => z
  | fuel + 1, z, curPage, curNum, order =>
    let r : Zone × ℤ × ℕ × ℕ :=
      if 2 ^ order ≤ curNum then
        (z.pushFreeTail order curPage, curPage + 2 ^ order, curNum - 2 ^ order, order)
      else (z, curPage, curNum, if 0 < order then order - 1 else order)
    -- `(int32_t)cur_num > 0`
    if 0 < r.2.2.1 ∧ r.2.2.1 < 2 ^ 31 then insertLoop fuel r.1 r.2.1 r.2.2.1 r.2.2.2 else r.1

/-- `insert_to_free_area`. -/
def insertToFreeArea (z : Zone) (page : ℤ) (pageNum : ℕ) : Zone :=
  insertLoop (pageNum + maxOrder) z page pageNum (maxOrder - 1)

/-- `page_alloc_init` on memory that, read as descriptors, is `mem`; `none` when
`addr` is null and nothing is set up. -/
def pageAllocInit (mem : ℤ → Page) (addrOrigin sizeOrigin : ℕ) : Option Zone :=
  if addrOrigin = 0 then none
  else
    let addr := (addrOrigin + pageSize - 1) % 2 ^ 32 / pageSize * pageSize
    let gap := (addr + (2 ^ 32 - addrOrigin)) % 2 ^ 32
    let size := (sizeOrigin + (2 ^ 32 - gap)) % 2 ^ 32 / pageSize * pageSize
    let spanned := size / pageSize
    let used := spanned * sizeofPage / pageSize + 1
    let managed := (spanned + (2 ^ 32 - used)) % 2 ^ 32
    let zone : Zone :=
      { memmapPages := addr
        zoneStartPfn := addr / pageSize
        spannedPages := spanned
        managedPages := managed
        freeArea := fun _ => { freeList := [], nrFree := 0 }
        page := fun b =>
          if 0 ≤ b ∧ b < managed then { flags := 0, index := b.toNat, mapcount := 0, priv := 0 }
          else mem b }
    some (insertToFreeArea zone used managed)

/-! ### Allocation -/

/-- `get_order`; `fls` is the number of binary digits. -/
def getOrder (size : ℕ) : ℕ := Nat.size ((size + (2 ^ 32 - 1)) % 2 ^ 32 / pageSize)

/-- `expand`: the upper halves of the block at `page` go to the free lists until
order `low` is reached. -/
def expand (z : Zone) (page : ℤ) (low : ℕ) : ℕ → Zone
  | 0 => z
  | high + 1 =>
    if low < high + 1 then
      expand ((z.pushFree high (page + 2 ^ high)).setPageOrder (page + 2 ^ high) high)
        page low high
    else z

/-- The body of `__rmqueue` for a page found on `free_area[currentOrder]`. -/
def rmqueueTake (z : Zone) (order currentOrder : ℕ) (page : ℤ) : Zone :=
  (expand ((z.dropFree currentOrder page).rmvPageOrder page) page order currentOrder).modifyPage
    page fun g => { g with priv := order }

/-- The search of `__rmqueue` over the `n` orders from `currentOrder` on: the first
page of the first list that is not empty, with the order of the list. -/
def rmqueueFind (z : Zone) : ℕ → ℕ → Option Block
  | 0, _ => none
  | n + 1, currentOrder =>
    match (z.freeArea currentOrder).freeList with
    | [] => rmqueueFind z n (currentOrder + 1)
    | page :: _ => some (page, currentOrder)

/-- `__rmqueue`. -/
def rmqueue (z : Zone) (order : ℕ) : Option (ℤ × Zone) :=
  (rmqueueFind z (maxOrder - order) order).map fun b => (b.1, rmqueueTake z order b.2 b.1)

/-- `alloc_pages`. -/
def allocPages (z : Zone) (size : ℕ) : Option (ℤ × Zone) :=
  let order := getOrder size
  if maxOrder ≤ order then none else rmqueue z order

/-! ### Release -/

/-- `page_address`. -/
def pageAddress (z : Zone) (page : ℤ) : ℕ :=
  ((z.memmapPages + page * pageSize) % 2 ^ 32).toNat

/-- `virt_to_page`. -/
def virtToPage (z : Zone) (addr : ℕ) : Option ℤ :=
  let pfn := addr / pageSize
  if z.zoneStartPfn + z.spannedPages < pfn ∨ pfn < z.zoneStartPfn then none
  else some ((pfn - z.zoneStartPfn : ℕ) : ℤ)

/-- `page_is_buddy`. -/
def pageIsBuddy (z : Zone) (buddy : ℤ) (order : ℕ) : Prop :=
  (z.page buddy).mapcount = pageBuddyMapcountValue ∧ (z.page buddy).priv = order

instance (z : Zone) (buddy : ℤ) (order : ℕ) : Decidable (pageIsBuddy z buddy order) :=
  inferInstanceAs (Decidable (_ ∧ _))

/-- `__find_buddy_index`. -/
def findBuddyIndex (pageIdx order : ℕ) : ℕ := pageIdx ^^^ 2 ^ order

/-- The loop of `free_one_page` with the linking after it; `n` is the number of
orders left below `MAX_ORDER - 1`. -/
def freeLoop : ℕ → Zone → ℤ → ℕ → ℕ → Zone
  | 0, z, page, _, order => (z.setPageOrder page order).pushFree order page
  | n + 1, z, page, pageIdx, order =>
    let buddyIdx := findBuddyIndex pageIdx order
    let buddy := page + ((buddyIdx : ℤ) - pageIdx)
    if pageIsBuddy z buddy order then
      let combinedIdx := buddyIdx &&& pageIdx
      freeLoop n ((z.dropFree order buddy).rmvPageOrder buddy)
        (page + ((combinedIdx : ℤ) - pageIdx)) combinedIdx (order + 1)
    else (z.setPageOrder page order).pushFree order page

/-- `free_one_page`. -/
def freeOnePage (z : Zone) (page : ℤ) (order : ℕ) : Zone :=
  freeLoop (maxOrder - 1 - order) z page (z.page page).index order

/-- `free_pages`. -/
def freePages (z : Zone) (addr : ℕ) : Zone :=
  if addr = 0 then z
  else
    match virtToPage z addr with
    | none => z
    | some page => freeOnePage z page (z.page page).priv

/-! ### Sizes and orders -/

/-- `get_order` is the least order whose blocks hold `size` bytes. -/
theorem isLeast_getOrder {size : ℕ} (hpos : 1 ≤ size) (hlt : size < 2 ^ 32) :
    IsLeast {k | size ≤ pageSize * 2 ^ k} (getOrder size) := by
  have hdec : (size + (2 ^ 32 - 1)) % 2 ^ 32 = size - 1 := by omega
  have hiff : ∀ k, getOrder size ≤ k ↔ size ≤ pageSize * 2 ^ k := by
    intro k
    unfold getOrder
    rw [hdec, Nat.size_le, Nat.div_lt_iff_lt_mul (by decide), Nat.mul_comm]
    unfold pageSize
    omega
  exact ⟨(hiff _).mp le_rfl, fun k hk => (hiff k).mpr hk⟩

/-! ### Linking and unlinking -/

namespace Zone

variable (z : Zone) (p b : ℤ) (k j : ℕ)

/-- Take the block `(p, k)` off its free list. -/
def takeFree : Zone := (z.dropFree k p).rmvPageOrder p

/-- Put the block `(p, k)` on its free list, marked. -/
def putFree : Zone := (z.setPageOrder p k).pushFree k p

@[simp] theorem takeFree_freeList :
    ((z.takeFree p k).freeArea j).freeList =
      if j = k then (z.freeArea j).freeList.erase p else (z.freeArea j).freeList := by
  by_cases h : j = k <;> simp [takeFree, rmvPageOrder, dropFree, modifyPage, modifyArea, h]

@[simp] theorem takeFree_nrFree :
    ((z.takeFree p k).freeArea j).nrFree =
      if j = k then (z.freeArea j).nrFree - 1 else (z.freeArea j).nrFree := by
  by_cases h : j = k <;> simp [takeFree, rmvPageOrder, dropFree, modifyPage, modifyArea, h]

@[simp] theorem takeFree_page :
    (z.takeFree p k).page b =
      if b = p then { z.page b with priv := 0, mapcount := -1 } else z.page b := rfl

@[simp] theorem putFree_freeList :
    ((z.putFree p k).freeArea j).freeList =
      if j = k then p :: (z.freeArea j).freeList else (z.freeArea j).freeList := by
  by_cases h : j = k <;> simp [putFree, setPageOrder, pushFree, modifyPage, modifyArea, h]

@[simp] theorem putFree_nrFree :
    ((z.putFree p k).freeArea j).nrFree =
      if j = k then (z.freeArea j).nrFree + 1 else (z.freeArea j).nrFree := by
  by_cases h : j = k <;> simp [putFree, setPageOrder, pushFree, modifyPage, modifyArea, h]

@[simp] theorem putFree_page :
    (z.putFree p k).page b =
      if b = p then { z.page b with priv := k, mapcount := pageBuddyMapcountValue }
      else z.page b := rfl

variable {z p k}

theorem mem_freeBlocks {b : Block} :
    b ∈ z.freeBlocks ↔ b.2 < maxOrder ∧ b.1 ∈ (z.freeArea b.2).freeList := by
  obtain ⟨q, i⟩ := b
  simp only [freeBlocks, List.mem_flatMap, List.mem_range, List.mem_map, Prod.mk.injEq]
  constructor
  · rintro ⟨j, hj, a, ha, rfl, rfl⟩
    exact ⟨hj, ha⟩
  · rintro ⟨hi, hq⟩
    exact ⟨i, hi, q, hq, rfl, rfl⟩

theorem freeBlocks_takeFree (hk : k < maxOrder) (hp : p ∈ (z.freeArea k).freeList) :
    z.freeBlocks.Perm ((p, k) :: (z.takeFree p k).freeBlocks) := by
  unfold freeBlocks
  refine flatMap_range_perm hk ?_ ?_
  · intro j hj
    simp [hj]
  · simpa using (List.perm_cons_erase hp).map fun q => (q, k)

theorem freeBlocks_putFree (hk : k < maxOrder) :
    (z.putFree p k).freeBlocks.Perm ((p, k) :: z.freeBlocks) := by
  unfold freeBlocks
  refine flatMap_range_perm hk ?_ ?_
  · intro j hj
    simp [hj]
  · simp

theorem freeBlocks_pushFreeTail (hk : k < maxOrder) :
    (z.pushFreeTail k p).freeBlocks.Perm ((p, k) :: z.freeBlocks) := by
  unfold freeBlocks
  refine flatMap_range_perm hk ?_ ?_
  · intro j hj
    simp [pushFreeTail, modifyArea, hj]
  · simp [pushFreeTail, modifyArea]

end Zone

/-! ### Rules for the loops -/

/-- **The rule of `expand`.**  What every split keeps holds at the end. -/
theorem expand_rule {P : Zone → ℕ → Prop} {page : ℤ} {low high : ℕ}
    (hsplit : ∀ z k, low ≤ k → k < high → P z (k + 1) → P (z.putFree (page + 2 ^ k) k) k)
    {z : Zone} (hle : low ≤ high) (hP : P z high) : P (expand z page low high) low := by
  induction high generalizing z with
  | zero =>
    obtain rfl : low = 0 := by omega
    exact hP
  | succ high ih =>
    unfold expand
    split
    · rename_i hlt
      exact ih (fun z k hk hk' => hsplit z k hk (by omega)) (by omega)
        (hsplit z high (by omega) (by omega) hP)
    · obtain rfl : low = high + 1 := by omega
      exact hP

/-- **The rule of `free_one_page`.**  `P` speaks of the zone and the block in hand,
and is kept by every merge; `Q` follows when the loop stops. -/
theorem freeLoop_rule {P : Zone → ℤ → ℕ → ℕ → Prop} {Q : Zone → Prop}
    (hmerge : ∀ z page pageIdx order, order < maxOrder - 1 → P z page pageIdx order →
      pageIsBuddy z (page + ((findBuddyIndex pageIdx order : ℤ) - pageIdx)) order →
      P (z.takeFree (page + ((findBuddyIndex pageIdx order : ℤ) - pageIdx)) order)
        (page + (((findBuddyIndex pageIdx order &&& pageIdx : ℕ) : ℤ) - pageIdx))
        (findBuddyIndex pageIdx order &&& pageIdx) (order + 1))
    (hdone : ∀ z page pageIdx order, order < maxOrder → P z page pageIdx order →
      (order < maxOrder - 1 →
        ¬ pageIsBuddy z (page + ((findBuddyIndex pageIdx order : ℤ) - pageIdx)) order) →
      Q (z.putFree page order))
    {z : Zone} {page : ℤ} {pageIdx order : ℕ} (horder : order < maxOrder)
    (hP : P z page pageIdx order) :
    Q (freeLoop (maxOrder - 1 - order) z page pageIdx order) := by
  generalize hn : maxOrder - 1 - order = n
  induction n generalizing z page pageIdx order with
  | zero => exact hdone z page pageIdx order horder hP (by omega)
  | succ n ih =>
    unfold freeLoop
    dsimp only
    split
    · rename_i hb
      exact ih (by omega) (hmerge z page pageIdx order (by omega) hP hb) (by omega)
    · rename_i hb
      exact hdone z page pageIdx order horder hP fun _ => hb

/-- Where the buddy found by flipping bit `order` of an index lies. -/
theorem buddy_offset (pageIdx order : ℕ) :
    (findBuddyIndex pageIdx order : ℤ) - pageIdx =
      if pageIdx.testBit order then -2 ^ order else 2 ^ order := by
  unfold findBuddyIndex
  rw [xor_two_pow]
  split
  · rename_i h
    have := Nat.ge_two_pow_of_testBit h
    push_cast [this]
    ring
  · push_cast
    ring

/-- Where the merged block starts. -/
theorem combined_offset (pageIdx order : ℕ) :
    ((findBuddyIndex pageIdx order &&& pageIdx : ℕ) : ℤ) - pageIdx =
      if pageIdx.testBit order then -2 ^ order else 0 := by
  unfold findBuddyIndex
  rw [and_xor_two_pow]
  split
  · rename_i h
    have := Nat.ge_two_pow_of_testBit h
    push_cast [this]
    ring
  · ring

theorem rmqueueFind_eq_some {z : Zone} {n c : ℕ} {b : Block}
    (h : rmqueueFind z n c = some b) : c ≤ b.2 ∧ b.2 < c + n ∧ b.1 ∈ (z.freeArea b.2).freeList := by
  induction n generalizing c with
  | zero => cases h
  | succ n ih =>
    unfold rmqueueFind at h
    split at h
    · obtain ⟨h₁, h₂, h₃⟩ := ih h
      exact ⟨by omega, by omega, h₃⟩
    · rename_i page rest hlist
      obtain rfl : (page, c) = b := by simpa using h
      exact ⟨le_rfl, by omega, by simp [hlist]⟩

theorem rmqueueFind_eq_none {z : Zone} {n c : ℕ} :
    rmqueueFind z n c = none ↔ ∀ k, c ≤ k → k < c + n → (z.freeArea k).freeList = [] := by
  induction n generalizing c with
  | zero =>
    simp only [rmqueueFind, true_iff]
    intro k h₁ h₂
    omega
  | succ n ih =>
    unfold rmqueueFind
    split
    · rename_i hlist
      rw [ih]
      constructor
      · intro h k h₁ h₂
        rcases Nat.eq_or_lt_of_le h₁ with rfl | h₁
        · exact hlist
        · exact h k h₁ (by omega)
      · intro h k h₁ h₂
        exact h k (by omega) (by omega)
    · rename_i page rest hlist
      simp only [reduceCtorEq, false_iff, not_forall]
      exact ⟨c, le_rfl, by omega, by simp [hlist]⟩

/-- A successful `alloc_pages` has found a block of a sufficient order. -/
theorem allocPages_eq_some {z z' : Zone} {size : ℕ} {p : ℤ}
    (h : allocPages z size = some (p, z')) :
    ∃ k, rmqueueFind z (maxOrder - getOrder size) (getOrder size) = some (p, k) ∧
      getOrder size ≤ k ∧ k < maxOrder ∧ p ∈ (z.freeArea k).freeList ∧
      z' = rmqueueTake z (getOrder size) k p := by
  unfold allocPages at h
  dsimp only at h
  split at h
  · cases h
  · rename_i hlt
    obtain ⟨⟨q, k⟩, hfind, heq⟩ := Option.map_eq_some_iff.mp h
    obtain ⟨rfl, rfl⟩ : q = p ∧ rmqueueTake z (getOrder size) k q = z' := by simpa using heq
    obtain ⟨h₁, h₂, h₃⟩ := rmqueueFind_eq_some hfind
    exact ⟨k, hfind, h₁, by omega, h₃, rfl⟩

/-- `alloc_pages` fails exactly when no list of a sufficient order has a block. -/
theorem allocPages_eq_none {z : Zone} {size : ℕ} :
    allocPages z size = none ↔ ∀ b ∈ z.freeBlocks, b.2 < getOrder size := by
  unfold allocPages
  dsimp only
  split
  · rename_i hge
    simp only [true_iff]
    intro b hb
    have := (Zone.mem_freeBlocks.mp hb).1
    omega
  · rename_i hlt
    unfold rmqueue
    rw [Option.map_eq_none_iff, rmqueueFind_eq_none]
    constructor
    · intro h b hb
      obtain ⟨hb₁, hb₂⟩ := Zone.mem_freeBlocks.mp hb
      by_contra hge
      rw [h b.2 (by omega) (by omega)] at hb₂
      cases hb₂
    · intro h k h₁ h₂
      apply List.eq_nil_iff_forall_not_mem.mpr
      intro p hp
      have := h (p, k) (Zone.mem_freeBlocks.mpr ⟨by simp only; omega, hp⟩)
      simp only at this
      omega

/-- The address of a page of a zone that ends inside the address space. -/
theorem pageAddress_eq {z : Zone} (hfit : z.memmapPages + z.spannedPages * pageSize ≤ 2 ^ 32)
    {n : ℕ} (hn : n < z.spannedPages) : pageAddress z n = z.memmapPages + n * pageSize := by
  unfold pageAddress
  unfold pageSize at *
  rw [Int.emod_eq_of_lt (by omega) (by omega)]
  omega

/-- Every address of a page leads to the page. -/
theorem virtToPage_eq {z : Zone} (halign : z.memmapPages = z.zoneStartPfn * pageSize)
    (hfit : z.memmapPages + z.spannedPages * pageSize ≤ 2 ^ 32) {p : ℤ} (hp : 0 ≤ p)
    (hp' : p < z.spannedPages) {a : ℕ} (ha : pageAddress z p ≤ a)
    (ha' : a < pageAddress z p + pageSize) : virtToPage z a = some p := by
  obtain ⟨n, rfl⟩ := Int.eq_ofNat_of_zero_le hp
  have hn : n < z.spannedPages := by omega
  rw [pageAddress_eq hfit hn] at ha ha'
  have hpfn : a / pageSize = z.zoneStartPfn + n := by
    unfold pageSize at *
    omega
  unfold virtToPage
  rw [hpfn]
  dsimp only
  rw [if_neg (by omega)]
  simp

/-- A page of a zone that ends inside the address space is found from its address. -/
theorem virtToPage_pageAddress {z : Zone} (halign : z.memmapPages = z.zoneStartPfn * pageSize)
    (hfit : z.memmapPages + z.spannedPages * pageSize ≤ 2 ^ 32) {p : ℤ} (hp : 0 ≤ p)
    (hp' : p < z.spannedPages) : virtToPage z (pageAddress z p) = some p :=
  virtToPage_eq halign hfit hp hp' le_rfl (by unfold pageSize; omega)

end YakOS
