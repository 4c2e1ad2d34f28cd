import Mathlib.Tactic.IntervalCases
import YakOS.Lib.PageTable
import YakOS.Mm.Extents

/-!
# Mapping pages

`arm_mmu_create_mapping` of `arch/arm/mmu.c`.  For every page it maps,
`arm_mmu_map_page` takes a page from `kmalloc`, makes four neighbouring entries of the
directory point to the four coarse tables in it, and writes one word of the first
table.  The other words are what the memory held, and what the four entries mapped
before is gone.

## Main definitions

* `armMmuMapSection`, `armMmuMapPage`, `armMmuCreateMapping` — the source.
* `Mmu.Apart` — the directory and the tables in use are not free memory.
* `Allocates` — every `kmalloc` of the call succeeds.
* `MapsRange` — what is promised of a call.
* `Owner`, `FreshOk` — the page whose table an address ends up in, and what that table
  has to hold already.

## Main results

* `translateAddr_armMmuMapPage` — one page.
* `mmu_create_mapping_iff` — **the range is mapped and nothing else changes exactly when
  the directory has room and the fresh tables happen to hold the right words; whatever
  the memory holds, only for the empty range.**
-/

namespace YakOS

open PageTable

/-! ### The source -/

def pageOffset : ℕ := 0xc0000000

def physOffset : ℕ := 0xc0000000

def sectionSize : ℕ := 2 ^ 20

def kernelPgd : ℕ := pageOffset

def ttbAp : ℕ := 3 <<< 10

def ttbCacheable : ℕ := 1 <<< 3

def ttbBufferable : ℕ := 1 <<< 2

def ttbCptd : ℕ := 1

def ttbSd : ℕ := 2

def ttbSpgtdAp0Mask : ℕ := 3 <<< 4

def ttbSpgtdAp1Mask : ℕ := 3 <<< 6

def ttbSpgtdAp2Mask : ℕ := 3 <<< 8

def ttbSpgtdAp3Mask : ℕ := 3 <<< 10

def ttbSpgtdCacheable : ℕ := 1 <<< 3

def ttbSpgtdBufferable : ℕ := 1 <<< 2

def ttbSpgdtSmallPage : ℕ := 2

/-- `ALIGN`, for a power of two. -/
def align (p alignbytes : ℕ) : ℕ := p / alignbytes * alignbytes

/-- `virt_to_phys`. -/
def virtToPhys (x : ℕ) : ℕ := (x + 2 ^ 32 - pageOffset + physOffset) % 2 ^ 32

/-- `phys_to_virt`. -/
def physToVirt (x : ℕ) : ℕ := (x + 2 ^ 32 - physOffset + pageOffset) % 2 ^ 32

/-- `pgd_index`. -/
def pgdIndex (addr : ℕ) : ℕ := addr / sectionSize

/-- `pgd_offset`. -/
def pgdOffset (pgd addr : ℕ) : ℕ := pgd + 4 * pgdIndex addr

/-- `pte_offset`. -/
def pteOffset (pt virtual : ℕ) : ℕ := pt + 4 * (virtual % sectionSize / pageSize)

/-- `MAP_DESC_TYPE`, and the values it does not name. -/
inductive MapDescType
  | section
  | page
  | other (n : ℕ)
  deriving DecidableEq, Repr

/-- `struct map_desc`. -/
structure MapDesc where
  paddr : UInt32
  vaddr : UInt32
  length : UInt32
  attr : UInt32
  type : MapDescType

/-- The memory by words, the heap `kmalloc` works on, the entries of the directory written so
far and the messages. -/
structure Mmu where
  mem : ℕ → UInt32
  heap : Heap
  pgdWrites : List ℕ
  printed : List String

/-- A store of a word. -/
def setWord (m : ℕ → UInt32) (a w : ℕ) : ℕ → UInt32 := Function.update m a (UInt32.ofNat w)

/-- `arm_mmu_map_section`. -/
def armMmuMapSection (s : Mmu) (vaddr paddr flags : ℕ) : Mmu :=
  let ap := flags &&& ttbAp
  let cb := (flags &&& ttbCacheable) ||| (flags &&& ttbBufferable)
  { s with
    mem := setWord s.mem (pgdOffset kernelPgd vaddr)
      (paddr / sectionSize * sectionSize ||| ap ||| cb ||| ttbSd)
    pgdWrites := s.pgdWrites ++ [pgdIndex vaddr] }

/-- The loop of `arm_mmu_map_page`: the four entries from `pgd` on point to the tables at `pt`. -/
def setTables (m : ℕ → UInt32) (pgd pt : ℕ) : ℕ → UInt32 :=
  (List.range 4).foldl
    (fun m i => setWord m (pgd + 4 * i) (virtToPhys pt + i * 256 * 4 ||| ttbCptd)) m

/-- The word `arm_mmu_map_page` stores for the page. -/
def pteWord (paddr flags : ℕ) : ℕ :=
  let ap := (flags &&& ttbSpgtdAp0Mask) ||| (flags &&& ttbSpgtdAp1Mask) |||
    (flags &&& ttbSpgtdAp2Mask) ||| (flags &&& ttbSpgtdAp3Mask)
  let cb := (flags &&& ttbSpgtdCacheable) ||| (flags &&& ttbSpgtdBufferable)
  paddr / pageSize * pageSize ||| ap ||| cb ||| ttbSpgdtSmallPage

/-- `arm_mmu_map_page`. -/
def armMmuMapPage (s : Mmu) (vaddr paddr flags : ℕ) : Mmu :=
  let pgd := align (pgdOffset kernelPgd vaddr) 4
  let s :=
    if pgd ≠ 0 then
      let r := kmalloc s.heap pageSize
      { s with
        heap := r.2
        mem := setTables s.mem pgd (align (r.1.getD 0) 1024)
        pgdWrites := s.pgdWrites ++ (List.range 4).map fun i => (pgd - kernelPgd) / 4 + i }
    else s
  let pt := align (physToVirt (s.mem pgd).toNat) 1024
  { s with mem := setWord s.mem (pteOffset pt vaddr) (pteWord paddr flags) }

/-- The loops of `arm_mmu_create_mapping`; `none` when the fuel runs out. -/
def mapLoop (size stop : ℕ) (map : Mmu → ℕ → ℕ → Mmu) : ℕ → Mmu → ℕ → ℕ → Option Mmu
  | 0, _, _, _ => none
  | fuel + 1, s, vaddr, paddr =>
    if vaddr < stop then
      mapLoop size stop map fuel (map s vaddr paddr) ((vaddr + size) % 2 ^ 32)
        ((paddr + size) % 2 ^ 32)
    else some s

/-- `printk`. -/
def Mmu.print (s : Mmu) (msg : String) : Mmu := { s with printed := s.printed ++ [msg] }

/-- `arm_mmu_create_mapping`. -/
def armMmuCreateMapping (s : Mmu) (md : MapDesc) : Option Mmu :=
  let vaddr := md.vaddr.toNat
  let paddr := md.paddr.toNat
  let length := md.length.toNat
  let stop := (vaddr + length) % 2 ^ 32
  match md.type with
  | .section =>
    if paddr % sectionSize ≠ 0 ∨ vaddr % sectionSize ≠ 0 ∨ length % sectionSize ≠ 0 then
      some (s.print "%s %d: section address is not aligned\n")
    else
      mapLoop sectionSize stop (fun s v p => armMmuMapSection s v p md.attr.toNat) (stop + 1) s
        vaddr paddr
  | .page =>
    if paddr % pageSize ≠ 0 ∨ vaddr % pageSize ≠ 0 ∨ length % pageSize ≠ 0 then
      some (s.print "%s %d: page address is not aligned\n")
    else
      mapLoop pageSize stop (fun s v p => armMmuMapPage s v p md.attr.toNat) (stop + 1) s
        vaddr paddr
  | .other _ => some (s.print "%s %d: please give a valid map type\n")

/-! ### Single words -/

@[simp] theorem setWord_self (m : ℕ → UInt32) (a w : ℕ) : setWord m a w a = UInt32.ofNat w :=
  Function.update_self ..

theorem setWord_of_ne (m : ℕ → UInt32) {a x : ℕ} (w : ℕ) (h : x ≠ a) : setWord m a w x = m x :=
  Function.update_of_ne h _ _

/-- The main memory is mapped where it is. -/
theorem virtToPhys_eq {x : ℕ} (h : x < 2 ^ 32) : virtToPhys x = x := by
  unfold virtToPhys pageOffset physOffset
  omega

theorem physToVirt_eq {x : ℕ} (h : x < 2 ^ 32) : physToVirt x = x := by
  unfold physToVirt pageOffset physOffset
  omega

/-- The three masks of the word come to one. -/
theorem pteWord_eq (paddr flags : ℕ) :
    pteWord paddr flags = paddr / pageSize * pageSize ||| (flags &&& 0xffc) ||| 2 := by
  unfold pteWord
  simp only [← Nat.and_or_distrib_left, Nat.or_assoc]
  rfl

theorem pteWord_lt {paddr : ℕ} (flags : ℕ) (h : paddr < 2 ^ 32) : pteWord paddr flags < 2 ^ 32 := by
  rw [pteWord_eq]
  refine Nat.or_lt_two_pow (Nat.or_lt_two_pow ?_ ?_) (by decide)
  · unfold pageSize
    omega
  · exact Nat.and_lt_two_pow _ (by decide)

theorem pteWord_page (paddr flags : ℕ) : pteWord paddr flags / 2 ^ 12 = paddr / 2 ^ 12 := by
  have hmask : (flags &&& 0xffc) / 2 ^ 12 = 0 := by
    rw [Nat.and_div_two_pow]
    exact Nat.and_zero _
  rw [pteWord_eq, Nat.or_div_two_pow, Nat.or_div_two_pow, hmask]
  unfold pageSize
  simp

theorem field_pteWord_zero (paddr flags : ℕ) : field (pteWord paddr flags) 0 = 2 := by
  have hpage : field (paddr / pageSize * pageSize) 0 = 0 := by
    unfold field pageSize
    omega
  rw [pteWord_eq, field_or, field_or, field_and, hpage]
  simp [field]

/-- The permission and cache bits of the word are those asked for. -/
theorem field_pteWord (paddr flags : ℕ) {k : ℕ} (h₁ : 1 ≤ k) (h₂ : k ≤ 5) :
    field (pteWord paddr flags) (2 * k) = field flags (2 * k) := by
  have hpage : field (paddr / pageSize * pageSize) (2 * k) = 0 := by
    unfold field pageSize
    interval_cases k <;> omega
  have hmask : field 0xffc (2 * k) = 3 := by
    interval_cases k <;> rfl
  have htype : field 2 (2 * k) = 0 := by
    interval_cases k <;> rfl
  rw [pteWord_eq, field_or, field_or, field_and, hpage, hmask, htype, field_and_three]
  simp

/-- The word maps the page. -/
theorem coarseEntry_pteWord (paddr flags v : ℕ) :
    coarseEntry 0 (pteWord paddr flags) v = some ⟨paddr / 2 ^ 12 * 2 ^ 12 + v % 2 ^ 12,
      field flags (4 + 2 * (v / 2 ^ 10 % 4)), field flags 2, 0⟩ := by
  have hap := field_pteWord paddr flags (k := 2 + v / 2 ^ 10 % 4) (by omega) (by omega)
  have hcb := field_pteWord paddr flags (k := 1) (by omega) (by omega)
  rw [Nat.mul_add] at hap
  unfold coarseEntry smallPage
  simp only [field_pteWord_zero, pteWord_page]
  rw [hap, hcb]

/-! ### One page -/

theorem align_pgdOffset (vaddr : ℕ) :
    align (pgdOffset kernelPgd vaddr) 4 = descriptorAt kernelPgd vaddr := by
  unfold align pgdOffset pgdIndex descriptorAt kernelPgd pageOffset sectionSize
  omega

theorem descriptorAt_ne_zero (vaddr : ℕ) : descriptorAt kernelPgd vaddr ≠ 0 := by
  unfold descriptorAt kernelPgd pageOffset
  omega

theorem descriptorAt_index (vaddr : ℕ) :
    (descriptorAt kernelPgd vaddr - kernelPgd) / 4 = vaddr / 2 ^ 20 := by
  unfold descriptorAt
  omega

theorem armMmuMapPage_heap (s : Mmu) (vaddr paddr flags : ℕ) :
    (armMmuMapPage s vaddr paddr flags).heap = (kmalloc s.heap pageSize).2 := by
  unfold armMmuMapPage
  simp only [align_pgdOffset, if_pos (descriptorAt_ne_zero vaddr)]

/-- The entries one page writes. -/
theorem armMmuMapPage_pgdWrites (s : Mmu) (vaddr paddr flags : ℕ) :
    (armMmuMapPage s vaddr paddr flags).pgdWrites =
      s.pgdWrites ++ (List.range 4).map fun i => vaddr / 2 ^ 20 + i := by
  unfold armMmuMapPage
  simp only [align_pgdOffset, if_pos (descriptorAt_ne_zero vaddr), descriptorAt_index]

theorem setTables_entry (m : ℕ → UInt32) {pgd pt i : ℕ} (hpt : pt % 2 ^ 10 = 0) (h : pt < 2 ^ 32)
    (hi : i < 4) : setTables m pgd pt (pgd + 4 * i) = UInt32.ofNat (pt + 2 ^ 10 * i + 1) := by
  have hword : virtToPhys pt + i * 256 * 4 ||| ttbCptd = pt + 2 ^ 10 * i + 1 := by
    rw [virtToPhys_eq h, show pt + i * 256 * 4 = 2 ^ 1 * (pt / 2 + 2 ^ 9 * i) by omega,
      ttbCptd, ← Nat.two_pow_add_eq_or_of_lt (by decide)]
    omega
  rw [← hword]
  unfold setTables
  interval_cases i <;> simp [List.range_succ, setWord_of_ne]

theorem setTables_of_ne (m : ℕ → UInt32) {pgd pt x : ℕ} (h : ∀ i < 4, x ≠ pgd + 4 * i) :
    setTables m pgd pt x = m x := by
  have h₀ := h 0 (by decide)
  have h₁ := h 1 (by decide)
  have h₂ := h 2 (by decide)
  have h₃ := h 3 (by decide)
  unfold setTables
  simp only [List.range_succ, List.range_zero, List.nil_append, List.foldl_append, List.foldl_cons,
    List.foldl_nil]
  rw [setWord_of_ne _ _ h₃, setWord_of_ne _ _ h₂, setWord_of_ne _ _ h₁, setWord_of_ne _ _ h₀]

/-- A byte of the page directory. -/
def InDirectory (x : ℕ) : Prop := kernelPgd ≤ x ∧ x < kernelPgd + 4 * 4096

/-- The directory and the tables it points to lie apart from each other and from the memory the
heap may hand out. -/
structure Mmu.Apart (s : Mmu) : Prop where
  heap : s.heap.InOrder
  directory : ∀ x, InDirectory x → ¬ s.heap.Avail x
  tables : ∀ v < 2 ^ 32, ∀ x, InTable (s.mem (descriptorAt kernelPgd v)).toNat x →
    ¬ s.heap.Avail x ∧ ¬ InDirectory x

/-- What `kmalloc(PAGE_SIZE)` does when it succeeds: the page at `a` was available and no longer
is, and nothing has become available. -/
structure PageTaken (h : Heap) (a : ℕ) (h' : Heap) : Prop where
  call : kmalloc h pageSize = (some a, h')
  heap : h'.InOrder
  aligned : a % 2 ^ 12 = 0
  fits : a + 2 ^ 12 ≤ 2 ^ 32
  sub : ∀ x, h'.Avail x → h.Avail x
  fresh : ∀ x, a ≤ x → x < a + 2 ^ 12 → h.Avail x ∧ ¬ h'.Avail x

theorem Heap.InOrder.pageTaken {h h' : Heap} {a : ℕ} (hin : h.InOrder)
    (hr : kmalloc h pageSize = (some a, h')) : PageTaken h a h' := by
  obtain ⟨hheap, haligned, hfits, hbytes⟩ := hin.kmalloc_pages (by decide) hr
  exact ⟨hr, hheap, haligned, hfits, fun x => (hbytes x).1, fun x => (hbytes x).2⟩

section OnePage

variable {s : Mmu} {vaddr paddr flags a : ℕ} {h' : Heap}

/-- `arm_mmu_map_page` when `kmalloc` succeeds. -/
theorem armMmuMapPage_eq (ht : PageTaken s.heap a h') :
    armMmuMapPage s vaddr paddr flags =
      { s with
        mem := setWord (setTables s.mem (descriptorAt kernelPgd vaddr) a)
          (a + 4 * (vaddr / 2 ^ 12 % 256)) (pteWord paddr flags)
        heap := h'
        pgdWrites := s.pgdWrites ++ (List.range 4).map fun i => vaddr / 2 ^ 20 + i } := by
  have ha := ht.aligned
  have hfits := ht.fits
  have halign : align a 1024 = a := by
    unfold align
    omega
  have hfirst : (setTables s.mem (descriptorAt kernelPgd vaddr) a
      (descriptorAt kernelPgd vaddr)).toNat = a + 1 := by
    have hentry : setTables s.mem (descriptorAt kernelPgd vaddr) a
        (descriptorAt kernelPgd vaddr + 4 * 0) = UInt32.ofNat (a + 2 ^ 10 * 0 + 1) :=
      setTables_entry s.mem (by omega) (by omega) (by decide)
    simp only [Nat.mul_zero, Nat.add_zero] at hentry
    rw [hentry, UInt32.toNat_ofNat_of_lt' (show _ < 2 ^ 32 by omega)]
  have hpt : align (physToVirt (a + 1)) 1024 = a := by
    rw [physToVirt_eq (by omega)]
    unfold align
    omega
  have hpte : pteOffset a vaddr = a + 4 * (vaddr / 2 ^ 12 % 256) := by
    unfold pteOffset sectionSize pageSize
    omega
  unfold armMmuMapPage
  simp only [align_pgdOffset, if_pos (descriptorAt_ne_zero vaddr), ht.call, Option.getD_some, halign,
    descriptorAt_index, hfirst, hpt, hpte]

/-- The four entries of the directory. -/
theorem armMmuMapPage_entry (hs : s.Apart) (ht : PageTaken s.heap a h')
    (hv : vaddr / 2 ^ 20 ≤ 4092) {v : ℕ} (h₁ : vaddr / 2 ^ 20 ≤ v / 2 ^ 20)
    (h₂ : v / 2 ^ 20 ≤ vaddr / 2 ^ 20 + 3) :
    ((armMmuMapPage s vaddr paddr flags).mem (descriptorAt kernelPgd v)).toNat =
      a + 2 ^ 10 * (v / 2 ^ 20 - vaddr / 2 ^ 20) + 1 := by
  have ha := ht.aligned
  have hfits := ht.fits
  have hne : descriptorAt kernelPgd v ≠ a + 4 * (vaddr / 2 ^ 12 % 256) := by
    intro heq
    have hdir : InDirectory (descriptorAt kernelPgd v) := by
      unfold InDirectory descriptorAt
      omega
    exact hs.directory _ hdir (ht.fresh _ (by omega) (by omega)).1
  have hentry : descriptorAt kernelPgd v =
      descriptorAt kernelPgd vaddr + 4 * (v / 2 ^ 20 - vaddr / 2 ^ 20) := by
    unfold descriptorAt
    omega
  rw [armMmuMapPage_eq ht]
  simp only [setWord_of_ne _ _ hne]
  rw [hentry, setTables_entry _ (by omega) (by omega) (by omega),
    UInt32.toNat_ofNat_of_lt' (show _ < 2 ^ 32 by omega)]

/-- The word for the page. -/
theorem armMmuMapPage_pte (ht : PageTaken s.heap a h') (hp : paddr < 2 ^ 32) :
    ((armMmuMapPage s vaddr paddr flags).mem (a + 4 * (vaddr / 2 ^ 12 % 256))).toNat =
      pteWord paddr flags := by
  rw [armMmuMapPage_eq ht]
  simp only [setWord_self]
  exact UInt32.toNat_ofNat_of_lt' (pteWord_lt flags hp)

/-- The other words. -/
theorem armMmuMapPage_of_ne (ht : PageTaken s.heap a h') {x : ℕ}
    (hpte : x ≠ a + 4 * (vaddr / 2 ^ 12 % 256))
    (hdir : ∀ i < 4, x ≠ kernelPgd + 4 * (vaddr / 2 ^ 20 + i)) :
    (armMmuMapPage s vaddr paddr flags).mem x = s.mem x := by
  rw [armMmuMapPage_eq ht]
  simp only [setWord_of_ne _ _ hpte]
  apply setTables_of_ne _
  intro i hi
  have := hdir i hi
  unfold descriptorAt
  omega

/-- Memory that stays available is not written. -/
theorem armMmuMapPage_avail (hs : s.Apart) (ht : PageTaken s.heap a h')
    (hv : vaddr / 2 ^ 20 ≤ 4092) {x : ℕ} (hx : h'.Avail x) :
    (armMmuMapPage s vaddr paddr flags).mem x = s.mem x := by
  refine armMmuMapPage_of_ne ht ?_ fun i hi => ?_
  · rintro rfl
    exact (ht.fresh _ (by omega) (by omega)).2 hx
  · rintro rfl
    exact hs.directory _ ⟨by omega, by omega⟩ (ht.sub _ hx)

/-- The descriptor of an address outside the four megabytes. -/
theorem armMmuMapPage_descriptor (hs : s.Apart) (ht : PageTaken s.heap a h') {v : ℕ}
    (hlt : v < 2 ^ 32) (hv : v / 2 ^ 20 < vaddr / 2 ^ 20 ∨ vaddr / 2 ^ 20 + 3 < v / 2 ^ 20) :
    (armMmuMapPage s vaddr paddr flags).mem (descriptorAt kernelPgd v) =
      s.mem (descriptorAt kernelPgd v) := by
  have hdir : InDirectory (descriptorAt kernelPgd v) := by
    unfold InDirectory descriptorAt
    omega
  refine armMmuMapPage_of_ne ht ?_ fun i hi => ?_
  · intro heq
    have := ht.fresh (descriptorAt kernelPgd v) (by omega) (by omega)
    exact hs.directory _ hdir this.1
  · unfold descriptorAt
    omega

/-- The word the fresh table at `a` holds for the address `v` of the four megabytes. -/
def tableWord (a vaddr v : ℕ) : ℕ :=
  a + 2 ^ 10 * (v / 2 ^ 20 - vaddr / 2 ^ 20) + 4 * (v / 2 ^ 12 % 256)

/-- **One page.**  The addresses of the four megabytes are looked up in the fresh tables; the
others lead where they led. -/
theorem translateAddr_armMmuMapPage (hs : s.Apart) (ht : PageTaken s.heap a h')
    (hv : vaddr / 2 ^ 20 ≤ 4092) (hp : paddr < 2 ^ 32) {v : ℕ} (hlt : v < 2 ^ 32) :
    translateAddr (armMmuMapPage s vaddr paddr flags).mem kernelPgd v =
      if vaddr / 2 ^ 20 ≤ v / 2 ^ 20 ∧ v / 2 ^ 20 ≤ vaddr / 2 ^ 20 + 3 then
        coarseEntry 0 (if v / 2 ^ 12 = vaddr / 2 ^ 12 then pteWord paddr flags
          else (s.mem (tableWord a vaddr v)).toNat) v
      else translateAddr s.mem kernelPgd v := by
  have ha := ht.aligned
  split
  · rename_i hin
    set i := v / 2 ^ 20 - vaddr / 2 ^ 20 with hi
    have hentry : ((armMmuMapPage s vaddr paddr flags).mem (descriptorAt kernelPgd v)).toNat =
        a + 2 ^ 10 * i + 1 := armMmuMapPage_entry hs ht hv hin.1 hin.2
    rw [translateAddr_coarse (by omega) hentry]
    congr 1
    split
    · rename_i hpage
      rw [show a + 2 ^ 10 * i + 4 * (v / 2 ^ 12 % 256) = a + 4 * (vaddr / 2 ^ 12 % 256) by omega,
        armMmuMapPage_pte ht hp]
    · rename_i hpage
      rw [armMmuMapPage_of_ne ht (by omega) fun j hj heq => ?_]
      · rfl
      · have := ht.fresh (kernelPgd + 4 * (vaddr / 2 ^ 20 + j)) (by omega) (by omega)
        exact hs.directory _ ⟨by omega, by omega⟩ this.1
  · rename_i hout
    refine translateAddr_congr (armMmuMapPage_descriptor hs ht hlt (by omega)) ?_
    intro x hx
    obtain ⟨havail, hdir⟩ := hs.tables v hlt x hx
    refine armMmuMapPage_of_ne ht (fun heq => ?_) fun j hj heq => ?_
    · exact havail (ht.fresh x (by omega) (by omega)).1
    · exact hdir ⟨by omega, by omega⟩

/-- The directory, the tables in use and the free memory stay apart. -/
theorem Mmu.Apart.armMmuMapPage (hs : s.Apart) (ht : PageTaken s.heap a h')
    (hv : vaddr / 2 ^ 20 ≤ 4092) : (armMmuMapPage s vaddr paddr flags).Apart := by
  have ha := ht.aligned
  have hheap : (YakOS.armMmuMapPage s vaddr paddr flags).heap = h' := by
    rw [armMmuMapPage_heap, ht.call]
  refine ⟨?_, ?_, ?_⟩
  · rw [hheap]
    exact ht.heap
  · intro x hx
    rw [hheap]
    exact fun havail => hs.directory x hx (ht.sub x havail)
  · intro v hlt x hx
    rw [hheap]
    by_cases hin : vaddr / 2 ^ 20 ≤ v / 2 ^ 20 ∧ v / 2 ^ 20 ≤ vaddr / 2 ^ 20 + 3
    · rw [armMmuMapPage_entry hs ht hv hin.1 hin.2, inTable_coarse (by omega)] at hx
      obtain ⟨havail, htaken⟩ := ht.fresh x (by omega) (by omega)
      exact ⟨htaken, fun hdir => hs.directory x hdir havail⟩
    · rw [armMmuMapPage_descriptor hs ht hlt (by omega)] at hx
      obtain ⟨havail, hdir⟩ := hs.tables v hlt x hx
      exact ⟨fun hx => havail (ht.sub x hx), hdir⟩

end OnePage

/-! ### The loop -/

/-- The heap after `k` calls of `kmalloc(PAGE_SIZE)`. -/
def heapAfter (h : Heap) : ℕ → Heap
  | 0 => h
  | k + 1 => (kmalloc (heapAfter h k) pageSize).2

/-- What the call number `k` of `kmalloc(PAGE_SIZE)` returns. -/
def tableAt (h : Heap) (k : ℕ) : ℕ := ((kmalloc (heapAfter h k) pageSize).1).getD 0

/-- The first `n` calls of `kmalloc(PAGE_SIZE)` succeed. -/
def Allocates (h : Heap) (n : ℕ) : Prop := ∀ k < n, (kmalloc (heapAfter h k) pageSize).1 ≠ none

/-- The virtual address of the page number `k` of the range. -/
def MapDesc.pageAt (md : MapDesc) (k : ℕ) : ℕ := md.vaddr.toNat + 2 ^ 12 * k

/-- The number of pages of the range. -/
def MapDesc.pages (md : MapDesc) : ℕ := md.length.toNat / 2 ^ 12

/-- The state after the first `k` pages. -/
def mapPages (s : Mmu) (md : MapDesc) : ℕ → Mmu
  | 0 => s
  | k + 1 => armMmuMapPage (mapPages s md k) (md.pageAt k)
      ((md.paddr.toNat + 2 ^ 12 * k) % 2 ^ 32) md.attr.toNat

/-- A page descriptor as the property asks for: aligned, and ending below the last address. -/
structure MapDesc.PageRange (md : MapDesc) : Prop where
  type : md.type = .page
  paddr : md.paddr.toNat % 2 ^ 12 = 0
  vaddr : md.vaddr.toNat % 2 ^ 12 = 0
  length : md.length.toNat % 2 ^ 12 = 0
  fits : md.vaddr.toNat + md.length.toNat < 2 ^ 32

/-- **The loop of `arm_mmu_create_mapping`**, over `n` pieces of the range: `state k` is the state with
the first `k` of them mapped. -/
theorem mapLoop_run {size stop vaddr n : ℕ} (paddr : ℕ) (map : Mmu → ℕ → ℕ → Mmu) {state : ℕ → Mmu}
    (hsize : 0 < size) (hstop : vaddr + size * n = stop) (hlt : stop < 2 ^ 32)
    (hstep : ∀ k, state (k + 1) = map (state k) (vaddr + size * k) ((paddr + size * k) % 2 ^ 32))
    {k fuel : ℕ} (hk : k ≤ n) (hfuel : n < k + fuel) :
    mapLoop size stop map fuel (state k) (vaddr + size * k) ((paddr + size * k) % 2 ^ 32) =
      some (state n) := by
  induction fuel generalizing k with
  | zero => omega
  | succ fuel ih =>
    unfold mapLoop
    rcases hk.eq_or_lt with rfl | hlast
    · rw [if_neg (by omega)]
    · have hnext : size * k + size ≤ size * n := by
        rw [← Nat.mul_succ]
        exact Nat.mul_le_mul_left size hlast
      have hv : (vaddr + size * k + size) % 2 ^ 32 = vaddr + size * (k + 1) := by
        rw [Nat.mul_succ, Nat.mod_eq_of_lt (by omega)]
        omega
      have hp : ((paddr + size * k) % 2 ^ 32 + size) % 2 ^ 32 = (paddr + size * (k + 1)) % 2 ^ 32 := by
        rw [Nat.mod_add_mod, Nat.mul_succ, Nat.add_assoc]
      rw [if_pos (by omega), hv, hp, ← hstep]
      exact ih hlast (by omega)

section Loop

variable {s : Mmu} {md : MapDesc}

/-- The whole call returns, with every page mapped in turn. -/
theorem armMmuCreateMapping_eq (hmd : md.PageRange) :
    armMmuCreateMapping s md = some (mapPages s md md.pages) := by
  have haligned : ¬ (md.paddr.toNat % pageSize ≠ 0 ∨ md.vaddr.toNat % pageSize ≠ 0 ∨
      md.length.toNat % pageSize ≠ 0) := by
    have h₁ := hmd.paddr
    have h₂ := hmd.vaddr
    have h₃ := hmd.length
    unfold pageSize
    omega
  have hpaddr := UInt32.toNat_lt md.paddr
  have hstop : md.vaddr.toNat + 2 ^ 12 * md.pages = md.vaddr.toNat + md.length.toNat := by
    have := hmd.length
    unfold MapDesc.pages
    omega
  have hfuel : md.pages < 0 + (md.vaddr.toNat + md.length.toNat + 1) := by omega
  have hstep : ∀ k, mapPages s md (k + 1) = armMmuMapPage (mapPages s md k)
      (md.vaddr.toNat + pageSize * k) ((md.paddr.toNat + pageSize * k) % 2 ^ 32) md.attr.toNat :=
    fun _ => rfl
  have hloop := mapLoop_run md.paddr.toNat (fun s v p => armMmuMapPage s v p md.attr.toNat)
    (by decide : 0 < pageSize) hstop hmd.fits hstep (Nat.zero_le _) hfuel
  unfold armMmuCreateMapping
  simp only [hmd.type, if_neg haligned, Nat.mod_eq_of_lt hmd.fits]
  rw [← hloop]
  simp only [mapPages, Nat.mul_zero, Nat.add_zero, Nat.mod_eq_of_lt hpaddr]

theorem mapPages_heap (k : ℕ) : (mapPages s md k).heap = heapAfter s.heap k := by
  induction k with
  | zero => rfl
  | succ k ih => rw [mapPages, armMmuMapPage_heap, ih, heapAfter]

/-- The entries the first `k` pages write. -/
theorem mapPages_pgdWrites (k : ℕ) : (mapPages s md k).pgdWrites = s.pgdWrites ++
    (List.range k).flatMap fun j => (List.range 4).map fun i => md.pageAt j / 2 ^ 20 + i := by
  induction k with
  | zero => simp [mapPages]
  | succ k ih =>
    rw [mapPages, armMmuMapPage_pgdWrites, ih, List.append_assoc, @List.range_succ k]
    simp

/-- The heap in the loop: in order, and with less and less available. -/
theorem Heap.InOrder.heapAfter {h : Heap} {n k : ℕ} (hin : h.InOrder) (halloc : Allocates h n)
    (hk : k ≤ n) : (heapAfter h k).InOrder ∧ ∀ x, (heapAfter h k).Avail x → h.Avail x := by
  induction k with
  | zero => exact ⟨hin, fun _ hx => hx⟩
  | succ k ih =>
    obtain ⟨hheap, hsub⟩ := ih (by omega)
    obtain ⟨a, ha⟩ := Option.ne_none_iff_exists'.mp (halloc k (by omega))
    have ht : PageTaken (YakOS.heapAfter h k) a (YakOS.heapAfter h (k + 1)) :=
      hheap.pageTaken (Prod.ext ha rfl)
    exact ⟨ht.heap, fun x hx => hsub x (ht.sub x hx)⟩

/-- The call number `k`. -/
theorem Heap.InOrder.pageTaken_at {h : Heap} {n k : ℕ} (hin : h.InOrder) (halloc : Allocates h n)
    (hk : k < n) : PageTaken (YakOS.heapAfter h k) (tableAt h k) (YakOS.heapAfter h (k + 1)) := by
  refine (hin.heapAfter halloc hk.le).1.pageTaken ?_
  obtain ⟨a, ha⟩ := Option.ne_none_iff_exists'.mp (halloc k hk)
  rw [tableAt, ha]
  exact Prod.ext ha rfl

/-- The four megabytes the page number `k` changes have the address `v`. -/
def MapDesc.Covers (md : MapDesc) (k v : ℕ) : Prop :=
  md.pageAt k / 2 ^ 20 ≤ v / 2 ^ 20 ∧ v / 2 ^ 20 ≤ md.pageAt k / 2 ^ 20 + 3

instance (md : MapDesc) (k v : ℕ) : Decidable (md.Covers k v) := inferInstanceAs (Decidable (_ ∧ _))

/-- Of the first `n` pages, the page number `k` is the last to change the megabyte of `v`. -/
def MapDesc.Owner (md : MapDesc) (n k v : ℕ) : Prop :=
  k < n ∧ md.Covers k v ∧ ∀ j < n, k < j → v / 2 ^ 20 < md.pageAt j / 2 ^ 20

/-- Where the table of the page number `k` leads the address `v`: the page itself is in it, the
rest is what the memory held. -/
def tableLeads (s : Mmu) (md : MapDesc) (k v : ℕ) : Option Translation :=
  coarseEntry 0
    (if v / 2 ^ 12 = md.pageAt k / 2 ^ 12 then
      pteWord ((md.paddr.toNat + 2 ^ 12 * k) % 2 ^ 32) md.attr.toNat
    else (s.mem (tableWord (tableAt s.heap k) (md.pageAt k) v)).toNat) v

theorem MapDesc.pageAt_mono (md : MapDesc) {j k : ℕ} (h : j ≤ k) :
    md.pageAt j / 2 ^ 20 ≤ md.pageAt k / 2 ^ 20 := by
  unfold MapDesc.pageAt
  omega

/-- A megabyte that is changed has a last page that changes it. -/
theorem MapDesc.exists_owner {n v : ℕ} (h : ∃ j < n, md.Covers j v) : ∃ k, md.Owner n k v := by
  induction n with
  | zero => simp at h
  | succ n ih =>
    obtain ⟨j, hj, hcov⟩ := h
    have hmono := md.pageAt_mono (show j ≤ n by omega)
    by_cases hn : md.pageAt n / 2 ^ 20 ≤ v / 2 ^ 20
    · refine ⟨n, Nat.lt_succ_self n, ⟨hn, ?_⟩, fun i hi hlt => by omega⟩
      have := hcov.2
      omega
    · have hne : j ≠ n := fun heq => hn (heq ▸ hcov.1)
      obtain ⟨k, hk, hkcov, hlast⟩ := ih ⟨j, by omega, hcov⟩
      refine ⟨k, by omega, hkcov, ?_⟩
      intro i hi hlt
      rcases Nat.lt_succ_iff_lt_or_eq.mp hi with hi | rfl
      · exact hlast i hi hlt
      · omega

/-- What is known after the first `k` pages. -/
structure Mapped (s : Mmu) (md : MapDesc) (k : ℕ) : Prop where
  apart : (mapPages s md k).Apart
  avail : ∀ x, (heapAfter s.heap k).Avail x → (mapPages s md k).mem x = s.mem x
  owner : ∀ v < 2 ^ 32, ∀ j, md.Owner k j v →
    translateAddr (mapPages s md k).mem kernelPgd v = tableLeads s md j v
  other : ∀ v < 2 ^ 32, (∀ j < k, ¬ md.Covers j v) →
    translateAddr (mapPages s md k).mem kernelPgd v = translateAddr s.mem kernelPgd v

/-- One more page. -/
theorem Mapped.step {k : ℕ} (h : Mapped s md k)
    (ht : PageTaken (heapAfter s.heap k) (tableAt s.heap k) (heapAfter s.heap (k + 1)))
    (hroom : md.pageAt k / 2 ^ 20 ≤ 4092) : Mapped s md (k + 1) := by
  have hcall : PageTaken (mapPages s md k).heap (tableAt s.heap k) (heapAfter s.heap (k + 1)) := by
    rw [mapPages_heap]
    exact ht
  have hpaddr : (md.paddr.toNat + 2 ^ 12 * k) % 2 ^ 32 < 2 ^ 32 := Nat.mod_lt _ (by decide)
  have htrans : ∀ v < 2 ^ 32, translateAddr (mapPages s md (k + 1)).mem kernelPgd v =
      if md.Covers k v then tableLeads s md k v
      else translateAddr (mapPages s md k).mem kernelPgd v := by
    intro v hv
    rw [show mapPages s md (k + 1) = armMmuMapPage (mapPages s md k) (md.pageAt k)
      ((md.paddr.toNat + 2 ^ 12 * k) % 2 ^ 32) md.attr.toNat from rfl,
      translateAddr_armMmuMapPage h.apart hcall hroom hpaddr hv]
    by_cases hcov : md.Covers k v
    · -- the fresh table was available so far, so it holds what it held at the start
      have hfresh := ht.fresh (tableWord (tableAt s.heap k) (md.pageAt k) v)
        (by unfold tableWord; omega) (by have := hcov.2; unfold tableWord; omega)
      rw [if_pos hcov]
      refine (if_pos hcov).trans ?_
      rw [h.avail _ hfresh.1]
      rfl
    · rw [if_neg hcov]
      exact if_neg hcov
  refine ⟨h.apart.armMmuMapPage hcall hroom, fun x hx => ?_, fun v hv j hown => ?_,
    fun v hv hno => ?_⟩
  · exact (armMmuMapPage_avail h.apart hcall hroom hx).trans (h.avail x (ht.sub x hx))
  · -- the last page that covers the address is this one, or it was so before
    obtain ⟨hj, hcov, hlast⟩ := hown
    rw [htrans v hv]
    rcases Nat.lt_succ_iff_lt_or_eq.mp hj with hj | rfl
    · have hbefore := hlast k (Nat.lt_succ_self k) hj
      rw [if_neg fun hk => by have := hk.1; omega]
      exact h.owner v hv j ⟨hj, hcov, fun i hi hlt => hlast i (by omega) hlt⟩
    · rw [if_pos hcov]
  · rw [htrans v hv, if_neg (hno k (Nat.lt_succ_self k))]
    exact h.other v hv fun j hj => hno j (by omega)

/-- All the pages, when the last one has room in the directory. -/
theorem mapped_run (hs : s.Apart) {n : ℕ} (halloc : Allocates s.heap n)
    (hroom : ∀ k < n, md.pageAt k / 2 ^ 20 ≤ 4092) {k : ℕ} (hk : k ≤ n) : Mapped s md k := by
  induction k with
  | zero =>
    exact ⟨hs, fun _ _ => rfl, fun v hv j hown => absurd hown.1 (Nat.not_lt_zero j), fun _ _ _ => rfl⟩
  | succ k ih =>
    have hmapped := ih (by omega)
    exact hmapped.step (hs.heap.pageTaken_at halloc (by omega)) (hroom k (by omega))

end Loop

/-! ### The promise -/

/-- The range of virtual addresses. -/
def MapDesc.Has (md : MapDesc) (v : ℕ) : Prop :=
  md.vaddr.toNat ≤ v ∧ v < md.vaddr.toNat + md.length.toNat

instance (md : MapDesc) (v : ℕ) : Decidable (md.Has v) := inferInstanceAs (Decidable (_ ∧ _))

/-- Where the descriptor asks an address of its range to lead. -/
def MapDesc.requested (md : MapDesc) (v : ℕ) : Translation :=
  ⟨(md.paddr.toNat + (v - md.vaddr.toNat)) % 2 ^ 32, field md.attr.toNat (4 + 2 * (v / 2 ^ 10 % 4)),
    field md.attr.toNat 2, 0⟩

/-- Where an address has to lead after the call: as requested in the range, as before outside. -/
def asked (s : Mmu) (md : MapDesc) (v : ℕ) : Option Translation :=
  if md.Has v then some (md.requested v) else translateAddr s.mem kernelPgd v

/-- The call returns, every address leads where it has to, and no entry beyond the directory is
written. -/
def MapsRange (s : Mmu) (md : MapDesc) : Prop :=
  ∃ s' l, armMmuCreateMapping s md = some s' ∧
    (∀ v < 2 ^ 32, translateAddr s'.mem kernelPgd v = asked s md v) ∧
    s'.pgdWrites = s.pgdWrites ++ l ∧ ∀ i ∈ l, i < 4096

/-- The tables, as `kmalloc` returns them, hold for each address of the changed megabytes but those of
the page mapped last in the megabyte a word that leads where the address has to lead. -/
def FreshOk (s : Mmu) (md : MapDesc) : Prop :=
  ∀ k v, md.Owner md.pages k v → v / 2 ^ 12 ≠ md.pageAt k / 2 ^ 12 →
    coarseEntry 0 (s.mem (tableWord (tableAt s.heap k) (md.pageAt k) v)).toNat v = asked s md v

section Promise

variable {s : Mmu} {md : MapDesc}

/-- The page itself is mapped as requested. -/
theorem tableLeads_page (hmd : md.PageRange) {k v : ℕ} (hk : k < md.pages)
    (hv : v / 2 ^ 12 = md.pageAt k / 2 ^ 12) : tableLeads s md k v = asked s md v := by
  have hpaddr := hmd.paddr
  have hvaddr := hmd.vaddr
  have hhas : md.Has v := by
    unfold MapDesc.Has
    unfold MapDesc.pageAt at hv
    unfold MapDesc.pages at hk
    omega
  have haddr : (md.paddr.toNat + 2 ^ 12 * k) % 2 ^ 32 / 2 ^ 12 * 2 ^ 12 + v % 2 ^ 12 =
      (md.paddr.toNat + (v - md.vaddr.toNat)) % 2 ^ 32 := by
    unfold MapDesc.pageAt at hv
    omega
  unfold tableLeads asked MapDesc.requested
  rw [if_pos hv, if_pos hhas, coarseEntry_pteWord, haddr]

/-- An address outside the changed megabytes is outside the range. -/
theorem not_has_of_not_covers {v : ℕ} (hmd : md.PageRange) (h : ∀ j < md.pages, ¬ md.Covers j v) :
    ¬ md.Has v := by
  rintro ⟨h₁, h₂⟩
  have hvaddr := hmd.vaddr
  have hlen := hmd.length
  refine h ((v - md.vaddr.toNat) / 2 ^ 12) ?_ ⟨?_, ?_⟩
  · unfold MapDesc.pages
    omega
  · unfold MapDesc.pageAt
    omega
  · unfold MapDesc.pageAt
    omega

/-- **One state.** -/
theorem mapsRange_iff (hs : s.Apart) (hmd : md.PageRange) (halloc : Allocates s.heap md.pages) :
    MapsRange s md ↔ md.length.toNat = 0 ∨
      (md.pageAt (md.pages - 1) / 2 ^ 20 ≤ 4092 ∧ FreshOk s md) := by
  have hlen := hmd.length
  have hfits := hmd.fits
  unfold MapsRange
  rw [armMmuCreateMapping_eq hmd]
  constructor
  · rintro ⟨s', l, hs', htrans, hwrites, hl⟩
    obtain rfl := Option.some.inj hs'
    by_cases hzero : md.length.toNat = 0
    · exact Or.inl hzero
    have hpages : 0 < md.pages := by
      unfold MapDesc.pages
      omega
    rw [mapPages_pgdWrites] at hwrites
    obtain rfl := List.append_cancel_left hwrites
    -- each page writes four entries, which all lie in the directory
    have hroom : ∀ k < md.pages, md.pageAt k / 2 ^ 20 ≤ 4092 := by
      intro k hk
      have := hl (md.pageAt k / 2 ^ 20 + 3) (List.mem_flatMap.mpr
        ⟨k, List.mem_range.mpr hk, List.mem_map.mpr ⟨3, by decide, rfl⟩⟩)
      omega
    refine Or.inr ⟨hroom _ (by omega), ?_⟩
    intro k v hown hpage
    have hv : v < 2 ^ 32 := by
      have h₁ := hown.2.1.2
      have h₂ := hroom k hown.1
      omega
    have hleads := (mapped_run hs halloc hroom le_rfl).owner v hv k hown
    rw [htrans v hv, tableLeads, if_neg hpage] at hleads
    exact hleads.symm
  -- no page is mapped, or each one as the last table that covers it says
  · rintro (hzero | ⟨hlast, hfresh⟩)
    · have hpages : md.pages = 0 := by
        unfold MapDesc.pages
        omega
      refine ⟨_, [], rfl, ?_, ?_, by simp⟩
      · intro v _
        rw [hpages, asked, if_neg (by unfold MapDesc.Has; omega)]
        rfl
      · rw [hpages, List.append_nil]
        rfl
    · have hroom : ∀ k < md.pages, md.pageAt k / 2 ^ 20 ≤ 4092 := fun k hk =>
        (md.pageAt_mono (by omega)).trans hlast
      have hmapped := mapped_run hs halloc hroom le_rfl
      refine ⟨_, _, rfl, ?_, mapPages_pgdWrites _, ?_⟩
      · intro v hv
        by_cases hcov : ∃ j < md.pages, md.Covers j v
        · obtain ⟨k, hown⟩ := MapDesc.exists_owner hcov
          rw [hmapped.owner v hv k hown]
          by_cases hpage : v / 2 ^ 12 = md.pageAt k / 2 ^ 12
          · exact tableLeads_page hmd hown.1 hpage
          · rw [tableLeads, if_neg hpage]
            exact hfresh k v hown hpage
        · have hno : ∀ j < md.pages, ¬ md.Covers j v := fun j hj hc => hcov ⟨j, hj, hc⟩
          rw [hmapped.other v hv hno, asked, if_neg (not_has_of_not_covers hmd hno)]
      · intro i hi
        obtain ⟨k, hk, hi⟩ := List.mem_flatMap.mp hi
        obtain ⟨j, hj, rfl⟩ := List.mem_map.mp hi
        have h₁ := hroom k (List.mem_range.mp hk)
        have h₂ := List.mem_range.mp hj
        omega

/-- What the free memory holds is of no account to the directory and its tables. -/
theorem Mmu.Apart.with_mem (hs : s.Apart) {mem : ℕ → UInt32}
    (hmem : ∀ x, ¬ s.heap.Avail x → mem x = s.mem x) :
    ({ s with mem := mem } : Mmu).Apart ∧
      ∀ v < 2 ^ 32, translateAddr mem kernelPgd v = translateAddr s.mem kernelPgd v := by
  have hdir : ∀ v < 2 ^ 32, mem (descriptorAt kernelPgd v) = s.mem (descriptorAt kernelPgd v) := by
    intro v hv
    refine hmem _ (hs.directory _ ?_)
    unfold InDirectory descriptorAt
    omega
  refine ⟨⟨hs.heap, hs.directory, fun v hv x hx => ?_⟩, fun v hv => ?_⟩
  · simp only [hdir v hv] at hx
    exact hs.tables v hv x hx
  · exact translateAddr_congr (hdir v hv) fun x hx => hmem x (hs.tables v hv x hx).1

/-- A range that is not empty is not mapped right with every contents of the free memory: the last
megabyte that is changed lies behind the range, and the table behind it may hold anything. -/
theorem exists_not_mapsRange (hs : s.Apart) (hmd : md.PageRange)
    (halloc : Allocates s.heap md.pages) (hne : md.length.toNat ≠ 0) :
    ∃ mem, (∀ x, ¬ s.heap.Avail x → mem x = s.mem x) ∧ ¬ MapsRange { s with mem := mem } md := by
  classical
  have hlen := hmd.length
  have hpages : 0 < md.pages := by
    unfold MapDesc.pages
    omega
  set k := md.pages - 1 with hk
  set v := (md.pageAt k / 2 ^ 20 + 3) * 2 ^ 20 with hv
  -- the free memory is filled with an entry that maps exactly where nothing was mapped
  let w : ℕ := if translateAddr s.mem kernelPgd v = none then 2 else 0
  let mem : ℕ → UInt32 := fun x => if s.heap.Avail x then UInt32.ofNat w else s.mem x
  have hmem : ∀ x, ¬ s.heap.Avail x → mem x = s.mem x := fun x hx => if_neg hx
  refine ⟨mem, hmem, ?_⟩
  intro hmaps
  obtain ⟨hapart, htrans⟩ := hs.with_mem hmem
  rcases (mapsRange_iff hapart hmd halloc).mp hmaps with hzero | ⟨hlast, hfresh⟩
  · exact hne hzero
  rw [← hk] at hlast
  have hown : md.Owner md.pages k v := ⟨by omega, ⟨by omega, by omega⟩, fun j hj hlt => by omega⟩
  have hpage : v / 2 ^ 12 ≠ md.pageAt k / 2 ^ 12 := by omega
  have hout : ¬ md.Has v := by
    unfold MapDesc.Has
    unfold MapDesc.pages at hk hpages
    have hpageAt : md.pageAt k = md.vaddr.toNat + 2 ^ 12 * k := rfl
    omega
  have havail : s.heap.Avail (tableWord (tableAt s.heap k) (md.pageAt k) v) := by
    have ht := hs.heap.pageTaken_at halloc (k := k) (by omega)
    refine (hs.heap.heapAfter halloc (k := k) (by omega)).2 _ (ht.fresh _ ?_ ?_).1
    · unfold tableWord
      omega
    · unfold tableWord
      omega
  have hleads := hfresh k v hown hpage
  rw [asked, if_neg hout] at hleads
  simp only [mem, if_pos havail] at hleads
  rw [htrans v (by omega)] at hleads
  by_cases hnone : translateAddr s.mem kernelPgd v = none
  · simp only [w, if_pos hnone, hnone] at hleads
    cases hleads
  · simp only [w, if_neg hnone] at hleads
    exact hnone hleads.symm

/-- **The call maps the range and nothing else** exactly when the range is empty, or the last page has
room in the directory and the fresh tables happen to hold the right words; whatever the free memory
holds, only when the range is empty. -/
theorem mmu_create_mapping_iff (hs : s.Apart) (hmd : md.PageRange)
    (halloc : Allocates s.heap md.pages) :
    (MapsRange s md ↔ md.length.toNat = 0 ∨
      (md.pageAt (md.pages - 1) / 2 ^ 20 ≤ 4092 ∧ FreshOk s md)) ∧
    ((∀ mem, (∀ x, ¬ s.heap.Avail x → mem x = s.mem x) → MapsRange { s with mem := mem } md) ↔
      md.length.toNat = 0) := by
  refine ⟨mapsRange_iff hs hmd halloc, ?_, ?_⟩
  · intro hall
    by_contra hne
    obtain ⟨mem, hmem, hnot⟩ := exists_not_mapsRange hs hmd halloc hne
    exact hnot (hall mem hmem)
  · intro hzero mem hmem
    exact (mapsRange_iff (hs.with_mem hmem).1 hmd halloc).mpr (Or.inl hzero)

end Promise

/-- The memory at the start of the kernel, when nothing is mapped and all of it is zero, with five
pages from `0xc0100000` on for the heap. -/
def clearMmu (z : Zone) : Mmu where
  mem _ := 0
  heap := (kmallocInit z fun _ => 0).heap
  pgdWrites := []
  printed := []

theorem exists_clearMmu : ∃ z, (clearMmu z).Apart ∧ Allocates (clearMmu z).heap 1 := by
  obtain ⟨z, hz⟩ := Option.isSome_iff_exists.mp
    (by decide : (pageAllocInit blankMem 0xc0100000 (5 * 4096)).isSome)
  have hfacts : z.memmapPages = 0xc0100000 ∧ z.usedPages = 1 ∧
      (kmalloc (clearMmu z).heap pageSize).1 ≠ none := by
    have : ((pageAllocInit blankMem 0xc0100000 (5 * 4096)).all fun z =>
        decide (z.memmapPages = 0xc0100000 ∧ z.usedPages = 1 ∧
          (kmalloc (clearMmu z).heap pageSize).1 ≠ none)) = true := by decide
    rw [hz, Option.all_some, decide_eq_true_eq] at this
    exact this
  obtain ⟨hplace, hused, hcall⟩ := hfacts
  have hin : (clearMmu z).heap.InOrder :=
    ⟨_, [], [], _, heapInv_pageAllocInit (fun _ => 0) hz (by decide) (by unfold HasPage; decide)
      (fun i _ _ => blankMem_not_looksFree i) fun i _ _ => Bitops.testBit_zero _⟩
  refine ⟨z, ⟨hin, fun x hx havail => ?_, fun v _ x hx => ?_⟩, fun k hk => ?_⟩
  · have hmanaged := (hin.managed_of_avail havail).1
    have hzone : (clearMmu z).heap.zone = z := rfl
    rw [hzone, hused, Zone.pageOf, hplace] at hmanaged
    unfold InDirectory kernelPgd pageOffset at hx
    unfold pageSize at hmanaged
    omega
  · simp [clearMmu, InTable, field] at hx
  · obtain rfl : k = 0 := by omega
    exact hcall

theorem mmu_create_mapping_iff_one_page :
    ∃ z, MapsRange (clearMmu z) ⟨0, 0x10000000, 0x1000, 0xff0, .page⟩ := by
  obtain ⟨z, hs, halloc⟩ := exists_clearMmu
  have hmd : MapDesc.PageRange ⟨0, 0x10000000, 0x1000, 0xff0, .page⟩ := by
    constructor <;> decide
  refine ⟨z, (mmu_create_mapping_iff hs hmd halloc).1.mpr (Or.inr ⟨by decide, ?_⟩)⟩
  intro k v hown hpage
  obtain rfl : k = 0 := by
    have := hown.1
    simp [MapDesc.pages] at this
    omega
  have hout : ¬ MapDesc.Has ⟨0, 0x10000000, 0x1000, 0xff0, .page⟩ v := by
    simp [MapDesc.Has, MapDesc.pageAt] at hpage ⊢
    omega
  rw [asked, if_neg hout]
  simp [clearMmu, coarseEntry, translateAddr, field]

/-- The range of the exception vectors, in the last megabyte but for fifteen pages: the second, third
and fourth entry written for it lie behind the directory. -/
theorem vectors_not_mapped :
    ¬ ∀ (s : Mmu) (md : MapDesc), s.Apart → md.PageRange → Allocates s.heap md.pages →
      MapsRange s md := by
  intro hall
  obtain ⟨z, hs, halloc⟩ := exists_clearMmu
  have hmd : MapDesc.PageRange ⟨0xc0108000, 0xffff0000, 0x1000, 0x30, .page⟩ := by
    constructor <;> decide
  have hmaps := hall _ _ hs hmd halloc
  rw [mapsRange_iff hs hmd halloc] at hmaps
  revert hmaps
  simp [MapDesc.pageAt, MapDesc.pages]

end YakOS
