import YakOS.Lib.Bytes

/-!
# Module images and their symbols

A module is an ELF object that lies in memory from `input_addr` on.  The loader
keeps, for each of six kinds of sections, where the section, its relocation table
and its symbols are (`SecInfo`), and finds the address a relocation refers to by
reading the symbol, looking its name up in the kernel's own table and then in the
module, and falling back on the section the symbol is defined in.

The image is only read: the file buffer and the segments of the module are
different blocks of the kernel heap.  Two things are read that are neither of the image
nor of the kernel's table: the string at address 0, which is mapped, when a name is
compared with the null name behind the last entry of that table; and what lies behind
the two buffers of 30 bytes that names are read into, when a name is longer.

## Main definitions

* `ModuleError`, `Stop` — how the loader stops without `MODULE_OK`.
* `SecInfo`, `SegmentInfo`, `LoadInfo` — what is known of an image and its segments.
* `loopRounds`, `loopOffsets` — the offsets a table walk visits.
* `Kernel` — what a lookup reads besides the image.
* `symtabLookup`, `findLocalSymbol` — the symbol tables.
* `symbolAddress` — the address that `relocate_section` passes to `apply_relocate`.
-/

namespace YakOS.Module

open Bytes (cString strcmp)

/-! ### Results -/

/-- The codes other than `MODULE_OK` that the loader can return. -/
inductive ModuleError where
  | badElfHeader | noSymtab | noStrtab | noText | symbolNotFound | segmentNotFound
  | noStartpoint | unhandledReloc | outofRange | relocNotSorted | inputError | outputError
  deriving DecidableEq, Repr

/-- How a call ends when it does not return `MODULE_OK`. -/
inductive Stop where
  /-- It returns an error code. -/
  | error (e : ModuleError)
  /-- It does not come back, or compares a null name. -/
  | fault
  deriving DecidableEq, Repr

/-! ### Sections and segments -/

/-- `struct sec_info`: a section of the image, its relocation table and its number. -/
structure SecInfo where
  sOffset : BitVec 32
  sSize : BitVec 32
  sReloff : BitVec 32
  sRelsize : BitVec 32
  sRelas : BitVec 32
  sNumber : BitVec 32
  deriving DecidableEq, Repr, Inhabited

/-- `struct relevant_section`: a segment of the module in memory. -/
structure RelevantSection where
  number : BitVec 8
  address : BitVec 32
  deriving DecidableEq, Repr, Inhabited

/-- `struct segment_info`. -/
structure SegmentInfo where
  text : RelevantSection
  rodata : RelevantSection
  data : RelevantSection
  bss : RelevantSection
  deriving DecidableEq, Repr, Inhabited

/-- The segments that are copied from the image, `MODULE_SEG_TEXT` to `MODULE_SEG_DATA`. -/
inductive SegType where
  | text | rodata | data
  deriving DecidableEq, Repr

instance sectionsNeZero : NeZero 6 := ⟨by decide⟩

/-- The place of a segment's section in `sec_info`: `seg_type - 1`. -/
def SegType.sec : SegType → Fin 6
  | .text => 0
  | .rodata => 1
  | .data => 2

/-- `SEC_TYPE_SYMTAB`. -/
def secTypeSymtab : Fin 6 := 3

/-- `SEC_TYPE_STRTAB`. -/
def secTypeStrtab : Fin 6 := 4

/-- `struct elf_info`, with the memory the image lies in. -/
structure LoadInfo where
  input : BitVec 32 → UInt8
  inputAddr : BitVec 32
  secInfo : Fin 6 → SecInfo

/-- The bytes of the image: `elf_seek_read` copies from `input_addr + offset` on, and never
fails. -/
def LoadInfo.file (info : LoadInfo) : ℕ → UInt8 := Bytes.view info.input info.inputAddr

/-- The offset in round `i` of `for (a = start; a < start + size; a += step)`. -/
def loopOffset (start : BitVec 32) (step i : ℕ) : BitVec 32 := start + .ofNat 32 (step * i)

/-- The number of rounds of the loop, `n` or one of the next `fuel` numbers. -/
def roundsFrom (start size : BitVec 32) (step : ℕ) : ℕ → ℕ → Option ℕ
  | 0, _ => none
  | fuel + 1, n =>
      if loopOffset start step n < start + size then roundsFrom start size step fuel (n + 1) else some n

/-- The number of rounds of the loop; `none` when it does not end.  The offset wraps around, and in
`2 ^ 32` rounds it takes every value that it ever takes. -/
def loopRounds (start size : BitVec 32) (step : ℕ) : Option ℕ := roundsFrom start size step (2 ^ 32) 0

/-- The rounds that are looked at: all of them, or the first `2 ^ 32` if the loop does not end. -/
def loopCount (start size : BitVec 32) (step : ℕ) : ℕ := (loopRounds start size step).getD (2 ^ 32)

/-- The offsets that the loop visits in these rounds. -/
def loopOffsets (start size : BitVec 32) (step : ℕ) : List ℕ :=
  (List.range (loopCount start size step)).map fun i => (loopOffset start step i).toNat

section Rounds

variable {start size : BitVec 32} {step k n fuel : ℕ}

theorem roundsFrom_eq_some (hle : n ≤ k) (hfuel : k < n + fuel)
    (hbelow : ∀ i, i < k → loopOffset start step i < start + size)
    (hend : ¬ loopOffset start step k < start + size) :
    roundsFrom start size step fuel n = some k := by
  induction fuel generalizing n with
  | zero => omega
  | succ fuel ih =>
    rw [roundsFrom]
    rcases Nat.eq_or_lt_of_le hle with rfl | hlt
    · exact if_neg hend
    · rw [if_pos (hbelow n hlt)]
      exact ih hlt (by omega)

theorem roundsFrom_eq_none (hbelow : ∀ i, loopOffset start step i < start + size) :
    roundsFrom start size step fuel n = none := by
  induction fuel generalizing n with
  | zero => rfl
  | succ fuel ih =>
    rw [roundsFrom, if_pos (hbelow n)]
    exact ih

/-- A loop ends with the first round in which the offset is not below the end, -/
theorem loopRounds_eq_some (hk : k < 2 ^ 32)
    (hbelow : ∀ i, i < k → loopOffset start step i < start + size)
    (hend : ¬ loopOffset start step k < start + size) : loopRounds start size step = some k :=
  roundsFrom_eq_some (Nat.zero_le k) (by omega) hbelow hend

/-- and not at all if there is none. -/
theorem loopRounds_eq_none (hbelow : ∀ i, loopOffset start step i < start + size) :
    loopRounds start size step = none :=
  roundsFrom_eq_none hbelow

theorem loopCount_eq (h : loopRounds start size step = some k) : loopCount start size step = k := by
  rw [loopCount, h, Option.getD_some]

/-- A table of size 0 is not walked. -/
theorem loopRounds_zero (start : BitVec 32) (step : ℕ) : loopRounds start 0 step = some 0 := by
  refine loopRounds_eq_some (by decide) (fun i hi => absurd hi (Nat.not_lt_zero i)) ?_
  rw [loopOffset, Nat.mul_zero]
  exact BitVec.lt_irrefl _

theorem toNat_loopOffset {i : ℕ} (h : start.toNat + step * i < 2 ^ 32) :
    (loopOffset start step i).toNat = start.toNat + step * i := by
  rw [loopOffset, BitVec.toNat_add, Bytes.toNat_ofNat_of_lt (by omega)]
  exact Nat.mod_eq_of_lt h

/-- A walk in steps of the entry size over a whole number of entries meets each of them once. -/
theorem loopRounds_of_mul (hstep : 0 < step) (hsize : size.toNat = step * k)
    (hwrap : start.toNat + size.toNat < 2 ^ 32) : loopRounds start size step = some k := by
  have hoff : ∀ i ≤ k, (loopOffset start step i).toNat = start.toNat + step * i := by
    intro i hi
    have hle : step * i ≤ step * k := Nat.mul_le_mul_left step hi
    exact toNat_loopOffset (by omega)
  have hstop : (start + size).toNat = start.toNat + step * k := by
    rw [BitVec.toNat_add_of_lt hwrap, hsize]
  have hk : k ≤ step * k := Nat.le_mul_of_pos_left k hstep
  refine loopRounds_eq_some (by omega) ?_ ?_
  · intro i hi
    have hlt : step * i < step * k := Nat.mul_lt_mul_of_pos_left hi hstep
    rw [BitVec.lt_def, hoff i hi.le, hstop]
    omega
  · rw [BitVec.lt_def, hoff k le_rfl, hstop]
    exact lt_irrefl _

end Rounds

/-! ### Symbols -/

/-- `struct elf32_sym`, as far as the loader reads it. -/
structure Elf32Sym where
  stName : BitVec 32
  stValue : BitVec 32
  stShndx : BitVec 16
  deriving DecidableEq, Repr

/-- The symbol at offset `a` of the image. -/
def LoadInfo.sym (info : LoadInfo) (a : ℕ) : Elf32Sym :=
  ⟨.ofNat 32 (Bytes.u32 info.file a), .ofNat 32 (Bytes.u32 info.file (a + 4)),
    .ofNat 16 (Bytes.u16 info.file (a + 14))⟩

/-- The 30 bytes read into `name` from `strtab + st_name`. -/
def LoadInfo.symName (info : LoadInfo) (s : Elf32Sym) : List UInt8 :=
  Bytes.read info.file ((info.secInfo secTypeStrtab).sOffset + s.stName).toNat 30

/-- `struct symbols`: an entry of the kernel symbol table; the last one has a null name. -/
structure Symbols where
  name : Option (List UInt8)
  value : BitVec 32
  deriving DecidableEq, Repr

/-- The loop of `symtab_lookup`, `fuel` rounds of it, when `null` is the string at address 0. -/
def symtabSearch (symbols : List Symbols) (null name : List UInt8) : ℕ → ℤ → ℤ → BitVec 32
  | 0, _, _ => 0
  | fuel + 1, start, stop =>
      if start ≤ stop then
        let middle := (start + stop) / 2
        match symbols[middle.toNat]? with
        | some entry =>
            let r := strcmp name (entry.name.getD null)
            if r < 0 then symtabSearch symbols null name fuel start (middle - 1)
            else if 0 < r then symtabSearch symbols null name fuel (middle + 1) stop
            else entry.value
        -- does not happen: `start` and `stop` stay in the table
        | none => 0
      else 0

/-- `symtab_lookup`: each round at least halves the `symbols_nelts` candidates. -/
def symtabLookup (symbols : List Symbols) (null name : List UInt8) : BitVec 32 :=
  symtabSearch symbols null name (symbols.length + 1) 0 (symbols.length - 1)

/-- The address of a symbol of bss, data or text. -/
def SegmentInfo.localAddress (seg : SegmentInfo) (s : Elf32Sym) : BitVec 32 :=
  if s.stShndx = seg.bss.number.setWidth 16 then seg.bss.address + s.stValue
  else if s.stShndx = seg.data.number.setWidth 16 then seg.data.address + s.stValue
  else if s.stShndx = seg.text.number.setWidth 16 then seg.text.address + s.stValue
  else 0

/-- `find_local_symbol`, when `behind a` lies behind its buffer `name` on the stack in the round for
the offset `a`: the first symbol of that name; its section is one of bss, data and text, and `NULL`
(zero) is returned when it is none of them or there is no such symbol.  `none` when the walk does
not end. -/
def findLocalSymbol (behind : ℕ → List UInt8) (info : LoadInfo) (symbol : List UInt8)
    (seg : SegmentInfo) : Option (BitVec 32) :=
  let symtab := info.secInfo secTypeSymtab
  -- `symtabsize` is an `unsigned short`
  let symtabsize : BitVec 32 := (symtab.sSize.setWidth 16).setWidth 32
  match (loopOffsets symtab.sOffset symtabsize 16).find? fun a =>
      (info.sym a).stName != 0 &&
        strcmp (cString (info.symName (info.sym a) ++ behind a)) symbol == 0 with
  | some a => some (seg.localAddress (info.sym a))
  | none => (loopRounds symtab.sOffset symtabsize 16).map fun _ => 0

/-- The segment with the section number of a symbol. -/
def SegmentInfo.byNumber (seg : SegmentInfo) (shndx : BitVec 16) : Option RelevantSection :=
  if shndx = seg.bss.number.setWidth 16 then some seg.bss
  else if shndx = seg.data.number.setWidth 16 then some seg.data
  else if shndx = seg.rodata.number.setWidth 16 then some seg.rodata
  else if shndx = seg.text.number.setWidth 16 then some seg.text
  else none

/-- `struct elf32_rela` and `struct elf32_rel`, as far as the loader reads them: the addend of
the former is never used. -/
structure Rela where
  rOffset : BitVec 32
  rInfo : BitVec 32
  /-- Not a field of the source: the segment and the round of `relocate_section`. -/
  round : SegType × ℕ
  deriving DecidableEq, Repr

/-- The relocation entry at offset `a` of the image, as it is read in a round of
`relocate_section`. -/
def LoadInfo.rela (info : LoadInfo) (round : SegType × ℕ) (a : ℕ) : Rela :=
  ⟨.ofNat 32 (Bytes.u32 info.file a), .ofNat 32 (Bytes.u32 info.file (a + 4)), round⟩

/-- The symbol a relocation entry refers to, `ELF32_R_SYM(r_info)`. -/
def LoadInfo.relaSym (info : LoadInfo) (r : Rela) : Elf32Sym :=
  info.sym ((info.secInfo secTypeSymtab).sOffset + 16 * (r.rInfo >>> 8)).toNat

/-- What a lookup reads besides the image. -/
structure Kernel where
  /-- The kernel's own table. -/
  symbols : List Symbols
  /-- The string at address 0, in the round for a relocation. -/
  null : Rela → List UInt8
  /-- What lies behind the buffer `name` of `relocate_section`, when `symtab_lookup` reads it -/
  behindGlobal : Rela → List UInt8
  /-- and when `find_local_symbol` does. -/
  behindLocal : Rela → List UInt8
  /-- What lies behind the buffer `name` of `find_local_symbol`, in the call for a relocation or for
  `mod_entry`, in the round for an offset. -/
  behindSymbol : Option Rela → ℕ → List UInt8

/-- The name that `symtab_lookup` looks for, -/
def Kernel.globalName (kernel : Kernel) (info : LoadInfo) (r : Rela) : List UInt8 :=
  cString (info.symName (info.relaSym r) ++ kernel.behindGlobal r)

/-- and the one that `find_local_symbol` looks for. -/
def Kernel.localName (kernel : Kernel) (info : LoadInfo) (r : Rela) : List UInt8 :=
  cString (info.symName (info.relaSym r) ++ kernel.behindLocal r)

/-- What `symtab_lookup` returns for a relocation. -/
def Kernel.lookup (kernel : Kernel) (info : LoadInfo) (r : Rela) : BitVec 32 :=
  symtabLookup kernel.symbols (kernel.null r) (kernel.globalName info r)

/-- What `find_local_symbol` returns for a relocation. -/
def Kernel.findLocal (kernel : Kernel) (info : LoadInfo) (seg : SegmentInfo) (r : Rela) :
    Option (BitVec 32) :=
  findLocalSymbol (kernel.behindSymbol (some r)) info (kernel.localName info r) seg

/-- The address `relocate_section` finds for a relocation entry. -/
def symbolAddress (kernel : Kernel) (info : LoadInfo) (seg : SegmentInfo) (r : Rela) :
    Except Stop (BitVec 32) :=
  let s := info.relaSym r
  if s.stName ≠ 0 then
    let global := kernel.lookup info r
    match (if global = 0 then kernel.findLocal info seg r else some global) with
    | none => .error .fault
    | some addr =>
        if addr = 0 then
          match seg.byNumber s.stShndx with
          | some sect => .ok sect.address
          | none => .error (.error .symbolNotFound)
        else .ok addr
  else
    match seg.byNumber s.stShndx with
    | some sect => .ok sect.address
    | none => .error (.error .segmentNotFound)

end YakOS.Module
