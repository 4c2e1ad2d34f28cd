import YakOS.Module.Resolve

/-!
# The symbols of the module

`find_local_symbol` walks the symbol table of the image, reads 30 bytes of each name and
takes the first symbol whose name is the one it looks for.  The walk is as long as the size
of the table modulo 65536, since that is kept in an `unsigned short`; a name is compared up
to a NUL, so that a name of 30 characters or more is compared with what lies behind the
buffer; and the section of the symbol is compared with the numbers of the segments, of which
8 bits are kept.  A table at the end of the address space is walked for ever when the
offset wraps around before it comes to the end.

## Main definitions

* `LoadInfo.InTable`, `Named`, `LocalSymbol` — the symbols of a table and their names.
* `LoadInfo.scanned`, `Spells` — how far the walk goes, and what it takes for the name.
* `LoadCall.SymbolReached`, `NoneTaken` — the walk finds the symbol, and no other.

## Main results

* `spells_iff` — a name of at most 29 characters is recognised.
* `local_symbols_found_iff` — **when symbols are found at their address, and only these.**
-/

namespace YakOS.Module

open Bytes (cString strcmp chars)

/-! ### The walk -/

namespace LoadInfo

variable {info : LoadInfo} {behind : ℕ → List UInt8} {name : List UInt8} {i : ℕ}

/-- The offset of the symbol of index `i`. -/
def symbolOffset (info : LoadInfo) (i : ℕ) : ℕ :=
  (loopOffset (info.secInfo secTypeSymtab).sOffset 16 i).toNat

/-- The symbol of index `i`. -/
def symbol (info : LoadInfo) (i : ℕ) : Elf32Sym := info.sym (info.symbolOffset i)

/-- Where the name of the symbol of index `i` lies. -/
def symbolName (info : LoadInfo) (i : ℕ) : ℕ :=
  ((info.secInfo secTypeStrtab).sOffset + (info.symbol i).stName).toNat

/-- The number of rounds of the walk. -/
def scanned (info : LoadInfo) : ℕ :=
  let symtab := info.secInfo secTypeSymtab
  loopCount symtab.sOffset ((symtab.sSize.setWidth 16).setWidth 32) 16

/-- The symbol of index `i` begins inside the symbol table. -/
def InTable (info : LoadInfo) (i : ℕ) : Prop := 16 * i < (info.secInfo secTypeSymtab).sSize.toNat

/-- The symbol of index `i` has the name, which a NUL ends in the string table. -/
def Named (info : LoadInfo) (name : List UInt8) (i : ℕ) : Prop :=
  (info.symbol i).stName ≠ 0 ∧ 0 ∉ name ∧
    Bytes.read info.file (info.symbolName i) (name.length + 1) = name ++ [0]

instance (info : LoadInfo) : DecidablePred info.InTable := fun _ => inferInstanceAs (Decidable (_ < _))

instance (info : LoadInfo) (name : List UInt8) : DecidablePred (info.Named name) := fun _ =>
  inferInstanceAs (Decidable (_ ∧ _))

/-- The symbol of index `i` has the name, as far as `find_local_symbol` looks. -/
def Spells (info : LoadInfo) (behind : ℕ → List UInt8) (name : List UInt8) (i : ℕ) : Prop :=
  (info.symbol i).stName ≠ 0 ∧
    cString (Bytes.read info.file (info.symbolName i) 30 ++ behind (info.symbolOffset i)) = name

instance (info : LoadInfo) (behind : ℕ → List UInt8) (name : List UInt8) :
    DecidablePred (info.Spells behind name) := fun _ => inferInstanceAs (Decidable (_ ∧ _))

/-- The walk is stopped by the first symbol it takes for one of the name. -/
theorem firstNamed_eq : info.firstNamed behind name =
    ((List.range info.scanned).find? fun i => info.Spells behind name i).map info.symbol := by
  have hspells : ∀ i, ((info.symbol i).stName != 0 && strcmp
      (cString (Bytes.read info.file (info.symbolName i) 30 ++ behind (info.symbolOffset i))) name == 0)
        = decide (info.Spells behind name i) := by
    intro i
    rw [Bool.eq_iff_iff, Bool.and_eq_true, bne_iff_ne, beq_iff_eq, Bytes.strcmp_eq_zero_iff,
      decide_eq_true_iff]
    rfl
  have hoffsets : loopOffsets (info.secInfo secTypeSymtab).sOffset
      (((info.secInfo secTypeSymtab).sSize.setWidth 16).setWidth 32) 16
        = (List.range info.scanned).map info.symbolOffset := rfl
  unfold firstNamed
  simp only [hoffsets, List.find?_map, Function.comp_def, Option.map_map]
  rw [← funext hspells]
  rfl

/-- The table, cut off at its size modulo 65536, ends below the end of the address space, and the
offset wraps around before it comes to this end. -/
def Endless (info : LoadInfo) : Prop :=
  let symtab := info.secInfo secTypeSymtab
  symtab.sOffset.toNat + symtab.sSize.toNat % 65536 < 2 ^ 32 ∧
    2 ^ 32 ≤ symtab.sOffset.toNat + 16 * ((symtab.sSize.toNat % 65536 + 15) / 16)

instance (info : LoadInfo) : Decidable info.Endless := inferInstanceAs (Decidable (_ ∧ _))

/-- The walk meets the symbol of index `i`: it begins before the size of the table modulo 65536, and
the table, cut off there, does not wrap around; or the walk does not end. -/
def Scanned (info : LoadInfo) (i : ℕ) : Prop :=
  let symtab := info.secInfo secTypeSymtab
  16 * i < symtab.sSize.toNat % 65536 ∧ symtab.sOffset.toNat + symtab.sSize.toNat % 65536 < 2 ^ 32 ∨
    info.Endless ∧ i < 2 ^ 32

instance (info : LoadInfo) : DecidablePred info.Scanned := fun _ => inferInstanceAs (Decidable (_ ∨ _))

theorem toNat_symtabsize (info : LoadInfo) :
    (((info.secInfo secTypeSymtab).sSize.setWidth 16).setWidth 32).toNat
      = (info.secInfo secTypeSymtab).sSize.toNat % 65536 := by
  rw [BitVec.toNat_setWidth, BitVec.toNat_setWidth]
  omega

/-- **How many rounds the walk has.** -/
theorem loopRounds_symtab (info : LoadInfo) :
    loopRounds (info.secInfo secTypeSymtab).sOffset
        (((info.secInfo secTypeSymtab).sSize.setWidth 16).setWidth 32) 16 =
      if info.Endless then none
      else if (info.secInfo secTypeSymtab).sOffset.toNat
          + (info.secInfo secTypeSymtab).sSize.toNat % 65536 < 2 ^ 32 then
        some (((info.secInfo secTypeSymtab).sSize.toNat % 65536 + 15) / 16)
      else some 0 := by
  have hsize := toNat_symtabsize info
  have hoff := (info.secInfo secTypeSymtab).sOffset.isLt
  have hmod : (info.secInfo secTypeSymtab).sSize.toNat % 65536 < 65536 := Nat.mod_lt _ (by decide)
  by_cases hendless : info.Endless
  · rw [if_pos hendless]
    simp only [Endless] at hendless
    refine loopRounds_eq_none ?_
    intro i
    -- no offset of this remainder modulo 16 lies between the end of the table and `2 ^ 32`
    rw [BitVec.lt_def, loopOffset, BitVec.toNat_add, BitVec.toNat_ofNat, BitVec.toNat_add, hsize]
    omega
  · rw [if_neg hendless]
    simp only [Endless] at hendless
    split
    next hwrap =>
      have hstop : ((info.secInfo secTypeSymtab).sOffset
          + ((info.secInfo secTypeSymtab).sSize.setWidth 16).setWidth 32).toNat
            = (info.secInfo secTypeSymtab).sOffset.toNat
              + (info.secInfo secTypeSymtab).sSize.toNat % 65536 := by
        rw [BitVec.toNat_add_of_lt (by omega), hsize]
      refine loopRounds_eq_some (by omega) ?_ ?_
      · intro i hi
        rw [BitVec.lt_def, toNat_loopOffset (by omega), hstop]
        omega
      · rw [BitVec.lt_def, toNat_loopOffset (by omega), hstop]
        omega
    next hwrap =>
      refine loopRounds_eq_some (by decide) (fun i hi => absurd hi (Nat.not_lt_zero i)) ?_
      rw [BitVec.lt_def, toNat_loopOffset hoff, BitVec.toNat_add, hsize]
      omega

theorem symtabEnds_iff : info.SymtabEnds ↔ ¬ info.Endless := by
  rw [SymtabEnds, loopRounds_symtab]
  split_ifs with hendless
  · exact iff_of_false (by simp) (not_not_intro hendless)
  · exact iff_of_true rfl hendless
  · exact iff_of_true rfl hendless

/-- **How far the walk goes.** -/
theorem lt_scanned_iff : i < info.scanned ↔ info.Scanned i := by
  rw [scanned, loopCount, loopRounds_symtab, Scanned]
  split_ifs with hendless hwrap
  · rw [Option.getD_none, and_iff_right hendless, or_iff_right_of_imp]
    rintro ⟨hi, -⟩
    have hmod : (info.secInfo secTypeSymtab).sSize.toNat % 65536 < 65536 := Nat.mod_lt _ (by decide)
    omega
  · rw [Option.getD_some, and_iff_left hwrap, or_iff_left fun h => hendless h.1]
    omega
  · exact iff_of_false (Nat.not_lt_zero i) (not_or.mpr ⟨fun h => hwrap h.2, fun h => hendless h.1⟩)

/-- The walk stops at the first symbol that it meets and that spells the name, -/
theorem find?_spells_eq_some_iff : (List.range info.scanned).find? (fun i => info.Spells behind name i) = some i ↔
    info.Scanned i ∧ info.Spells behind name i ∧ ∀ j < i, ¬ info.Spells behind name j := by
  rw [List.find?_range_eq_some, decide_eq_true_iff, List.mem_range, lt_scanned_iff, and_left_comm]
  simp only [Bool.not_eq_true', decide_eq_false_iff_not]

/-- or at the end of the table. -/
theorem find?_spells_eq_none_iff : (List.range info.scanned).find? (fun i => info.Spells behind name i) = none ↔
    ∀ i, info.Scanned i → ¬ info.Spells behind name i := by
  rw [List.find?_range_eq_none]
  simp only [Bool.not_eq_true', decide_eq_false_iff_not, lt_scanned_iff]

/-- **The names that are recognised**: of at most 29 characters, whatever lies behind the buffer. -/
theorem spells_iff (h : name.length ≤ 29) : info.Spells behind name i ↔ info.Named name i :=
  and_congr_right' (cString_read_eq_iff h)

/-- The symbol of index `i` bears a name that no other symbol of the table has, that is read as a
whole, and is defined in the section of a segment other than rodata. -/
structure LocalSymbol (info : LoadInfo) (name : List UInt8) (i : ℕ) (k : Segment) : Prop where
  inTable : info.InTable i
  named : info.Named name i
  unique : ∀ j, info.InTable j → info.Named name j → j = i
  short : name.length ≤ 29
  segment : k ≠ .rodata
  defined : (info.symbol i).stShndx ≠ 0
  number : (info.symbol i).stShndx.setWidth 32 = (info.secInfo k.sec).sNumber

/-- The segment that a symbol is taken to lie in, by the 8 bits that are kept of its section
number. -/
def takenSegment (info : LoadInfo) (s : Elf32Sym) : Option Segment :=
  [Segment.bss, .data, .text].find? fun k =>
    s.stShndx == ((info.secInfo k.sec).sNumber.setWidth 8).setWidth 16

/-- A symbol that is met belongs to the table, if the walk ends. -/
theorem Scanned.inTable (h : info.Scanned i) (hends : ¬ info.Endless) : info.InTable i :=
  (h.resolve_right fun h => hends h.1).1.trans_le (Nat.mod_le _ _)

/-- A walk that does not end meets every symbol of the table. -/
theorem InTable.scanned_of_endless (h : info.InTable i) (hendless : info.Endless) : info.Scanned i := by
  have hsize := (info.secInfo secTypeSymtab).sSize.isLt
  rw [InTable] at h
  exact Or.inr ⟨hendless, by omega⟩

/-- The symbols before one of the table belong to it. -/
theorem InTable.of_le {j : ℕ} (h : info.InTable i) (hle : j ≤ i) : info.InTable j :=
  (Nat.mul_le_mul_left 16 hle).trans_lt h

end LoadInfo

namespace LoadCall

variable {c : LoadCall} {behind : ℕ → List UInt8} {name : List UInt8} {i : ℕ} {k : Segment}

theorem localAddress_seg (c : LoadCall) (s : Elf32Sym) :
    c.seg.localAddress s = (c.info.takenSegment s).elim 0 fun k => c.seg.symbolAt k s := by
  rw [localAddress_eq]
  simp only [number_seg]
  rfl

/-- What is found for the symbol of a name. -/
theorem findLocalSymbol_of_localSymbol (h : c.info.LocalSymbol name i k) :
    findLocalSymbol behind c.info name c.seg =
      some (if c.info.Scanned i then c.seg.localAddress (c.info.symbol i) else 0) := by
  split
  next hi =>
    have hfind : (List.range c.info.scanned).find? (fun i => c.info.Spells behind name i) = some i := by
      refine LoadInfo.find?_spells_eq_some_iff.mpr ⟨hi, (LoadInfo.spells_iff h.short).mpr h.named, ?_⟩
      intro j hj hspells
      exact hj.ne (h.unique j (h.inTable.of_le hj.le) ((LoadInfo.spells_iff h.short).mp hspells))
    apply findLocalSymbol_of_some
    rw [LoadInfo.firstNamed_eq, hfind, Option.map_some]
  next hi =>
    have hends : ¬ c.info.Endless := fun hendless => hi (h.inTable.scanned_of_endless hendless)
    -- no other symbol has the name, and this one is not met
    have hfind : (List.range c.info.scanned).find? (fun i => c.info.Spells behind name i) = none := by
      rw [LoadInfo.find?_spells_eq_none_iff]
      intro j hj hspells
      exact hi (h.unique j (hj.inTable hends) ((LoadInfo.spells_iff h.short).mp hspells) ▸ hj)
    refine findLocalSymbol_of_none ?_ (LoadInfo.symtabEnds_iff.mpr hends)
    rw [LoadInfo.firstNamed_eq, hfind, Option.map_none]

/-- The symbol of index `i` is found at its address in the segment `k`: it is met and taken to lie in
a segment at the address of this one, or it is not found and its address is `NULL`. -/
def SymbolReached (c : LoadCall) (i : ℕ) (k : Segment) : Prop :=
  (c.info.Scanned i ∧ ∃ k', c.info.takenSegment (c.info.symbol i) = some k' ∧
      (c.seg.get k').address = (c.seg.get k).address) ∨
    (c.info.Scanned i → c.info.takenSegment (c.info.symbol i) = none) ∧
      c.seg.symbolAt k (c.info.symbol i) = 0

/-- **A symbol of the module** is found at its address exactly when it is reached. -/
theorem symbolReached_iff (h : c.info.LocalSymbol name i k) :
    findLocalSymbol behind c.info name c.seg = some (c.seg.symbolAt k (c.info.symbol i)) ↔
      c.SymbolReached i k := by
  rw [findLocalSymbol_of_localSymbol h, Option.some.injEq, localAddress_seg, SymbolReached]
  by_cases hi : c.info.Scanned i
  · rw [if_pos hi]
    cases htaken : c.info.takenSegment (c.info.symbol i) with
    | none => simp [hi, eq_comm]
    | some k' => simp [hi, SegmentInfo.symbolAt]
  · rw [if_neg hi]
    simp [hi, eq_comm]

/-- With a table of less than 64 KiB and fewer than 256 sections, nothing is cut off. -/
theorem symbolReached_of_small (h : c.info.LocalSymbol name i k)
    (hsize : (c.info.secInfo secTypeSymtab).sSize.toNat < 65536)
    (hwrap : (c.info.secInfo secTypeSymtab).sOffset.toNat
      + (c.info.secInfo secTypeSymtab).sSize.toNat < 2 ^ 32)
    (hnumber : ∀ k : Segment, (c.info.secInfo k.sec).sNumber.toNat < 256)
    (hdistinct : ∀ k', (c.info.secInfo k'.sec).sNumber = (c.info.secInfo k.sec).sNumber → k' = k) :
    c.SymbolReached i k := by
  have hmod := Nat.mod_eq_of_lt hsize
  have hmet : c.info.Scanned i := Or.inl ⟨hmod.symm ▸ h.inTable, hmod.symm ▸ hwrap⟩
  -- the 8 bits that are kept of a section number tell the segments apart
  have hbeq : ∀ k' : Segment, ((c.info.symbol i).stShndx
      == ((c.info.secInfo k'.sec).sNumber.setWidth 8).setWidth 16) = (k' == k) := by
    intro k'
    have hk := hnumber k
    have hk' := hnumber k'
    have hnum := h.number
    rw [Bool.eq_iff_iff, beq_iff_eq, beq_iff_eq]
    constructor
    · intro heq
      refine hdistinct k' ?_
      rw [← hnum, heq]
      bv_omega
    · rintro rfl
      bv_omega
  have htaken : c.info.takenSegment (c.info.symbol i) = some k := by
    rw [LoadInfo.takenSegment]
    simp only [hbeq]
    have hsegment := h.segment
    revert hsegment
    cases k <;> decide
  exact Or.inl ⟨hmet, k, htaken, rfl⟩

/-! ### Names that the table lacks -/

/-- The first symbol that is taken for one of the name lies at `NULL`. -/
def TakenAtNull (c : LoadCall) (behind : ℕ → List UInt8) (name : List UInt8) : Prop :=
  ∀ i, c.info.Scanned i → c.info.Spells behind name i → (∀ j < i, ¬ c.info.Spells behind name j) →
    ∀ k, c.info.takenSegment (c.info.symbol i) = some k → c.seg.symbolAt k (c.info.symbol i) = 0

/-- Whatever is taken for a symbol of the name lies at `NULL`, and the walk comes to its end or to
such a symbol; a name of at most 29 characters is not taken for another in a walk that ends. -/
def NoneTaken (c : LoadCall) (behind : ℕ → List UInt8) (name : List UInt8) : Prop :=
  ¬ c.info.Endless ∧ name.length ≤ 29 ∨
    (¬ c.info.Endless ∨ ∃ i, c.info.Scanned i ∧ c.info.Spells behind name i) ∧
      c.TakenAtNull behind name

theorem localAddress_seg_eq_zero_iff (s : Elf32Sym) :
    c.seg.localAddress s = 0 ↔ ∀ k, c.info.takenSegment s = some k → c.seg.symbolAt k s = 0 := by
  rw [localAddress_seg]
  cases c.info.takenSegment s with
  | none => simp
  | some k => simp

theorem findLocalSymbol_eq_zero_iff :
    findLocalSymbol behind c.info name c.seg = some 0 ↔
      (¬ c.info.Endless ∨ ∃ i, c.info.Scanned i ∧ c.info.Spells behind name i) ∧
        c.TakenAtNull behind name := by
  cases hfind : (List.range c.info.scanned).find? fun i => c.info.Spells behind name i with
  | none =>
    have hfirst : c.info.firstNamed behind name = none := by
      rw [LoadInfo.firstNamed_eq, hfind, Option.map_none]
    have hspells := LoadInfo.find?_spells_eq_none_iff.mp hfind
    have htaken : c.TakenAtNull behind name := fun i hi hs => absurd hs (hspells i hi)
    rw [and_iff_left htaken, or_iff_left fun ⟨i, hi, hs⟩ => hspells i hi hs]
    by_cases hends : c.info.SymtabEnds
    · rw [findLocalSymbol_of_none hfirst hends]
      exact iff_of_true rfl (LoadInfo.symtabEnds_iff.mp hends)
    · rw [findLocalSymbol_of_endless hfirst hends]
      exact iff_of_false nofun fun h => hends (LoadInfo.symtabEnds_iff.mpr h)
  | some i =>
    obtain ⟨hi, hspells, hbefore⟩ := LoadInfo.find?_spells_eq_some_iff.mp hfind
    have hfirst : c.info.firstNamed behind name = some (c.info.symbol i) := by
      rw [LoadInfo.firstNamed_eq, hfind, Option.map_some]
    rw [findLocalSymbol_of_some hfirst, Option.some.injEq, localAddress_seg_eq_zero_iff,
      and_iff_right (Or.inr ⟨i, hi, hspells⟩)]
    constructor
    · intro hzero j _ hj hjfirst
      -- there is one first symbol only
      obtain rfl : j = i := by
        rcases lt_trichotomy j i with hlt | heq | hlt
        · exact absurd hj (hbefore j hlt)
        · exact heq
        · exact absurd hspells (hjfirst i hlt)
      exact hzero
    · intro hzero
      exact hzero i hi hspells hbefore

/-- **A name that the table lacks** is not found exactly when nothing is taken for it. -/
theorem noneTaken_iff (habsent : ∀ i, c.info.InTable i → ¬ c.info.Named name i) :
    findLocalSymbol behind c.info name c.seg = some 0 ↔ c.NoneTaken behind name := by
  rw [findLocalSymbol_eq_zero_iff, NoneTaken]
  constructor
  · exact Or.inr
  · rintro (⟨hends, hshort⟩ | htaken)
    · refine ⟨Or.inl hends, fun i hi hspells => ?_⟩
      exact absurd ((LoadInfo.spells_iff hshort).mp hspells) (habsent i (hi.inTable hends))
    · exact htaken

/-- `find_local_symbol` finds the symbols of the module at their address, and no other name. -/
def SymbolsFound (c : LoadCall) (behind : ℕ → List UInt8) (name : List UInt8) : Prop :=
  (∀ i k, c.info.LocalSymbol name i k →
      findLocalSymbol behind c.info name c.seg = some (c.seg.symbolAt k (c.info.symbol i))) ∧
    ((∀ i, c.info.InTable i → ¬ c.info.Named name i) →
      findLocalSymbol behind c.info name c.seg = some 0)

end LoadCall

/-- **Symbols are found at their address, and only these, exactly when** a symbol of the name is
reached, and nothing is taken for a name that the table lacks. -/
theorem local_symbols_found_iff (c : LoadCall) (behind : ℕ → List UInt8) (name : List UInt8) :
    c.SymbolsFound behind name ↔
      (∀ i k, c.info.LocalSymbol name i k → c.SymbolReached i k) ∧
        ((∀ i, c.info.InTable i → ¬ c.info.Named name i) → c.NoneTaken behind name) := by
  refine and_congr (forall₂_congr fun i k => forall_congr' fun h => ?_) (forall_congr' fun h => ?_)
  · exact LoadCall.symbolReached_iff h
  · exact LoadCall.noneTaken_iff h

/-- The bytes of an image whose symbol table has 4096 entries; all but the second, `mod_entry`, are
empty. -/
def bigTableBytes : List UInt8 :=
  imageBytes [⟨0, 0, 0⟩, ⟨1, 248, 4⟩, ⟨7, 252, 65536⟩, ⟨15, 212, 36⟩] 3
    (0 :: chars ".text" ++ 0 :: chars ".symtab" ++ 0 :: chars ".strtab" ++ 0 :: chars "mod_entry" ++
      [0, 0, 0, 0] ++ [0, 0, 0, 0] ++ Elf32Sym.bytes ⟨0, 0, 0⟩ ++ Elf32Sym.bytes ⟨23, 0, 1⟩)

/-- The call that loads it. -/
def loadBigTable : LoadCall :=
  ⟨false, printkKernel, blockAt, memoryAt 0x30100000 bigTableBytes, 0x30100000,
    allocKmodule fun _ => 0⟩

/-- The sections of the image. -/
def bigTableRecord : LoadInfo :=
  ⟨memoryAt 0x30100000 bigTableBytes, 0x30100000, fun k => [⟨248, 4, 0, 0, 0, 1⟩, ⟨0, 0, 0, 0, 0, 0⟩,
    ⟨0, 0, 0, 0, 0, 0⟩, ⟨252, 65536, 0, 0, 0, 0⟩, ⟨212, 36, 0, 0, 0, 0⟩,
    ⟨0, 0, 0, 0, 0, 0⟩].getD k default⟩

theorem info_loadBigTable : loadBigTable.info = bigTableRecord :=
  recorded_eq (by decide +kernel)

/-- Behind its bytes, an image is empty. -/
theorem file_memoryAt_of_ge {inputAddr : BitVec 32} {bytes : List UInt8} {secInfo : Fin 6 → SecInfo}
    {n : ℕ} (h : bytes.length ≤ n) (hn : n < 2 ^ 32) :
    LoadInfo.file ⟨memoryAt inputAddr bytes, inputAddr, secInfo⟩ n = 0 := by
  show (bytes[(inputAddr + BitVec.ofNat 32 n - inputAddr).toNat]?).getD 0 = 0
  rw [add_sub_cancel_left, Bytes.toNat_ofNat_of_lt hn, List.getElem?_eq_none h]
  rfl

theorem bigTableRecord_stName {i : ℕ} (hi : 2 ≤ i) (hlt : bigTableRecord.InTable i) :
    (bigTableRecord.symbol i).stName = 0 := by
  have hlen : bigTableBytes.length = 284 := by decide +kernel
  have hin : 16 * i < 65536 := hlt
  have hoffset : bigTableRecord.symbolOffset i = 252 + 16 * i :=
    toNat_loopOffset (show 252 + 16 * i < 2 ^ 32 by omega)
  have hzero : ∀ n, 252 + 16 * i ≤ n → n < 2 ^ 32 → bigTableRecord.file n = 0 := by
    intro n hn hn'
    exact file_memoryAt_of_ge (by omega) hn'
  show BitVec.ofNat 32 (Bytes.u32 bigTableRecord.file (bigTableRecord.symbolOffset i)) = 0
  rw [hoffset, Bytes.u32, Bytes.u16, Bytes.u16, hzero _ (by omega) (by omega), hzero _ (by omega) (by omega),
    hzero _ (by omega) (by omega), hzero _ (by omega) (by omega)]
  rfl

/-- The symbol `mod_entry` is not found in it. -/
theorem big_table_symbol_lost : ¬ ∀ (c : LoadCall) (behind : ℕ → List UInt8) (name : List UInt8),
    c.SymbolsFound behind name := by
  intro h
  have hfound := (h loadBigTable (fun _ => []) (chars "mod_entry")).1 1 .text
  unfold LoadCall.seg LoadCall.allocated at hfound
  rw [info_loadBigTable] at hfound
  have hlocal : bigTableRecord.LocalSymbol (chars "mod_entry") 1 .text :=
    { inTable := by decide +kernel
      named := by decide +kernel
      unique := by
        intro j hj hnamed
        rcases Nat.lt_or_ge j 2 with hlt | hge
        · obtain rfl | rfl : j = 0 ∨ j = 1 := by omega
          · exact absurd hnamed (by decide +kernel)
          · rfl
        · exact absurd (bigTableRecord_stName hge hj) hnamed.1
      short := by decide
      segment := by decide
      defined := by decide +kernel
      number := by decide +kernel }
  exact absurd (hfound hlocal) (by decide +kernel)

end YakOS.Module
