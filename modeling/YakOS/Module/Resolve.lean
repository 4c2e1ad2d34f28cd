import YakOS.Module.Load
import YakOS.Module.Tables

/-!
# The address a relocation refers to

`relocate_section` looks the name of a symbol up in the kernel's table, then in the
module's own, where only bss, data and text are known, and falls back on the start of
the section that bears the symbol's number.  The value of a symbol is only added by
the second of these, so that a symbol of the rodata section is taken for the start of
it; and since a section that the image does not have keeps the number 0, an undefined
symbol is taken for the start of one that is missing.

A name that the kernel's table lacks is not found there as long as it has at most 29
characters and the null names have no value; a longer one is read into a buffer that
no NUL ends, and what is looked up is the name with what lies behind it.

## Main definitions

* `LoadInfo.Spelled`, `Kernel.Lacks` — the name of a symbol, and that the kernel lacks it.
* `LoadInfo.firstNamed`, `LoadInfo.SymtabEnds` — what `find_local_symbol` comes to.
* `Kernel.FoundAt` — the address it returns, unless that is `NULL`.
* `RefersTo`, `Undefined` — relocations against the module's own symbols and against
  undefined ones.
* `Placed`, `Slips` — when the address is right, and when an undefined symbol has one.

## Main results

* `Kernel.lookup_of_lacks` — a short name that the kernel lacks is not found in its table.
* `symbolAddress_of_named` — the address of a named symbol.
* `symbol_address_iff` — **when it is the address of the symbol.**
* `undefined_symbol_rejected_iff` — **when a module with an undefined symbol is rejected.**
-/

namespace YakOS.Module

open Bytes (cString chars strcmp)

variable {arch4T : Bool} {kernel : Kernel} {info : LoadInfo} {seg : SegmentInfo}
  {name : List UInt8} {r : Rela} {a : BitVec 32}

/-! ### The kernel's table -/

/-- The name of a relocation's symbol, which a NUL ends in the string table. -/
def LoadInfo.Spelled (info : LoadInfo) (r : Rela) (name : List UInt8) : Prop :=
  0 ∉ name ∧ Bytes.read info.file
    ((info.secInfo secTypeStrtab).sOffset + (info.relaSym r).stName).toNat (name.length + 1) = name ++ [0]

instance (info : LoadInfo) (r : Rela) : DecidablePred (info.Spelled r) := fun _ =>
  inferInstanceAs (Decidable (_ ∧ _))

/-- The kernel's table does not have the name of a relocation's symbol. -/
def Kernel.Lacks (kernel : Kernel) (info : LoadInfo) (r : Rela) : Prop :=
  ∀ e ∈ kernel.symbols, ∀ name ∈ e.name, ¬ info.Spelled r name

instance (kernel : Kernel) (info : LoadInfo) (r : Rela) : Decidable (kernel.Lacks info r) :=
  inferInstanceAs (Decidable (∀ e ∈ kernel.symbols, ∀ name ∈ e.name, ¬ info.Spelled r name))

/-- **The names that are read as a whole** into a buffer of 30 bytes: of at most 29 characters,
whatever lies behind it. -/
theorem cString_read_eq_iff {file : ℕ → UInt8} {pos : ℕ} {behind : List UInt8} (h : name.length ≤ 29) :
    cString (Bytes.read file pos 30 ++ behind) = name ↔
      0 ∉ name ∧ Bytes.read file pos (name.length + 1) = name ++ [0] := by
  have hbuf := Bytes.length_read file pos 30
  have hlen : (name ++ [0]).length = name.length + 1 := List.length_append
  have hle : (name ++ [0]).length ≤ 30 := by omega
  have hlt : name.length < (Bytes.read file pos 30 ++ behind).length := by
    rw [List.length_append, hbuf]
    omega
  rw [Bytes.cString_eq_iff hlt, ← hlen, ← Bytes.prefix_read_iff hle]
  refine and_congr_right' ?_
  constructor
  · intro hp
    exact List.prefix_of_prefix_length_le hp (List.prefix_append _ _) (hbuf.symm ▸ hle)
  · intro hp
    exact hp.trans (List.prefix_append _ _)

theorem symtabSearch_of_absent {symbols : List Symbols} {null : List UInt8}
    (h : ∀ e ∈ symbols, e.name ≠ some name) (hnull : ∀ e ∈ symbols, e.name = none → e.value = 0)
    (fuel : ℕ) (start stop : ℤ) : symtabSearch symbols null name fuel start stop = 0 := by
  induction fuel generalizing start stop with
  | zero => rfl
  | succ fuel ih =>
    rw [symtabSearch]
    split
    · cases hentry : symbols[((start + stop) / 2).toNat]? with
      | none => simp only [hentry]
      | some e =>
        have hmem := List.mem_of_getElem? hentry
        simp only [hentry]
        split
        · exact ih _ _
        · split
          · exact ih _ _
          · -- the name of the entry is the one that is looked for: it is a null name
            have hzero : strcmp name (e.name.getD null) = 0 := by omega
            cases hother : e.name with
            | none => exact hnull e hmem hother
            | some other =>
              rw [hother, Option.getD_some] at hzero
              rw [← Bytes.strcmp_eq_zero_iff.mp hzero] at hother
              exact absurd hother (h e hmem)
    · rfl

/-- **A name of at most 29 characters that the kernel's table lacks** is not found in it, whatever the
string at address 0. -/
theorem Kernel.lookup_of_lacks (h : kernel.Lacks info r) (hspelled : info.Spelled r name)
    (hshort : name.length ≤ 29) (hnull : ∀ e ∈ kernel.symbols, e.name = none → e.value = 0) :
    kernel.lookup info r = 0 := by
  have hname : kernel.globalName info r = name := (cString_read_eq_iff hshort).mpr hspelled
  refine symtabSearch_of_absent (fun e he hother => ?_) hnull _ _ _
  rw [hname] at hother
  exact h e he name (Option.mem_def.mpr hother) hspelled

/-! ### The module's table -/

/-- The first symbol of a name, among those that `find_local_symbol` looks at. -/
def LoadInfo.firstNamed (info : LoadInfo) (behind : ℕ → List UInt8) (name : List UInt8) :
    Option Elf32Sym :=
  let symtab := info.secInfo secTypeSymtab
  ((loopOffsets symtab.sOffset ((symtab.sSize.setWidth 16).setWidth 32) 16).find? fun a =>
    (info.sym a).stName != 0 &&
      strcmp (cString (info.symName (info.sym a) ++ behind a)) name == 0).map info.sym

/-- The walk of `find_local_symbol` ends if no symbol stops it. -/
def LoadInfo.SymtabEnds (info : LoadInfo) : Prop :=
  (loopRounds (info.secInfo secTypeSymtab).sOffset
    (((info.secInfo secTypeSymtab).sSize.setWidth 16).setWidth 32) 16).isSome

instance (info : LoadInfo) : Decidable info.SymtabEnds := inferInstanceAs (Decidable (_ = true))

variable {behind : ℕ → List UInt8}

/-- It returns the address of the first symbol, -/
theorem findLocalSymbol_of_some {s : Elf32Sym} (h : info.firstNamed behind name = some s) :
    findLocalSymbol behind info name seg = some (seg.localAddress s) := by
  rw [LoadInfo.firstNamed, Option.map_eq_some_iff] at h
  obtain ⟨a, ha, rfl⟩ := h
  rw [findLocalSymbol]
  simp only [ha]

/-- or `NULL`, if there is none; -/
theorem findLocalSymbol_of_none (h : info.firstNamed behind name = none) (hends : info.SymtabEnds) :
    findLocalSymbol behind info name seg = some 0 := by
  rw [LoadInfo.firstNamed, Option.map_eq_none_iff] at h
  obtain ⟨n, hn⟩ := Option.isSome_iff_exists.mp hends
  rw [findLocalSymbol]
  simp only [h, hn, Option.map_some]

/-- or it does not return. -/
theorem findLocalSymbol_of_endless (h : info.firstNamed behind name = none) (hends : ¬ info.SymtabEnds) :
    findLocalSymbol behind info name seg = none := by
  rw [LoadInfo.firstNamed, Option.map_eq_none_iff] at h
  rw [LoadInfo.SymtabEnds, Bool.not_eq_true, Option.isSome_eq_false_iff, Option.isNone_iff_eq_none]
    at hends
  rw [findLocalSymbol]
  simp only [h, hends, Option.map_none]

/-- The symbol of the module that `find_local_symbol` takes for that of a relocation. -/
def Kernel.firstNamed (kernel : Kernel) (info : LoadInfo) (r : Rela) : Option Elf32Sym :=
  info.firstNamed (kernel.behindSymbol (some r)) (kernel.localName info r)

/-- `find_local_symbol` returns the address `a` for a relocation, which is not `NULL`. -/
def Kernel.FoundAt (kernel : Kernel) (info : LoadInfo) (seg : SegmentInfo) (r : Rela) (a : BitVec 32) :
    Prop :=
  a ≠ 0 ∧ ∃ s, kernel.firstNamed info r = some s ∧ seg.localAddress s = a

/-- `find_local_symbol` comes back in the round for a relocation. -/
def Kernel.Returns (kernel : Kernel) (info : LoadInfo) (r : Rela) : Prop :=
  kernel.firstNamed info r ≠ none ∨ info.SymtabEnds

theorem findLocal_of_foundAt (h : kernel.FoundAt info seg r a) : kernel.findLocal info seg r = some a := by
  obtain ⟨-, s, hs, rfl⟩ := h
  exact findLocalSymbol_of_some hs

theorem findLocal_of_returns (h : kernel.Returns info r) (hnone : ∀ a, ¬ kernel.FoundAt info seg r a) :
    kernel.findLocal info seg r = some 0 := by
  rw [Kernel.findLocal]
  cases hfirst : kernel.firstNamed info r with
  | none => exact findLocalSymbol_of_none hfirst (h.resolve_left (not_not_intro hfirst))
  | some s =>
    have hzero : seg.localAddress s = 0 := by
      by_contra hne
      exact hnone _ ⟨hne, s, hfirst, rfl⟩
    rw [findLocalSymbol_of_some hfirst, hzero]

theorem findLocal_of_not_returns (h : ¬ kernel.Returns info r) :
    kernel.findLocal info seg r = none := by
  obtain ⟨hfirst, hends⟩ := not_or.mp h
  exact findLocalSymbol_of_endless (not_not.mp hfirst) hends

theorem Kernel.FoundAt.returns (h : kernel.FoundAt info seg r a) : kernel.Returns info r := by
  obtain ⟨-, s, hs, -⟩ := h
  exact Or.inl (hs ▸ Option.some_ne_none s)

theorem Kernel.FoundAt.unique {b : BitVec 32} (ha : kernel.FoundAt info seg r a)
    (hb : kernel.FoundAt info seg r b) : a = b :=
  Option.some.inj ((findLocal_of_foundAt ha).symm.trans (findLocal_of_foundAt hb))

/-! ### The address -/

/-- A name that is found in the kernel's table, -/
theorem symbolAddress_of_lookup (hname : (info.relaSym r).stName ≠ 0) (h : kernel.lookup info r ≠ 0) :
    symbolAddress kernel info seg r = .ok (kernel.lookup info r) := by
  rw [symbolAddress, if_pos hname]
  simp only [if_neg h]

/-- one that is found in the module, -/
theorem symbolAddress_of_foundAt (hname : (info.relaSym r).stName ≠ 0) (h : kernel.lookup info r = 0)
    (ha : kernel.FoundAt info seg r a) : symbolAddress kernel info seg r = .ok a := by
  rw [symbolAddress, if_pos hname]
  simp only [if_pos h, findLocal_of_foundAt ha, if_neg ha.1]

/-- and one that is found in neither: the section of the symbol's number is left. -/
theorem symbolAddress_of_not_foundAt (hname : (info.relaSym r).stName ≠ 0)
    (h : kernel.lookup info r = 0) (hreturns : kernel.Returns info r)
    (ha : ∀ a, ¬ kernel.FoundAt info seg r a) :
    symbolAddress kernel info seg r = (match seg.byNumber (info.relaSym r).stShndx with
      | some sect => .ok sect.address
      | none => .error (.error .symbolNotFound)) := by
  rw [symbolAddress, if_pos hname]
  cases seg.byNumber (info.relaSym r).stShndx with
  | none => simp only [if_pos h, findLocal_of_returns hreturns ha, if_true]
  | some sect => simp only [if_pos h, findLocal_of_returns hreturns ha, if_true]

/-- The search of the module's table does not end. -/
theorem symbolAddress_of_not_returns (hname : (info.relaSym r).stName ≠ 0)
    (h : kernel.lookup info r = 0) (hreturns : ¬ kernel.Returns info r) :
    symbolAddress kernel info seg r = .error .fault := by
  rw [symbolAddress, if_pos hname]
  simp only [if_pos h, findLocal_of_not_returns hreturns]

/-- The address `a` is found for a symbol that the kernel does not know: as that of the first symbol
of its name, or else as the start of the section that bears its number. -/
def Kernel.Placed (kernel : Kernel) (info : LoadInfo) (seg : SegmentInfo) (r : Rela) (a : BitVec 32) :
    Prop :=
  kernel.FoundAt info seg r a ∨
    (∀ b, ¬ kernel.FoundAt info seg r b) ∧ kernel.Returns info r ∧
      ∃ sect, seg.byNumber (info.relaSym r).stShndx = some sect ∧ sect.address = a

/-- **The address of a named symbol.** -/
theorem symbolAddress_of_named (hname : (info.relaSym r).stName ≠ 0) (a : BitVec 32) :
    symbolAddress kernel info seg r = .ok a ↔
      kernel.lookup info r ≠ 0 ∧ kernel.lookup info r = a ∨
        kernel.lookup info r = 0 ∧ kernel.Placed info seg r a := by
  by_cases hlookup : kernel.lookup info r = 0
  · rw [or_iff_right fun h => h.1 hlookup, and_iff_right hlookup]
    by_cases hfound : ∃ b, kernel.FoundAt info seg r b
    · obtain ⟨b, hb⟩ := hfound
      rw [symbolAddress_of_foundAt hname hlookup hb, Except.ok.injEq]
      constructor
      · rintro rfl
        exact Or.inl hb
      · rintro (ha | ⟨hnone, -⟩)
        · exact hb.unique ha
        · exact absurd hb (hnone b)
    · rw [not_exists] at hfound
      rw [Kernel.Placed, or_iff_right (hfound a), and_iff_right hfound]
      by_cases hreturns : kernel.Returns info r
      · rw [symbolAddress_of_not_foundAt hname hlookup hreturns hfound, and_iff_right hreturns]
        cases seg.byNumber (info.relaSym r).stShndx with
        | none => simp
        | some sect => simp
      · rw [symbolAddress_of_not_returns hname hlookup hreturns]
        exact iff_of_false nofun fun h => hreturns h.1
  · rw [symbolAddress_of_lookup hname hlookup, Except.ok.injEq, and_iff_right hlookup,
      or_iff_left fun h => hlookup h.1]

/-! ### Symbols of the module -/

/-- A relocation refers to a named symbol of the section that a segment is loaded from, and the
kernel table does not have the name. -/
structure RefersTo (kernel : Kernel) (info : LoadInfo) (k : Segment) (r : Rela) : Prop where
  named : (info.relaSym r).stName ≠ 0
  defined : (info.relaSym r).stShndx ≠ 0
  number : (info.relaSym r).stShndx.setWidth 32 = (info.secInfo k.sec).sNumber
  absent : kernel.Lacks info r

/-- The load address of a segment plus the value of a symbol. -/
def SegmentInfo.symbolAt (seg : SegmentInfo) (k : Segment) (s : Elf32Sym) : BitVec 32 :=
  (seg.get k).address + s.stValue

theorem find?_cons_ite {α : Type*} (p : α → Bool) (a : α) (l : List α) :
    (a :: l).find? p = if p a = true then some a else l.find? p := by
  rw [List.find?_cons]
  cases p a <;> rfl

/-- The first of bss, data, rodata and text that has the section number `n`. -/
def SegmentInfo.numbered (seg : SegmentInfo) (n : BitVec 16) : Option Segment :=
  [Segment.bss, .data, .rodata, .text].find? fun k => n == (seg.get k).number.setWidth 16

theorem byNumber_eq (seg : SegmentInfo) (n : BitVec 16) :
    seg.byNumber n = (seg.numbered n).map seg.get := by
  unfold SegmentInfo.byNumber SegmentInfo.numbered
  simp only [find?_cons_ite, List.find?_nil, beq_iff_eq, SegmentInfo.get]
  split_ifs <;> rfl

theorem localAddress_eq (seg : SegmentInfo) (s : Elf32Sym) :
    seg.localAddress s = ([Segment.bss, .data, .text].find? fun k =>
      s.stShndx == (seg.get k).number.setWidth 16).elim 0 fun k => seg.symbolAt k s := by
  unfold SegmentInfo.localAddress
  simp only [find?_cons_ite, List.find?_nil, beq_iff_eq, SegmentInfo.get]
  split_ifs <;> rfl

theorem numbered_eq_none_iff {n : BitVec 16} :
    seg.numbered n = none ↔ ∀ k, n ≠ (seg.get k).number.setWidth 16 := by
  rw [SegmentInfo.numbered, List.find?_eq_none]
  constructor
  · intro h k hk
    exact h k (by cases k <;> decide) (beq_iff_eq.mpr hk)
  · intro h k _ hk
    exact h k (beq_iff_eq.mp hk)

/-- The start of a segment is the address of a symbol of another one by chance, and that of its
own symbols of value 0. -/
theorem start_eq_symbolAt_iff (seg : SegmentInfo) (k k' : Segment) (s : Elf32Sym) :
    (seg.get k').address = seg.symbolAt k s ↔
      k' = k ∧ s.stValue = 0 ∨ k' ≠ k ∧ (seg.get k').address = seg.symbolAt k s := by
  by_cases hk : k' = k
  · subst hk
    rw [SegmentInfo.symbolAt, left_eq_add]
    simp
  · simp [hk]

/-- **The address of a symbol of the module** is right exactly when the kernel's table gives it;
or, when that gives `NULL`, if either the first symbol of its name lies at this address in bss,
data or text, or there is none in these and the symbol has the value 0 in the segment of its
number. -/
theorem symbol_address_iff (c : LoadCall) (k : Segment) (r : Rela)
    (h : RefersTo c.kernel c.info k r) :
    symbolAddress c.kernel c.info c.seg r = .ok (c.seg.symbolAt k (c.info.relaSym r)) ↔
      c.kernel.lookup c.info r ≠ 0 ∧ c.kernel.lookup c.info r = c.seg.symbolAt k (c.info.relaSym r) ∨
        c.kernel.lookup c.info r = 0 ∧
          (c.kernel.FoundAt c.info c.seg r (c.seg.symbolAt k (c.info.relaSym r)) ∨
            (∀ b, ¬ c.kernel.FoundAt c.info c.seg r b) ∧ c.kernel.Returns c.info r ∧
              ∃ k', c.seg.numbered (c.info.relaSym r).stShndx = some k' ∧
                (k' = k ∧ (c.info.relaSym r).stValue = 0 ∨
                  k' ≠ k ∧ (c.seg.get k').address = c.seg.symbolAt k (c.info.relaSym r))) := by
  rw [symbolAddress_of_named h.named, Kernel.Placed]
  refine or_congr_right (and_congr_right' (or_congr_right (and_congr_right' (and_congr_right' ?_))))
  simp only [byNumber_eq, Option.map_eq_some_iff]
  constructor
  · rintro ⟨sect, ⟨k', hk', rfl⟩, haddr⟩
    exact ⟨k', hk', (start_eq_symbolAt_iff c.seg k k' _).mp haddr⟩
  · rintro ⟨k', hk', haddr⟩
    exact ⟨_, ⟨k', hk', rfl⟩, (start_eq_symbolAt_iff c.seg k k' _).mpr haddr⟩

/-- The bytes of a symbol and of a relocation entry without addend. -/
def Elf32Sym.bytes (s : Elf32Sym) : List UInt8 :=
  Bytes.le32 s.stName.toNat ++ Bytes.le32 s.stValue.toNat ++ List.replicate 6 0 ++
    Bytes.le16 s.stShndx.toNat

def relaBytes (rOffset rInfo : BitVec 32) : List UInt8 := Bytes.le32 rOffset.toNat ++ Bytes.le32 rInfo.toNat

/-- An image whose text refers to the symbol `msg`, at offset 4 of `.rodata`. -/
def rodataImage : BitVec 32 → UInt8 :=
  memoryAt 0x30100000 <| imageBytes
    [⟨0, 0, 0⟩, ⟨1, 348, 4⟩, ⟨7, 352, 8⟩, ⟨17, 360, 8⟩, ⟨25, 368, 48⟩, ⟨33, 292, 55⟩] 5
    (0 :: chars ".text" ++ 0 :: chars ".rel.text" ++ 0 :: chars ".rodata" ++ 0 :: chars ".symtab" ++
      0 :: chars ".strtab" ++ 0 :: chars "msg" ++ 0 :: chars "mod_entry" ++ [0, 0] ++
      [0, 0, 0, 0] ++ relaBytes 0 0x102 ++ List.replicate 8 0 ++
      Elf32Sym.bytes ⟨0, 0, 0⟩ ++ Elf32Sym.bytes ⟨41, 4, 3⟩ ++ Elf32Sym.bytes ⟨45, 0, 1⟩)

/-- A kernel table with the one symbol `printk`; NULs lie at address 0 and behind the buffers. -/
def printkKernel : Kernel :=
  ⟨[⟨some (chars "printk"), 0x30010000⟩, ⟨none, 0⟩], fun _ => [], fun _ => [], fun _ => [],
    fun _ _ => []⟩

/-- Segments are allocated from `0x30200000` on. -/
def blockAt : Segment → BitVec 32
  | .text => 0x30200000
  | .rodata => 0x30201000
  | .data => 0x30202000
  | .bss => 0x30203000

/-- What is recorded of an image, given the entries of `sec_info`. -/
theorem recorded_eq {input : BitVec 32 → UInt8} {inputAddr : BitVec 32} {secInfo : List SecInfo}
    (h : (List.ofFn (LoadInfo.recorded input inputAddr).secInfo) = secInfo) :
    LoadInfo.recorded input inputAddr = ⟨input, inputAddr, fun k => secInfo.getD k default⟩ := by
  show (⟨input, inputAddr, (LoadInfo.recorded input inputAddr).secInfo⟩ : LoadInfo) = _
  congr 1
  funext k
  rw [← h, List.getD_eq_getElem?_getD, List.getElem?_ofFn, dif_pos k.isLt]
  rfl

/-- The sections of `rodataImage`. -/
def rodataRecord : LoadInfo :=
  ⟨rodataImage, 0x30100000, fun k => [⟨348, 4, 352, 8, 0, 1⟩, ⟨360, 8, 0, 0, 0, 3⟩, ⟨0, 0, 0, 0, 0, 0⟩,
    ⟨368, 48, 0, 0, 0, 0⟩, ⟨292, 55, 0, 0, 0, 0⟩, ⟨0, 0, 0, 0, 0, 0⟩].getD k default⟩

/-- The call that loads it. -/
def loadRodataImage : LoadCall :=
  ⟨false, printkKernel, blockAt, rodataImage, 0x30100000, allocKmodule fun _ => 0⟩

theorem info_loadRodataImage : loadRodataImage.info = rodataRecord :=
  recorded_eq (by decide +kernel)

/-- A symbol inside `.rodata` is taken for the start of the section. -/
theorem rodata_symbol_address :
    ¬ ∀ (c : LoadCall) (t : SegType) (k : Segment), ∀ r ∈ c.table t, RefersTo c.kernel c.info k r →
      symbolAddress c.kernel c.info c.seg r = .ok (c.seg.symbolAt k (c.info.relaSym r)) := by
  intro h
  have haddr := h loadRodataImage .text .rodata ⟨0, 0x102, .text, 0⟩
  unfold LoadCall.table LoadCall.seg LoadCall.allocated at haddr
  rw [info_loadRodataImage] at haddr
  have hrefers : RefersTo printkKernel rodataRecord .rodata ⟨0, 0x102, .text, 0⟩ :=
    ⟨by decide +kernel, by decide +kernel, by decide +kernel, by decide +kernel⟩
  exact absurd (haddr (by decide +kernel) hrefers) (by decide +kernel)

/-- The symbol `mod_entry` of the text section has the right address. -/
theorem symbol_address_text :
    symbolAddress printkKernel rodataRecord loadRodataImage.seg ⟨0, 0x202, .text, 1⟩
      = .ok 0x30200000 := by
  have hrefers : RefersTo printkKernel rodataRecord .text ⟨0, 0x202, .text, 1⟩ :=
    ⟨by decide +kernel, by decide +kernel, by decide +kernel, by decide +kernel⟩
  rw [← info_loadRodataImage] at hrefers
  have h := symbol_address_iff loadRodataImage .text ⟨0, 0x202, .text, 1⟩ hrefers
  unfold LoadCall.seg LoadCall.allocated at h ⊢
  rw [info_loadRodataImage] at h ⊢
  exact h.mpr (Or.inr ⟨by decide +kernel, Or.inl ⟨by decide +kernel, ⟨45, 0, 1⟩, by decide +kernel,
    by decide +kernel⟩⟩)

/-- In the ordinary case the address is right unless the symbol lies inside the rodata section:
its name has at most 29 characters, its own symbol is the first of this name, and its segment is
loaded and bears its number alone. -/
theorem symbolAddress_ordinary_iff {k : Segment} (h : RefersTo kernel info k r)
    (hspelled : info.Spelled r name) (hshort : name.length ≤ 29)
    (hnull : ∀ e ∈ kernel.symbols, e.name = none → e.value = 0)
    (hfirst : kernel.firstNamed info r = some (info.relaSym r))
    (hnum : ∀ k', (info.relaSym r).stShndx = (seg.get k').number.setWidth 16 ↔ k' = k)
    (hne : seg.symbolAt k (info.relaSym r) ≠ 0) :
    symbolAddress kernel info seg r = .ok (seg.symbolAt k (info.relaSym r)) ↔
      k ≠ .rodata ∨ (info.relaSym r).stValue = 0 := by
  have hlookup := Kernel.lookup_of_lacks h.absent hspelled hshort hnull
  have hbeq : ∀ k', ((info.relaSym r).stShndx == (seg.get k').number.setWidth 16) = (k' == k) := by
    intro k'
    rw [Bool.eq_iff_iff, beq_iff_eq, beq_iff_eq]
    exact hnum k'
  have hsect : seg.byNumber (info.relaSym r).stShndx = some (seg.get k) := by
    rw [byNumber_eq, SegmentInfo.numbered]
    simp only [hbeq]
    cases k <;> rfl
  have hlocal : seg.localAddress (info.relaSym r)
      = if k = .rodata then 0 else seg.symbolAt k (info.relaSym r) := by
    rw [localAddress_eq]
    simp only [hbeq]
    cases k <;> rfl
  by_cases hk : k = .rodata
  · -- the module's own table is of no help: the start of the section is taken
    have hnone : ∀ a, ¬ kernel.FoundAt info seg r a := by
      rintro a ⟨ha, s, hs, hsa⟩
      obtain rfl := Option.some.inj (hfirst.symm.trans hs)
      rw [hlocal, if_pos hk] at hsa
      exact ha hsa.symm
    have hreturns : kernel.Returns info r := Or.inl (hfirst ▸ Option.some_ne_none _)
    rw [symbolAddress_of_not_foundAt h.named hlookup hreturns hnone, hsect,
      or_iff_right (not_not_intro hk), Except.ok.injEq, SegmentInfo.symbolAt, left_eq_add]
  · have hfound : kernel.FoundAt info seg r (seg.symbolAt k (info.relaSym r)) :=
      ⟨hne, _, hfirst, by rw [hlocal, if_neg hk]⟩
    exact iff_of_true (symbolAddress_of_foundAt h.named hlookup hfound) (Or.inl hk)

/-! ### Undefined symbols -/

/-- A relocation refers to a named symbol that the module leaves undefined, and the kernel table
does not have the name. -/
structure Undefined (kernel : Kernel) (info : LoadInfo) (r : Rela) : Prop where
  named : (info.relaSym r).stName ≠ 0
  number : (info.relaSym r).stShndx = 0
  absent : kernel.Lacks info r

namespace LoadCall

/-- Some entry of a relocation table of the image, as its section header gives it, refers to an
undefined symbol. -/
def LeavesUndefined (c : LoadCall) : Prop :=
  ∃ t relas j i, (LoadInfo.cleared c.input c.inputAddr).LastTable t relas j ∧
    relSize relas * (i + 1) ≤ (c.info.shdr j).shSize.toNat ∧
    Undefined c.kernel c.info (c.info.rela (t, i) ((c.info.shdr j).shOffset.toNat + relSize relas * i))

/-- An undefined symbol is given an address: the kernel's table gives one for what is read as its
name, or the module has a symbol of that name in bss, data or text, or lacks a segment, so that 0
is the number of one as far as 8 bits go. -/
def Slips (c : LoadCall) (r : Rela) : Prop :=
  c.kernel.lookup c.info r ≠ 0 ∨ (∃ a, c.kernel.FoundAt c.info c.seg r a) ∨
    c.kernel.Returns c.info r ∧ ∃ k : Segment, (c.info.secInfo k.sec).sNumber.setWidth 8 = 0#8

variable {c : LoadCall}

/-- A segment has the number of its section, as far as 8 bits go. -/
theorem number_seg (c : LoadCall) (k : Segment) :
    (c.seg.get k).number = (c.info.secInfo k.sec).sNumber.setWidth 8 := by
  cases k <;> rfl

theorem byNumber_zero_iff :
    c.seg.byNumber 0 = none ↔ ¬ ∃ k : Segment, (c.info.secInfo k.sec).sNumber.setWidth 8 = 0#8 := by
  rw [byNumber_eq, Option.map_eq_none_iff, numbered_eq_none_iff, not_exists]
  apply forall_congr'
  intro k
  rw [number_seg]
  bv_omega

/-- **An undefined symbol** is given an address exactly when it slips through. -/
theorem slips_iff (h : Undefined c.kernel c.info r) :
    c.Slips r ↔ ∃ a, symbolAddress c.kernel c.info c.seg r = .ok a := by
  constructor
  · intro hslips
    by_cases hlookup : c.kernel.lookup c.info r = 0
    · by_cases hfound : ∃ a, c.kernel.FoundAt c.info c.seg r a
      · obtain ⟨a, ha⟩ := hfound
        exact ⟨a, symbolAddress_of_foundAt h.named hlookup ha⟩
      · obtain ⟨hreturns, hnumber⟩ :=
          (hslips.resolve_left (not_not_intro hlookup)).resolve_left hfound
        have hsome : c.seg.byNumber 0 ≠ none := fun hnone => byNumber_zero_iff.mp hnone hnumber
        obtain ⟨sect, hsect⟩ := Option.ne_none_iff_exists'.mp hsome
        rw [symbolAddress_of_not_foundAt h.named hlookup hreturns (not_exists.mp hfound), h.number,
          hsect]
        exact ⟨sect.address, rfl⟩
    · exact ⟨_, symbolAddress_of_lookup h.named hlookup⟩
  · rintro ⟨a, ha⟩
    rcases (symbolAddress_of_named h.named a).mp ha with ⟨hlookup, -⟩ | ⟨-, hfound | hsect⟩
    · exact Or.inl hlookup
    · exact Or.inr (Or.inl ⟨a, hfound⟩)
    · obtain ⟨-, hreturns, sect, hsect, -⟩ := hsect
      refine Or.inr (Or.inr ⟨hreturns, ?_⟩)
      by_contra hnumber
      rw [h.number, byNumber_zero_iff.mpr hnumber] at hsect
      cases hsect

/-- Otherwise it is reported, unless the search of the module's table does not end. -/
theorem symbolAddress_of_not_slips (h : Undefined c.kernel c.info r) (hslips : ¬ c.Slips r)
    (hreturns : c.kernel.Returns c.info r) :
    symbolAddress c.kernel c.info c.seg r = .error (.error .symbolNotFound) := by
  obtain ⟨hlookup, hrest⟩ := not_or.mp hslips
  obtain ⟨hfound, hnumber⟩ := not_or.mp hrest
  have hzero : ¬ ∃ k : Segment, (c.info.secInfo k.sec).sNumber.setWidth 8 = 0#8 := fun hk =>
    hnumber ⟨hreturns, hk⟩
  rw [symbolAddress_of_not_foundAt h.named (not_not.mp hlookup) hreturns (not_exists.mp hfound),
    h.number, byNumber_zero_iff.mpr hzero]

/-- Nothing but the undefined symbols can keep the image from being loaded: its headers are
accepted, its relocation tables end, every other symbol has an address, every word can be patched,
and `mod_entry` is found. -/
structure AcceptedOtherwise (c : LoadCall) : Prop where
  headers : HeadersOk c.input c.inputAddr
  ends : ∀ t, TableEnds c.info t (usingRelas c.info t)
  resolved : ∀ t, ∀ r ∈ c.table t, ¬ Undefined c.kernel c.info r →
    ∃ a, symbolAddress c.kernel c.info c.seg r = .ok a
  patched : ∀ t, ∀ r ∈ c.table t, ∀ a, symbolAddress c.kernel c.info c.seg r = .ok a →
    ∃ w, patchWord c.arch4T r.type (c.info.word t r) (c.address t + r.rOffset) a = .ok w
  entry : ∃ e, c.entry = some e ∧ e ≠ 0

theorem relocatable_iff {t : SegType} :
    Relocatable c.arch4T c.kernel c.info (c.address t) t c.seg ↔
      TableEnds c.info t (usingRelas c.info t) ∧
        ∀ r ∈ c.table t, (∃ a, symbolAddress c.kernel c.info c.seg r = .ok a) ∧
          ∀ a, symbolAddress c.kernel c.info c.seg r = .ok a →
            ∃ w, patchWord c.arch4T r.type (c.info.word t r) (c.address t + r.rOffset) a = .ok w := by
  refine and_congr_right' (forall₂_congr fun r _ => ?_)
  constructor
  · rintro ⟨w, a, ha, hw⟩
    refine ⟨⟨a, ha⟩, fun b hb => ⟨w, ?_⟩⟩
    rw [← Except.ok.inj (ha.symm.trans hb)]
    exact hw
  · rintro ⟨⟨a, ha⟩, hpatch⟩
    obtain ⟨w, hw⟩ := hpatch a ha
    exact ⟨w, a, ha, hw⟩

/-- A module is loaded exactly when nothing else is in the way and every undefined symbol slips
through. -/
theorem run_ok_iff_slips (c : LoadCall) :
    (∃ res, c.run = .ok res) ↔
      c.AcceptedOtherwise ∧ ∀ t, ∀ r ∈ c.table t, Undefined c.kernel c.info r → c.Slips r := by
  rw [run_ok_iff]
  constructor
  · rintro ⟨hheaders, hreloc, hentry⟩
    have hall := fun t => relocatable_iff.mp (hreloc t)
    exact ⟨⟨hheaders, fun t => (hall t).1, fun t r hr _ => ((hall t).2 r hr).1,
        fun t r hr => ((hall t).2 r hr).2, hentry⟩,
      fun t r hr hundef => (slips_iff hundef).mpr ((hall t).2 r hr).1⟩
  · rintro ⟨⟨hheaders, hends, hresolved, hpatched, hentry⟩, hslips⟩
    refine ⟨hheaders, fun t => relocatable_iff.mpr ⟨hends t, fun r hr => ⟨?_, hpatched t r hr⟩⟩, hentry⟩
    by_cases hundef : Undefined c.kernel c.info r
    · exact (slips_iff hundef).mp (hslips t r hr hundef)
    · exact hresolved t r hr hundef

end LoadCall

/-- **A module that leaves a symbol undefined is rejected exactly when one of these symbols does not
slip through**, or something else is in the way; and the round that meets such a symbol reports
`MODULE_SYMBOL_NOT_FOUND` if its search of the module's table ends. -/
theorem undefined_symbol_rejected_iff (c : LoadCall) :
    ((c.LeavesUndefined → ∀ res, c.run ≠ .ok res) ↔
      (c.LeavesUndefined → ¬ c.AcceptedOtherwise ∨
        ∃ t, ∃ r ∈ c.table t, Undefined c.kernel c.info r ∧ ¬ c.Slips r)) ∧
      ∀ t o r, o.segInfo = c.seg → Undefined c.kernel c.info r → ¬ c.Slips r →
        c.kernel.Returns c.info r →
          relocateEntry c.arch4T c.kernel c.info (c.address t) t o r
            = .error (.error .symbolNotFound) := by
  constructor
  · apply imp_congr_right
    intro _
    rw [← not_exists, c.run_ok_iff_slips, not_and_or]
    simp only [not_forall, exists_prop]
  · intro t o r hseg hundef hslips hreturns
    rw [relocateEntry_eq, hseg, LoadCall.symbolAddress_of_not_slips hundef hslips hreturns]
    rfl

/-- An image without rodata, data and bss, whose text refers to the undefined symbol `foo`. -/
def undefinedImage : BitVec 32 → UInt8 :=
  memoryAt 0x30100000 <|
    imageBytes [⟨0, 0, 0⟩, ⟨1, 300, 4⟩, ⟨7, 304, 8⟩, ⟨17, 312, 48⟩, ⟨25, 252, 47⟩] 4
      (0 :: chars ".text" ++ 0 :: chars ".rel.text" ++ 0 :: chars ".symtab" ++ 0 :: chars ".strtab" ++
        0 :: chars "foo" ++ 0 :: chars "mod_entry" ++ [0, 0] ++
        [0, 0, 0, 0] ++ relaBytes 0 0x102 ++
        Elf32Sym.bytes ⟨0, 0, 0⟩ ++ Elf32Sym.bytes ⟨33, 0, 0⟩ ++ Elf32Sym.bytes ⟨37, 0, 1⟩)

/-- The call that loads it. -/
def loadUndefinedImage : LoadCall :=
  ⟨false, printkKernel, blockAt, undefinedImage, 0x30100000, allocKmodule fun _ => 0⟩

/-- It is loaded: the missing segments have the number of undefined symbols. -/
theorem undefined_symbol_loaded : ¬ ∀ c : LoadCall, c.LeavesUndefined → ∀ res, c.run ≠ .ok res := by
  intro h
  have hlast : (LoadInfo.cleared undefinedImage 0x30100000).LastTable .text false 2 :=
    LoadInfo.lastTable_of_no_later (by decide +kernel) (by decide +kernel) (by decide +kernel)
  have hundef : loadUndefinedImage.LeavesUndefined :=
    ⟨.text, false, 2, 0, hlast, by decide +kernel,
      ⟨by decide +kernel, by decide +kernel, by decide +kernel⟩⟩
  have hload : loadUndefinedImage.run.toOption.isSome = true := by decide +kernel
  obtain ⟨res, hres⟩ := Option.isSome_iff_exists.mp hload
  exact h _ hundef res (eq_ok_of_toOption hres)

end YakOS.Module
