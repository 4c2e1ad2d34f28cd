import YakOS.Lib.Lists
import YakOS.Module.Elf

/-!
# The sections of a module image

The loader walks the section headers of an image once and keeps, for each kind of
section it knows, where the section lies.  A header is classed by its name, which is
only compared with the names of the source as far as these reach, and a later header of
a kind overwrites an earlier one.  So what is kept is the *last* section whose name
begins in the right way, and not the one that bears the name.

## Main definitions

* `Elf32Ehdr`, `Elf32Shdr` — the headers, as far as they are read.
* `SecName` — the names the loader knows, in the order in which it tests them.
* `elfHeaderCheck`, `elfGetSecInfo` — the walk over an image.
* `LoadInfo.Bears`, `LoadInfo.LastOf` — the section of a name, and the one that is kept.

## Main results

* `matchName_eq_some_iff` — the chain of tests has one branch for a name.
* `elfGetSecInfo_fields` — the last section of a slot is what the slot keeps.
* `sections_recorded_iff` — **when each kept section is the one that bears the name.**
-/

namespace YakOS.Module

open Bytes (cString strncmp chars)

/-! ### Headers -/

/-- `struct elf32_ehdr`, as far as the loader reads it. -/
structure Elf32Ehdr where
  eIdent : List UInt8
  eShoff : BitVec 32
  eShentsize : BitVec 16
  eShnum : BitVec 16
  eShstrndx : BitVec 16
  deriving DecidableEq, Repr

/-- The header at the start of the image. -/
def LoadInfo.ehdr (info : LoadInfo) : Elf32Ehdr :=
  ⟨Bytes.read info.file 0 16, .ofNat 32 (Bytes.u32 info.file 32),
    .ofNat 16 (Bytes.u16 info.file 46), .ofNat 16 (Bytes.u16 info.file 48),
    .ofNat 16 (Bytes.u16 info.file 50)⟩

/-- `struct elf32_shdr`, as far as the loader reads it. -/
structure Elf32Shdr where
  shName : BitVec 32
  shOffset : BitVec 32
  shSize : BitVec 32
  deriving DecidableEq, Repr

/-- `elf_magic_header`: 32-bit objects, LSB data, ELF version 1. -/
def elfMagicHeader : List UInt8 := [0x7f, 0x45, 0x4c, 0x46, 0x01, 0x01, 0x01]

/-- `elf_header_check`: the error it returns, if any. -/
def elfHeaderCheck (info : LoadInfo) : Option ModuleError :=
  if info.ehdr.eIdent.take elfMagicHeader.length ≠ elfMagicHeader then some .badElfHeader
  else none

/-- `shdrptr` after `i` rounds of the loop of `elf_get_sec_info`. -/
def LoadInfo.shdrptr (info : LoadInfo) (i : ℕ) : BitVec 32 :=
  info.ehdr.eShoff + .ofNat 32 (info.ehdr.eShentsize.toNat * i)

/-- The section header of index `i`. -/
def LoadInfo.shdr (info : LoadInfo) (i : ℕ) : Elf32Shdr :=
  let a := (info.shdrptr i).toNat
  ⟨.ofNat 32 (Bytes.u32 info.file a), .ofNat 32 (Bytes.u32 info.file (a + 16)),
    .ofNat 32 (Bytes.u32 info.file (a + 20))⟩

/-- `strs`: where the names of the sections are. -/
def LoadInfo.strs (info : LoadInfo) : BitVec 32 := (info.shdr info.ehdr.eShstrndx.toNat).shOffset

/-- `nameptr`: where the name of the section of index `i` is. -/
def LoadInfo.nameptr (info : LoadInfo) (i : ℕ) : ℕ := (info.strs + (info.shdr i).shName).toNat

/-! ### Names -/

/-- The section names that `elf_get_sec_info` compares with. -/
inductive SecName where
  | text | relText | relaText | rodata | relRodata | relaRodata | data | relData | relaData
  | symtab | strtab | bss
  deriving DecidableEq, Repr

namespace SecName

/-- The names in the order of the tests. -/
def all : List SecName :=
  [text, relText, relaText, rodata, relRodata, relaRodata, data, relData, relaData, symtab, strtab,
    bss]

/-- The name itself; the tests compare as many characters as it has. -/
def literal : SecName → List UInt8
  | text => chars ".text"
  | relText => chars ".rel.text"
  | relaText => chars ".rela.text"
  | rodata => chars ".rodata"
  | relRodata => chars ".rel.rodata"
  | relaRodata => chars ".rela.rodata"
  | data => chars ".data"
  | relData => chars ".rel.data"
  | relaData => chars ".rela.data"
  | symtab => chars ".symtab"
  | strtab => chars ".strtab"
  | bss => chars ".bss"

/-- The entry of `sec_info` that a section of the name is kept in. -/
def sec : SecName → Fin 6
  | text | relText | relaText => 0
  | rodata | relRodata | relaRodata => 1
  | data | relData | relaData => 2
  | symtab => 3
  | strtab => 4
  | bss => 5

/-- The name is that of a relocation table. -/
def isTable : SecName → Bool
  | relText | relaText | relRodata | relaRodata | relData | relaData => true
  | _ => false

/-- Two names write the same fields of the same entry of `sec_info`. -/
def SameSlot (n m : SecName) : Prop := n.sec = m.sec ∧ n.isTable = m.isTable

instance (n m : SecName) : Decidable (n.SameSlot m) := inferInstanceAs (Decidable (_ ∧ _))

/-- The body of the test for a name: the assignments to its entry of `sec_info`. -/
def assign (n : SecName) (s : SecInfo) (i : BitVec 32) (shdr : Elf32Shdr) : SecInfo :=
  match n with
  | text | rodata | data => { s with sOffset := shdr.shOffset, sSize := shdr.shSize, sNumber := i }
  | relText | relData => { s with sRelas := 0, sReloff := shdr.shOffset, sRelsize := shdr.shSize }
  | relaText | relaRodata | relaData =>
      { s with sRelas := 1, sReloff := shdr.shOffset, sRelsize := shdr.shSize }
  -- `.rel.rodata` sets the flag as well
  | relRodata => { s with sRelas := 1, sReloff := shdr.shOffset, sRelsize := shdr.shSize }
  | symtab | strtab => { s with sOffset := shdr.shOffset, sSize := shdr.shSize }
  | bss => { s with sSize := shdr.shSize, sNumber := i, sOffset := 0 }

end SecName

/-- The chain of tests of `elf_get_sec_info` on the 12 bytes read from `nameptr`. -/
def matchName (name : List UInt8) : Option SecName :=
  SecName.all.find? fun n => strncmp (cString name) n.literal n.literal.length == 0

/-! ### The walk -/

/-- One round of the loop of `elf_get_sec_info`. -/
def recordSection (info : LoadInfo) (secInfo : Fin 6 → SecInfo) (i : ℕ) : Fin 6 → SecInfo :=
  match matchName (Bytes.read info.file (info.nameptr i) 12) with
  | some n => Function.update secInfo n.sec (n.assign (secInfo n.sec) (.ofNat 32 i) (info.shdr i))
  | none => secInfo

/-- `elf_get_sec_info`: what it leaves behind, and the error it returns, if any. -/
def elfGetSecInfo (info : LoadInfo) : LoadInfo × Option ModuleError :=
  let secInfo := (List.range info.ehdr.eShnum.toNat).foldl (recordSection info) info.secInfo
  ({ info with secInfo := secInfo },
    if (secInfo secTypeSymtab).sSize = 0 then some .noSymtab
    else if (secInfo secTypeStrtab).sSize = 0 then some .noStrtab
    else if (secInfo SegType.text.sec).sSize = 0 then some .noText
    else none)

/-- The walk leaves the image alone. -/
@[simp] theorem shdr_elfGetSecInfo (info : LoadInfo) (i : ℕ) :
    (elfGetSecInfo info).1.shdr i = info.shdr i := rfl

/-- The record of an image before the walk, as `_load_module` clears it. -/
def LoadInfo.cleared (input : BitVec 32 → UInt8) (inputAddr : BitVec 32) : LoadInfo :=
  ⟨input, inputAddr, fun _ => ⟨0, 0, 0, 0, 0, 0⟩⟩

/-! ### What a name stands for -/

namespace SecName

/-- The fields that sections of the name are kept in. -/
def fields (n : SecName) (s : SecInfo) : List (BitVec 32) :=
  match n with
  | text | rodata | data | bss => [s.sOffset, s.sSize, s.sNumber]
  | symtab | strtab => [s.sOffset, s.sSize]
  | relText | relaText | relRodata | relaRodata | relData | relaData => [s.sReloff, s.sRelsize]

/-- The offset, size and number of a section, as far as they are kept under its name: a `.bss`
section has no bytes in the image, and no one asks for the number of a table. -/
def values (n : SecName) (i : ℕ) (shdr : Elf32Shdr) : List (BitVec 32) :=
  match n with
  | text | rodata | data => [shdr.shOffset, shdr.shSize, .ofNat 32 i]
  | bss => [0, shdr.shSize, .ofNat 32 i]
  | symtab | strtab | relText | relaText | relRodata | relaRodata | relData | relaData =>
      [shdr.shOffset, shdr.shSize]

/-- The number of a section of the name is kept. -/
def Numbered : SecName → Prop
  | text | rodata | data | bss => True
  | _ => False

instance : DecidablePred Numbered := fun n => by
  cases n <;> first | exact isTrue trivial | exact isFalse id

theorem mem_all (n : SecName) : n ∈ all := by
  cases n <;> decide

theorem length_literal_le (n : SecName) : n.literal.length ≤ 12 := by
  cases n <;> decide

theorem zero_notMem_literal (n : SecName) : 0 ∉ n.literal := by
  cases n <;> decide

/-- No name begins with another one. -/
theorem eq_of_literal_prefix {n m : SecName} (h : n.literal <+: m.literal) : n = m := by
  revert h
  cases n <;> cases m <;> decide

theorem SameSlot.symm {n m : SecName} (h : n.SameSlot m) : m.SameSlot n := ⟨h.1.symm, h.2.symm⟩

/-- The assignments for a name set the fields of its slot, -/
theorem fields_assign {n m : SecName} (h : m.SameSlot n) (s : SecInfo) (i : ℕ) (shdr : Elf32Shdr) :
    n.fields (m.assign s (.ofNat 32 i) shdr) = n.values i shdr := by
  cases n <;> cases m <;> first | rfl | exact absurd h (by decide)

/-- and leave the other fields of the entry alone. -/
theorem fields_assign_of_ne {n m : SecName} (hsec : m.sec = n.sec) (h : m.isTable ≠ n.isTable)
    (s : SecInfo) (i : BitVec 32) (shdr : Elf32Shdr) : n.fields (m.assign s i shdr) = n.fields s := by
  cases n <;> cases m <;> first | rfl | exact absurd hsec (by decide) | exact absurd rfl h

/-- Two sections of the image are kept alike when they are the same one or, where no number is
kept, when they have the same offset and size. -/
theorem values_eq_iff {n : SecName} {i j : ℕ} (hi : i < 2 ^ 32) (hj : j < 2 ^ 32)
    (shdr : ℕ → Elf32Shdr) :
    n.values j (shdr j) = n.values i (shdr i) ↔
      j = i ∨ ¬ n.Numbered ∧ (shdr j).shOffset = (shdr i).shOffset ∧
        (shdr j).shSize = (shdr i).shSize := by
  have hij : BitVec.ofNat 32 j = BitVec.ofNat 32 i → j = i := by
    intro h
    rw [← Bytes.toNat_ofNat_of_lt hi, ← h, Bytes.toNat_ofNat_of_lt hj]
  constructor
  · intro h
    cases n <;> simp only [values, Numbered, List.cons.injEq] at h ⊢ <;> tauto
  · rintro (rfl | ⟨hn, hoff, hsize⟩)
    · rfl
    · cases n <;> simp_all [values, Numbered]

end SecName

/-- The section of index `i` has the name `n`. -/
def LoadInfo.Bears (info : LoadInfo) (i : ℕ) (n : SecName) : Prop :=
  i < info.ehdr.eShnum.toNat ∧
    Bytes.read info.file (info.nameptr i) (n.literal.length + 1) = n.literal ++ [0]

/-- The name of the section of index `i` begins with `n`. -/
def LoadInfo.Begins (info : LoadInfo) (i : ℕ) (n : SecName) : Prop :=
  Bytes.read info.file (info.nameptr i) n.literal.length = n.literal

/-- The section of index `j` is the last one whose name begins with one that is kept where
sections named `n` are kept. -/
def LoadInfo.LastOf (info : LoadInfo) (j : ℕ) (n : SecName) : Prop :=
  j < info.ehdr.eShnum.toNat ∧ (∃ m, m.SameSlot n ∧ info.Begins j m) ∧
    ∀ k, j < k → k < info.ehdr.eShnum.toNat → ¬ ∃ m, m.SameSlot n ∧ info.Begins k m

variable {info : LoadInfo} {i j : ℕ} {n m : SecName}

instance : Decidable (info.Bears i n) := inferInstanceAs (Decidable (_ ∧ _))

instance : Decidable (info.Begins i n) := inferInstanceAs (Decidable (_ = _))

theorem LoadInfo.Bears.begins (h : info.Bears i n) : info.Begins i n := by
  have htake := congrArg (List.take n.literal.length) h.2
  rwa [Bytes.take_read _ _ (Nat.le_succ _), List.take_left' rfl] at htake

/-- **The chain of tests** has one branch for a name, wherever it stands in the chain. -/
theorem matchName_eq_some_iff {name : List UInt8} : matchName name = some n ↔ n.literal <+: name := by
  have htest : ∀ m : SecName, (strncmp (cString name) m.literal m.literal.length == 0) = true ↔
      m.literal <+: name := by
    intro m
    rw [beq_iff_eq, Bytes.strncmp_length_eq_zero_iff, Bytes.prefix_cString_iff m.zero_notMem_literal]
  have hfound : ∀ m, matchName name = some m → m.literal <+: name := by
    intro m hm
    rw [matchName] at hm
    have htrue := List.find?_some hm
    exact (htest m).mp htrue
  constructor
  · exact hfound n
  · intro h
    have hsome : (matchName name).isSome = true :=
      List.find?_isSome.mpr ⟨n, n.mem_all, (htest n).mpr h⟩
    obtain ⟨m, hm⟩ := Option.isSome_iff_exists.mp hsome
    -- of two names that both begin the string, the shorter one begins the longer one
    have heq : m = n := (List.prefix_or_prefix_of_prefix (hfound m hm) h).elim SecName.eq_of_literal_prefix
      fun hnm => (SecName.eq_of_literal_prefix hnm).symm
    rwa [heq] at hm

theorem matchName_section_iff :
    matchName (Bytes.read info.file (info.nameptr i) 12) = some n ↔ info.Begins i n := by
  rw [matchName_eq_some_iff, Bytes.prefix_read_iff n.length_literal_le]
  rfl

theorem LoadInfo.Begins.eq (h : info.Begins i n) (h' : info.Begins i m) : n = m := by
  rw [← matchName_section_iff] at h h'
  exact Option.some.inj (h.symm.trans h')

/-! ### What the walk keeps -/

/-- A round, seen from one entry of `sec_info`: the assignments of the name that the section's name
begins with, if it is kept there. -/
theorem recordSection_of_begins (secInfo : Fin 6 → SecInfo) (h : info.Begins i m) {k : Fin 6}
    (hsec : m.sec = k) :
    recordSection info secInfo i k = m.assign (secInfo k) (.ofNat 32 i) (info.shdr i) := by
  subst hsec
  rw [recordSection, matchName_section_iff.mpr h]
  exact Function.update_self _ _ _

theorem recordSection_of_ne (secInfo : Fin 6 → SecInfo) {k : Fin 6}
    (h : ∀ m, info.Begins i m → m.sec ≠ k) : recordSection info secInfo i k = secInfo k := by
  rw [recordSection]
  cases hmatch : matchName (Bytes.read info.file (info.nameptr i) 12) with
  | none => rfl
  | some m => exact Function.update_of_ne (h m (matchName_section_iff.mp hmatch)).symm _ _

theorem fields_recordSection_of_hit (secInfo : Fin 6 → SecInfo)
    (h : ∃ m, m.SameSlot n ∧ info.Begins i m) :
    n.fields (recordSection info secInfo i n.sec) = n.values i (info.shdr i) := by
  obtain ⟨m, hslot, hm⟩ := h
  rw [recordSection_of_begins secInfo hm hslot.1]
  exact SecName.fields_assign hslot _ i _

theorem fields_recordSection_of_miss (secInfo : Fin 6 → SecInfo)
    (h : ¬ ∃ m, m.SameSlot n ∧ info.Begins i m) :
    n.fields (recordSection info secInfo i n.sec) = n.fields (secInfo n.sec) := by
  by_cases hsec : ∃ m, info.Begins i m ∧ m.sec = n.sec
  · obtain ⟨m, hm, hsec⟩ := hsec
    have htable : m.isTable ≠ n.isTable := fun ht => h ⟨m, ⟨hsec, ht⟩, hm⟩
    rw [recordSection_of_begins secInfo hm hsec]
    exact SecName.fields_assign_of_ne hsec htable _ _ _
  · rw [recordSection_of_ne secInfo fun m hm hk => hsec ⟨m, hm, hk⟩]

/-- **The last section of a slot is what the slot keeps.** -/
theorem elfGetSecInfo_fields (h : info.LastOf j n) :
    n.fields ((elfGetSecInfo info).1.secInfo n.sec) = n.values j (info.shdr j) :=
  Lists.foldl_range_of_last (fun i => ∃ m, m.SameSlot n ∧ info.Begins i m)
    (fun secInfo => n.fields (secInfo n.sec)) (fun j v => v = n.values j (info.shdr j))
    (fun s _ => fields_recordSection_of_hit s) (fun s _ => fields_recordSection_of_miss s)
    h.1 h.2.1 h.2.2 _

theorem LoadInfo.Bears.exists_lastOf (h : info.Bears i n) : ∃ j, info.LastOf j n := by
  obtain ⟨j, hj, hlast⟩ :=
    Lists.exists_last (fun j => ∃ m, m.SameSlot n ∧ info.Begins j m) h.1 ⟨n, ⟨rfl, rfl⟩, h.begins⟩
  exact ⟨j, hj, hlast⟩

/-- The record holds the section of index `i`, under the name `n`. -/
def LoadInfo.Records (info : LoadInfo) (i : ℕ) (n : SecName) : Prop :=
  n.fields (info.secInfo n.sec) = n.values i (info.shdr i)

/-- **Each section that bears a name is the one that is kept under it exactly when no section
whose name merely begins in the right way comes later**, or none that differs from it. -/
theorem sections_recorded_iff (info : LoadInfo) :
    (∀ i n, info.Bears i n → (elfGetSecInfo info).1.Records i n) ↔
      ∀ i n, info.Bears i n → ∀ j, info.LastOf j n → j = i ∨ ¬ n.Numbered ∧
        (info.shdr j).shOffset = (info.shdr i).shOffset ∧
          (info.shdr j).shSize = (info.shdr i).shSize := by
  have hlt : ∀ {k}, k < info.ehdr.eShnum.toNat → k < 2 ^ 32 := fun hk =>
    hk.trans (lt_trans (BitVec.isLt _) (by decide))
  have hstep : ∀ {i n j}, info.Bears i n → info.LastOf j n →
      ((elfGetSecInfo info).1.Records i n ↔ j = i ∨ ¬ n.Numbered ∧
        (info.shdr j).shOffset = (info.shdr i).shOffset ∧
          (info.shdr j).shSize = (info.shdr i).shSize) := by
    intro i n j hi hj
    rw [← SecName.values_eq_iff (hlt hi.1) (hlt hj.1), ← elfGetSecInfo_fields hj]
    rfl
  constructor
  · intro h i n hi j hj
    exact (hstep hi hj).mp (h i n hi)
  · intro h i n hi
    obtain ⟨j, hj⟩ := hi.exists_lastOf
    exact (hstep hi hj).mpr (h i n hi j hj)

/-- Each name is borne by one section at most, and there are not two relocation tables of the
same section. -/
def LoadInfo.Distinct (info : LoadInfo) : Prop :=
  ∀ i j n m, info.Bears i n → info.Bears j m → n.SameSlot m → i = j

/-- The bytes of a section header. -/
def Elf32Shdr.bytes (shdr : Elf32Shdr) : List UInt8 :=
  Bytes.le32 shdr.shName.toNat ++ List.replicate 12 0 ++ Bytes.le32 shdr.shOffset.toNat ++
    Bytes.le32 shdr.shSize.toNat ++ List.replicate 16 0

/-- The bytes of an image: the header, the section headers and what follows them. -/
def imageBytes (shdrs : List Elf32Shdr) (eShstrndx : ℕ) (rest : List UInt8) : List UInt8 :=
  elfMagicHeader ++ List.replicate 25 0 ++ Bytes.le32 52 ++ List.replicate 10 0 ++
    Bytes.le16 40 ++ Bytes.le16 shdrs.length ++ Bytes.le16 eShstrndx ++
    shdrs.flatMap Elf32Shdr.bytes ++ rest

/-- A memory with the given bytes from `inputAddr` on. -/
def memoryAt (inputAddr : BitVec 32) (bytes : List UInt8) : BitVec 32 → UInt8 := fun a =>
  (bytes[(a - inputAddr).toNat]?).getD 0

/-- An image with sections `.text` and `.text.startup`, `.symtab` and `.strtab`, whose names are
kept in `.strtab`. -/
def startupImage : LoadInfo :=
  let image := imageBytes
    [⟨0, 0, 0⟩, ⟨1, 292, 4⟩, ⟨7, 296, 8⟩, ⟨21, 304, 16⟩, ⟨29, 252, 37⟩] 4
    (0 :: chars ".text" ++ 0 :: chars ".text.startup" ++ 0 :: chars ".symtab" ++
      0 :: chars ".strtab" ++ [0])
  .cleared (memoryAt 0x30100000 image) 0x30100000

theorem startupImage_bears (h : startupImage.Bears i n) :
    (i, n) ∈ [(1, SecName.text), (3, SecName.symtab), (4, SecName.strtab)] := by
  have hall : ∀ i < startupImage.ehdr.eShnum.toNat, ∀ n ∈ SecName.all, startupImage.Bears i n →
      (i, n) ∈ [(1, SecName.text), (3, SecName.symtab), (4, SecName.strtab)] := by decide +kernel
  exact hall i h.1 n n.mem_all h

theorem startupImage_distinct : startupImage.Distinct := by
  intro i j n m hi hj hslot
  have hpair : ∀ p ∈ [(1, SecName.text), (3, SecName.symtab), (4, SecName.strtab)],
      ∀ q ∈ [(1, SecName.text), (3, SecName.symtab), (4, SecName.strtab)],
        p.2.SameSlot q.2 → p.1 = q.1 := by decide
  exact hpair (i, n) (startupImage_bears hi) (j, m) (startupImage_bears hj) hslot

/-- The section `.text.startup` behind `.text` is recorded in its place. -/
theorem text_startup_recorded :
    ¬ ∀ info : LoadInfo, info.Distinct → ∀ i n, info.Bears i n →
      (elfGetSecInfo info).1.Records i n := by
  intro h
  have htext : startupImage.Bears 1 .text := by decide +kernel
  have hrec : ((elfGetSecInfo startupImage).1.secInfo 0).sNumber = 2 := by decide +kernel
  have hfields := h startupImage startupImage_distinct 1 .text htext
  have hnumber := (List.cons.inj (List.cons.inj (List.cons.inj hfields).2).2).1
  exact absurd (hrec.symm.trans hnumber) (by decide)

end YakOS.Module
