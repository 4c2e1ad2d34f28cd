import YakOS.Module.Elf

/-!
# Copying and relocating a segment

A segment is written as a stream: `write_segment` appends bytes at the running
offset of the module, `relocate_section` walks the relocation table and, for each
entry, copies the section up to the relocated word and appends the patched word,
and `copy_segment` appends the rest of the section.  The entries of the table name
absolute offsets, so that the stream and the table only agree as long as the table
is sorted: an entry that comes too late is reported on the console, and its word is
appended wherever the stream happens to be.

## Main definitions

* `KModule` — the module, its running offset and the memory it is written to.
* `patchWord`, `applyRelocate` — the patched word of a relocation.
* `copySegmentData`, `relocateSection`, `copySegment` — the copy of a segment.
* `Relocated` — what a copied segment should look like.
-/

namespace YakOS.Module

/-! ### The output stream -/

/-- `struct k_module`, as far as the segment operations use it, and the memory. -/
structure KModule where
  base : BitVec 32
  offset : BitVec 32
  segInfo : SegmentInfo
  mem : BitVec 32 → UInt8
  /-- Not a field of the source: the number of bytes written since `start_segment`. -/
  written : ℕ

/-- `start_segment`. -/
def startSegment (output : KModule) (addr : BitVec 32) : KModule :=
  { output with base := addr, offset := 0, written := 0 }

/-- `write_segment`, with the length it returns. -/
def writeSegment (output : KModule) (buf : List UInt8) : ℕ × KModule :=
  (buf.length,
    { output with
      mem := Bytes.store output.mem (output.base + output.offset) buf
      offset := output.offset + .ofNat 32 buf.length
      written := output.written + buf.length })

/-- `segment_offset`. -/
def segmentOffset (output : KModule) : BitVec 32 := output.offset

/-- The loop of `copy_segment_data` and the write behind it, at most `fuel` rounds. -/
def copyRounds (file : ℕ → UInt8) : ℕ → ℕ → KModule → ℕ → Except Stop KModule
  | 0, _, _, _ => .error .fault
  | fuel + 1, addr, output, len =>
      if 16 < len then
        let (res, output) := writeSegment output (Bytes.read file addr 16)
        if res ≠ 16 then .error (.error .outputError)
        else copyRounds file fuel (addr + 16) output (len - 16)
      else
        let (res, output) := writeSegment output (Bytes.read file addr len)
        if res ≠ len then .error (.error .outputError) else .ok output

/-- `copy_segment_data`: `len` bytes in chunks of 16. -/
def copySegmentData (file : ℕ → UInt8) (offset : BitVec 32) (output : KModule) (len : ℕ) :
    Except Stop KModule :=
  copyRounds file (len / 16 + 1) offset.toNat output len

/-! ### The patched word -/

/-- The word of `R_ARM_PC24`, `R_ARM_CALL` and `R_ARM_JUMP24`. -/
def patchPc24 (addend place addr : BitVec 32) : BitVec 32 :=
  let offset := (addend &&& 0x00ffffff#32) <<< 2
  let offset := offset + (addr - place)
  let offset := offset.sshiftRight 2
  (addend &&& 0xff000000#32) ||| (offset &&& 0x00ffffff#32)

/-- The pair of instructions of `R_ARM_THM_CALL`; `arch4T` is `__ARM_ARCH_4T__`. -/
def patchThmCall (arch4T : Bool) (word place addr : BitVec 32) : Except Stop (BitVec 32) := do
  let instr0 : BitVec 16 := word.setWidth 16
  let instr1 : BitVec 16 := (word >>> 16).setWidth 16
  let base := place + 4
  let instr1 ←
    if instr1 &&& 0xe800#16 = 0xe800#16 then
      if addr &&& 1 ≠ 0 then .ok (instr1 ||| 0x1800#16)
      else if arch4T then .error (.error .unhandledReloc)
      else .ok ((instr1 &&& ~~~0x1800#16) ||| 0x0800#16)
    else .ok instr1
  -- the address of a `BLX` takes bit 1 of the place
  let addr :=
    if instr1 &&& 0x1800#16 = 0x0800#16 then (addr &&& 0xfffffffd#32) ||| (base &&& 2) else addr
  let offset := addr - base
  let instr0 := (instr0 &&& 0xf800#16) ||| ((offset.sshiftRight 12) &&& 0x07ff#32).setWidth 16
  let instr1 := (instr1 &&& 0xf800#16) ||| ((offset.sshiftRight 1) &&& 0x07ff#32).setWidth 16
  .ok (instr1 ++ instr0)

/-- The word that `apply_relocate` writes for a relocation type, in place of `word`. -/
def patchWord (arch4T : Bool) (type : BitVec 8) (word place addr : BitVec 32) :
    Except Stop (BitVec 32) :=
  match type.toNat with
  | 2 => .ok (addr + word)
  | 1 | 28 | 29 => .ok (patchPc24 word place addr)
  | 10 => patchThmCall arch4T word place addr
  | _ => .error (.error .unhandledReloc)

/-- The type of a relocation, `ELF32_R_TYPE(r_info)`. -/
def Rela.type (r : Rela) : BitVec 8 := r.rInfo.setWidth 8

/-- `apply_relocate`: the patched word is appended to the stream. -/
def applyRelocate (arch4T : Bool) (file : ℕ → UInt8) (output : KModule)
    (sectionoffset sectionaddr : BitVec 32) (r : Rela) (addr : BitVec 32) :
    Except Stop KModule := do
  let word := BitVec.ofNat 32 (Bytes.u32 file (sectionoffset + r.rOffset).toNat)
  let word ← patchWord arch4T r.type word (sectionaddr + r.rOffset) addr
  .ok (writeSegment output (Bytes.le32 word.toNat)).2

/-! ### Sections -/

/-- The size of an entry of a relocation table, of `elf32_rela` or `elf32_rel`. -/
def relSize (relas : Bool) : ℕ := if relas then 12 else 8

/-- `using_relas`: `sec` already points at the section's own entry of `sec_info`, and is
indexed by the section type once more. -/
def usingRelas (info : LoadInfo) (seg : SegType) : Bool :=
  (info.secInfo (seg.sec + seg.sec)).sRelas.setWidth 8 != 0#8

/-- The relocation table of a section, read as a table of `elf32_rela` or `elf32_rel`. -/
def relocTable (info : LoadInfo) (seg : SegType) (relas : Bool) : List Rela :=
  let sec := info.secInfo seg.sec
  (List.range (loopCount sec.sReloff sec.sRelsize (relSize relas))).map fun i =>
    info.rela (seg, i) (loopOffset sec.sReloff (relSize relas) i).toNat

/-- The walk over the relocation table of a section comes to an end. -/
def TableEnds (info : LoadInfo) (seg : SegType) (relas : Bool) : Prop :=
  (loopRounds (info.secInfo seg.sec).sReloff (info.secInfo seg.sec).sRelsize (relSize relas)).isSome

instance (info : LoadInfo) (seg : SegType) (relas : Bool) : Decidable (TableEnds info seg relas) :=
  inferInstanceAs (Decidable (_ = true))

/-- One round of the loop of `relocate_section`. -/
def relocateEntry (arch4T : Bool) (kernel : Kernel) (info : LoadInfo) (sectionbase : BitVec 32)
    (seg : SegType) (output : KModule) (r : Rela) : Except Stop KModule := do
  let sec := info.secInfo seg.sec
  let addr ← symbolAddress kernel info output.segInfo r
  let offset := segmentOffset output
  -- `r_offset < offset` is reported, and nothing else is done about it
  let output ←
    (if offset < r.rOffset then
      copySegmentData info.file (offset + sec.sOffset) output (r.rOffset - offset).toNat
    else .ok output)
  applyRelocate arch4T info.file output sec.sOffset sectionbase r addr

/-- `relocate_section`.  An endless walk that no entry stops does not come back. -/
def relocateSection (arch4T : Bool) (kernel : Kernel) (info : LoadInfo) (output : KModule)
    (sectionbase : BitVec 32) (seg : SegType) : Except Stop KModule := do
  let output ← (relocTable info seg (usingRelas info seg)).foldlM
    (relocateEntry arch4T kernel info sectionbase seg) output
  if TableEnds info seg (usingRelas info seg) then .ok output else .error .fault

/-- `copy_segment`. -/
def copySegment (arch4T : Bool) (kernel : Kernel) (info : LoadInfo) (output : KModule)
    (sectionbase : BitVec 32) (seg : SegType) : Except Stop KModule := do
  let sec := info.secInfo seg.sec
  let output := startSegment output sectionbase
  let output ← relocateSection arch4T kernel info output sectionbase seg
  let offset := segmentOffset output
  copySegmentData info.file (offset + sec.sOffset) output (sec.sSize - offset).toNat

end YakOS.Module
