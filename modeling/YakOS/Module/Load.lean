import YakOS.Module.Sections
import YakOS.Module.Relocate
import YakOS.Module.Insmod

/-!
# Loading a module

`_load_module` reads the headers of an image, asks `kmalloc` for the segments, copies
and relocates them one after the other, clears the bss segment and looks for
`mod_entry`.  It succeeds exactly when the headers are in order, every relocation it
reads finds an address and a word to write, and `mod_entry` is found: the stages after
the headers do not depend on what was written before.

A segment that the image does not have keeps the section number 0, which is also the
section number of a symbol that the module leaves undefined.

## Main definitions

* `Segment`, `setSegInfo` — the four segments of a module and their memory.
* `relocateSegment`, `loadModule` — the stages of `_load_module`.
* `Relocatable` — there is a word to write for each relocation of a segment.
* `LoadInfo.recorded` — what the headers of an image say.
* `LoadCall` — a call of the loader.

## Main results

* `copySegment_ok_iff`, `relocateSegment_ok_iff` — when the copy of the segments succeeds.
* `LoadCall.run_ok_iff` — **when a module is loaded.**
-/

namespace YakOS.Module

open Bytes (chars)

/-! ### Segments -/

/-- The segments of a module, `MODULE_SEG_TEXT` to `MODULE_SEG_BSS`. -/
inductive Segment where
  | text | rodata | data | bss
  deriving DecidableEq, Repr

/-- The entry of `sec_info` of a segment's section. -/
def Segment.sec : Segment → Fin 6
  | .text => 0
  | .rodata => 1
  | .data => 2
  | .bss => 5

/-- The field of `struct segment_info` of a segment. -/
def SegmentInfo.get (seg : SegmentInfo) : Segment → RelevantSection
  | .text => seg.text
  | .rodata => seg.rodata
  | .data => seg.data
  | .bss => seg.bss

/-- The segment of a section that is copied from the image. -/
def SegType.segment : SegType → Segment
  | .text => .text
  | .rodata => .rodata
  | .data => .data

/-- `alloc_kmodule`: a module starts out cleared. -/
def allocKmodule (mem : BitVec 32 → UInt8) : KModule :=
  ⟨0, 0, ⟨⟨0, 0⟩, ⟨0, 0⟩, ⟨0, 0⟩, ⟨0, 0⟩⟩, mem, 0⟩

/-- `alloc_segment`, and `allocate_segment` behind it: the address of a segment when `kmalloc`
returns `block`. -/
def allocSegment (address size block : BitVec 32) : BitVec 32 :=
  if size ≠ 0 then
    if block = 0 then address else block
  else address

/-- `set_seg_info`; `kmalloc` gives the block that is allocated for a segment, or `NULL`. -/
def setSegInfo (kmalloc : Segment → BitVec 32) (info : LoadInfo) (output : KModule) : KModule :=
  let sect (k : Segment) : RelevantSection :=
    ⟨(info.secInfo k.sec).sNumber.setWidth 8,
      allocSegment (output.segInfo.get k).address (info.secInfo k.sec).sSize (kmalloc k)⟩
  { output with segInfo := ⟨sect .text, sect .rodata, sect .data, sect .bss⟩ }

/-! ### Stages -/

/-- `get_elf_info`. -/
def getElfInfo (info : LoadInfo) : Except Stop LoadInfo :=
  match elfHeaderCheck info with
  | some e => .error (.error e)
  | none =>
      match elfGetSecInfo info with
      | (_, some e) => .error (.error e)
      | (info, none) => .ok info

/-- The `memcpy` of a section to its segment. -/
def copySection (info : LoadInfo) (output : KModule) (address : BitVec 32) (t : SegType) : KModule :=
  { output with
    mem := Bytes.store output.mem address
      (Bytes.read (info.bytes t) 0 (info.secInfo t.sec).sSize.toNat) }

/-- One round of the loop of `relocate_segment`: a section without relocations is copied as a
whole. -/
def loadSegment (arch4T : Bool) (kernel : Kernel) (info : LoadInfo) (output : KModule)
    (t : SegType) : Except Stop KModule :=
  if 0 < (info.secInfo t.sec).sRelsize then
    copySegment arch4T kernel info output (output.segInfo.get t.segment).address t
  else .ok (copySection info output (output.segInfo.get t.segment).address t)

/-- The end of `relocate_segment`: zeros are written in the chunks of `copy_segment_data`. -/
def clearBss (info : LoadInfo) (output : KModule) : Except Stop KModule :=
  copySegmentData (fun _ => 0) 0 (startSegment output output.segInfo.bss.address)
    (info.secInfo Segment.bss.sec).sSize.toNat

/-- `relocate_segment`. -/
def relocateSegment (arch4T : Bool) (kernel : Kernel) (info : LoadInfo) (output : KModule) :
    Except Stop KModule := do
  let output ← [SegType.text, SegType.rodata, SegType.data].foldlM
    (loadSegment arch4T kernel info) output
  clearBss info output

/-- `_load_module`, with the module and its entry; without `mod_entry` it only reports whether
there is a symbol `mod`. -/
def loadModule (arch4T : Bool) (kernel : Kernel) (kmalloc : Segment → BitVec 32)
    (input : BitVec 32 → UInt8) (inputAddr : BitVec 32) (output : KModule) :
    Except Stop (KModule × BitVec 32) := do
  let info ← getElfInfo (LoadInfo.cleared input inputAddr)
  let output ← relocateSegment arch4T kernel info (setSegInfo kmalloc info output)
  match findLocalSymbol (kernel.behindSymbol none) info (chars "mod_entry") output.segInfo with
  | none => .error .fault
  | some module =>
      if module ≠ 0 then .ok (output, module) else .error (.error .noStartpoint)

/-! ### When a stage succeeds -/

section Stages

variable {arch4T : Bool} {kernel : Kernel} {info : LoadInfo} {sectionbase : BitVec 32}
  {t : SegType}

/-- The walk over the relocations of a segment ends, and there is a word to write for each of them. -/
def Relocatable (arch4T : Bool) (kernel : Kernel) (info : LoadInfo) (sectionbase : BitVec 32)
    (t : SegType) (segInfo : SegmentInfo) : Prop :=
  TableEnds info t (usingRelas info t) ∧
    ∀ r ∈ relocTable info t (usingRelas info t),
      ∃ w, Patch arch4T kernel info sectionbase t segInfo r w

theorem relocateSection_ok_iff (o : KModule) :
    (∃ o', relocateSection arch4T kernel info o sectionbase t = .ok o') ↔
      Relocatable arch4T kernel info sectionbase t o.segInfo := by
  have hwalk : (∃ o', (relocTable info t (usingRelas info t)).foldlM
        (relocateEntry arch4T kernel info sectionbase t) o = .ok o') ↔
      ∀ r ∈ relocTable info t (usingRelas info t),
        ∃ w, Patch arch4T kernel info sectionbase t o.segInfo r w :=
    Lists.foldlM_ok_iff (I := fun p => p.segInfo = o.segInfo)
      (fun p r hp => hp ▸ relocateEntry_ok_iff p r)
      (fun _ _ _ hp h => (Grows.entry h).segInfo.trans hp) _ rfl
  simp only [relocateSection_eq_ok_iff, exists_and_right]
  rw [hwalk]
  exact and_comm

theorem copySegment_ok_iff (o : KModule) :
    (∃ o', copySegment arch4T kernel info o sectionbase t = .ok o') ↔
      Relocatable arch4T kernel info sectionbase t o.segInfo := by
  constructor
  · rintro ⟨o', h⟩
    obtain ⟨p, hp, -⟩ := ok_of_bind_eq_ok h
    exact (relocateSection_ok_iff (startSegment o sectionbase)).mp ⟨p, hp⟩
  · intro h
    obtain ⟨p, hp⟩ := (relocateSection_ok_iff (startSegment o sectionbase)).mpr h
    refine ⟨(writeSegment p (Bytes.read (info.bytes t) p.offset.toNat
      ((info.secInfo t.sec).sSize - p.offset).toNat)).2, ?_⟩
    show (relocateSection arch4T kernel info (startSegment o sectionbase) sectionbase t >>= _) = _
    rw [hp]
    exact copySegmentData_eq _ _ (BitVec.isLt _)

theorem copySegment_segInfo {o o' : KModule}
    (h : copySegment arch4T kernel info o sectionbase t = .ok o') : o'.segInfo = o.segInfo := by
  obtain ⟨p, hp, rfl⟩ := copySegment_eq_ok h
  exact (Grows.writeSegment _ _).segInfo.trans (Grows.entries hp).segInfo

/-- Without a table there is nothing to relocate. -/
theorem relocTable_eq_nil (relas : Bool) (h : (info.secInfo t.sec).sRelsize = 0) :
    relocTable info t relas = [] := by
  rw [relocTable, h, loopCount_eq (loopRounds_zero _ _)]
  rfl

/-- A walk without a round ends. -/
theorem tableEnds_of_nil {relas : Bool} (h : relocTable info t relas = []) : TableEnds info t relas := by
  rw [relocTable, List.map_eq_nil_iff, List.range_eq_nil, loopCount] at h
  rw [TableEnds]
  cases hrounds : loopRounds (info.secInfo t.sec).sReloff (info.secInfo t.sec).sRelsize
      (relSize relas) with
  | none =>
    rw [hrounds] at h
    exact absurd h (by decide)
  | some n => rfl

/-- One round of `relocate_segment`. -/
theorem loadSegment_ok_iff (o : KModule) :
    (∃ o', loadSegment arch4T kernel info o t = .ok o') ↔
      Relocatable arch4T kernel info (o.segInfo.get t.segment).address t o.segInfo := by
  unfold loadSegment
  by_cases hsize : (info.secInfo t.sec).sRelsize = 0
  · have hnil : Relocatable arch4T kernel info (o.segInfo.get t.segment).address t o.segInfo := by
      have htable : relocTable info t (usingRelas info t) = [] := relocTable_eq_nil _ hsize
      refine ⟨tableEnds_of_nil htable, fun r hr => ?_⟩
      rw [htable] at hr
      exact absurd hr List.not_mem_nil
    rw [hsize, if_neg (by decide)]
    exact iff_of_true ⟨_, rfl⟩ hnil
  · have hpos : 0 < (info.secInfo t.sec).sRelsize := by bv_omega
    rw [if_pos hpos]
    exact copySegment_ok_iff o

theorem loadSegment_segInfo {o o' : KModule} (h : loadSegment arch4T kernel info o t = .ok o') :
    o'.segInfo = o.segInfo := by
  unfold loadSegment at h
  split at h
  · exact copySegment_segInfo h
  · rw [← Except.ok.inj h]
    rfl

/-- The bss segment is always cleared. -/
theorem clearBss_ok (info : LoadInfo) (o : KModule) :
    ∃ o', clearBss info o = .ok o' ∧ o'.segInfo = o.segInfo :=
  ⟨_, copyRounds_eq _ _ _ _ _ (Nat.lt_succ_self _) (BitVec.isLt _), rfl⟩

theorem relocateSegment_eq_ok {o o' : KModule}
    (h : relocateSegment arch4T kernel info o = .ok o') : o'.segInfo = o.segInfo := by
  obtain ⟨p, hp, hclear⟩ := ok_of_bind_eq_ok h
  obtain ⟨q, hq, hseg⟩ := clearBss_ok info p
  obtain rfl : q = o' := Except.ok.inj (hq.symm.trans hclear)
  rw [hseg]
  exact Lists.foldlM_inv (I := fun p => p.segInfo = o.segInfo)
    (fun _ _ _ hp h => (loadSegment_segInfo h).trans hp) _ rfl hp

theorem relocateSegment_ok_iff (o : KModule) :
    (∃ o', relocateSegment arch4T kernel info o = .ok o') ↔
      ∀ t : SegType, Relocatable arch4T kernel info (o.segInfo.get t.segment).address t o.segInfo := by
  have hwalk := Lists.foldlM_ok_iff (I := fun p => p.segInfo = o.segInfo)
    (P := fun t => Relocatable arch4T kernel info (o.segInfo.get t.segment).address t o.segInfo)
    (fun p t hp => hp ▸ loadSegment_ok_iff p) (fun _ _ _ hp h => (loadSegment_segInfo h).trans hp)
    [SegType.text, SegType.rodata, SegType.data] (s := o) rfl
  have hall : (∀ t ∈ [SegType.text, SegType.rodata, SegType.data],
      Relocatable arch4T kernel info (o.segInfo.get t.segment).address t o.segInfo) ↔
      ∀ t : SegType, Relocatable arch4T kernel info (o.segInfo.get t.segment).address t o.segInfo := by
    refine ⟨fun h t => h t ?_, fun h t _ => h t⟩
    cases t <;> decide
  rw [← hall, ← hwalk]
  constructor
  · rintro ⟨o', h⟩
    obtain ⟨p, hp, -⟩ := ok_of_bind_eq_ok h
    exact ⟨p, hp⟩
  · rintro ⟨p, hp⟩
    obtain ⟨q, hq, -⟩ := clearBss_ok info p
    refine ⟨q, ?_⟩
    show (List.foldlM (loadSegment arch4T kernel info) o [SegType.text, SegType.rodata, SegType.data]
      >>= clearBss info) = _
    rw [hp]
    exact hq

end Stages

/-! ### When a module is loaded -/

/-- What `get_elf_info` records of an image. -/
def LoadInfo.recorded (input : BitVec 32 → UInt8) (inputAddr : BitVec 32) : LoadInfo :=
  (elfGetSecInfo (LoadInfo.cleared input inputAddr)).1

/-- The headers of an image are accepted. -/
def HeadersOk (input : BitVec 32 → UInt8) (inputAddr : BitVec 32) : Prop :=
  elfHeaderCheck (LoadInfo.cleared input inputAddr) = none ∧
    (elfGetSecInfo (LoadInfo.cleared input inputAddr)).2 = none

theorem getElfInfo_eq_ok_iff {input : BitVec 32 → UInt8} {inputAddr : BitVec 32} {info : LoadInfo} :
    getElfInfo (LoadInfo.cleared input inputAddr) = .ok info ↔
      HeadersOk input inputAddr ∧ info = LoadInfo.recorded input inputAddr := by
  unfold getElfInfo HeadersOk LoadInfo.recorded
  cases elfHeaderCheck (LoadInfo.cleared input inputAddr) with
  | some e => simp
  | none =>
    generalize elfGetSecInfo (LoadInfo.cleared input inputAddr) = res
    obtain ⟨info, e⟩ := res
    cases e with
    | some e => simp
    | none => simp [eq_comm]

/-- A call of `_load_module`: the kernel it is made in, what `kmalloc` returns, the image, and the
module as it comes from `alloc_kmodule`. -/
structure LoadCall where
  arch4T : Bool
  kernel : Kernel
  kmalloc : Segment → BitVec 32
  input : BitVec 32 → UInt8
  inputAddr : BitVec 32
  output : KModule

namespace LoadCall

/-- What the call returns. -/
def run (c : LoadCall) : Except Stop (KModule × BitVec 32) :=
  loadModule c.arch4T c.kernel c.kmalloc c.input c.inputAddr c.output

/-- The sections of the image. -/
def info (c : LoadCall) : LoadInfo := LoadInfo.recorded c.input c.inputAddr

/-- The module behind `set_seg_info`. -/
def allocated (c : LoadCall) : KModule := setSegInfo c.kmalloc c.info c.output

/-- The segments of the module. -/
def seg (c : LoadCall) : SegmentInfo := c.allocated.segInfo

/-- The relocations that are read for a segment. -/
def table (c : LoadCall) (t : SegType) : List Rela := relocTable c.info t (usingRelas c.info t)

/-- The load address of a segment. -/
def address (c : LoadCall) (t : SegType) : BitVec 32 := (c.seg.get t.segment).address

/-- Where `mod_entry` is found. -/
def entry (c : LoadCall) : Option (BitVec 32) :=
  findLocalSymbol (c.kernel.behindSymbol none) c.info (chars "mod_entry") c.seg

/-- The stages of the call. -/
theorem run_eq (c : LoadCall) :
    c.run = (getElfInfo (LoadInfo.cleared c.input c.inputAddr)).bind fun info =>
      (relocateSegment c.arch4T c.kernel info (setSegInfo c.kmalloc info c.output)).bind fun output =>
        match findLocalSymbol (c.kernel.behindSymbol none) info (chars "mod_entry") output.segInfo with
        | none => .error .fault
        | some module =>
            if module ≠ 0 then .ok (output, module) else .error (.error .noStartpoint) := rfl

/-- The stages behind the headers, when these are accepted. -/
theorem run_eq_of_headers {c : LoadCall} (h : HeadersOk c.input c.inputAddr) :
    c.run = (relocateSegment c.arch4T c.kernel c.info c.allocated).bind fun output =>
      match findLocalSymbol (c.kernel.behindSymbol none) c.info (chars "mod_entry")
        output.segInfo with
      | none => .error .fault
      | some module =>
          if module ≠ 0 then .ok (output, module) else .error (.error .noStartpoint) := by
  rw [run_eq, getElfInfo_eq_ok_iff.mpr ⟨h, rfl⟩]
  rfl

/-- The last stage returns a module with its `mod_entry`. -/
theorem eq_ok_of_found {found : Option (BitVec 32)} {p m : KModule} {e : BitVec 32}
    (h : (match found with
      | none => .error Stop.fault
      | some module =>
          if module ≠ 0 then .ok (p, module) else .error (.error .noStartpoint)) = Except.ok (m, e)) :
    p = m ∧ found = some e ∧ e ≠ 0 := by
  cases found with
  | none => cases h
  | some e' =>
    by_cases he : e' = 0
    · rw [he] at h
      cases h
    · obtain ⟨rfl, rfl⟩ := Prod.mk.inj (Except.ok.inj ((if_pos he).symm.trans h))
      exact ⟨rfl, rfl, he⟩

/-- A call that succeeds has come through all stages. -/
theorem run_eq_ok {c : LoadCall} {m : KModule} {e : BitVec 32} (h : c.run = .ok (m, e)) :
    HeadersOk c.input c.inputAddr ∧
      relocateSegment c.arch4T c.kernel c.info c.allocated = .ok m ∧ c.entry = some e ∧ e ≠ 0 := by
  obtain ⟨info', hinfo, -⟩ := ok_of_bind_eq_ok h
  obtain ⟨hheaders, -⟩ := getElfInfo_eq_ok_iff.mp hinfo
  rw [run_eq_of_headers hheaders] at h
  obtain ⟨p, hp, h⟩ := ok_of_bind_eq_ok h
  have hseg : p.segInfo = c.seg := relocateSegment_eq_ok hp
  rw [hseg] at h
  obtain ⟨rfl, hentry⟩ := eq_ok_of_found h
  exact ⟨hheaders, hp, hentry⟩

/-- **A module is loaded exactly when its headers are accepted, there is a word for each relocation
that is read, and `mod_entry` is found.** -/
theorem run_ok_iff (c : LoadCall) :
    (∃ res, c.run = .ok res) ↔ HeadersOk c.input c.inputAddr ∧
      (∀ t, Relocatable c.arch4T c.kernel c.info (c.address t) t c.seg) ∧
        ∃ e, c.entry = some e ∧ e ≠ 0 := by
  constructor
  · rintro ⟨⟨m, e⟩, h⟩
    obtain ⟨hheaders, hm, hentry⟩ := run_eq_ok h
    exact ⟨hheaders, (relocateSegment_ok_iff _).mp ⟨m, hm⟩, e, hentry⟩
  · rintro ⟨hheaders, hreloc, e, hentry, hne⟩
    obtain ⟨p, hp⟩ := (relocateSegment_ok_iff c.allocated).mpr hreloc
    have hseg : p.segInfo = c.seg := relocateSegment_eq_ok hp
    refine ⟨(p, e), ?_⟩
    rw [run_eq_of_headers hheaders, hp, Except.bind, hseg, ← entry, hentry]
    exact if_pos hne

/-! ### The stages that `insmod` sees -/

/-- The error code of a stage, if it returns one. -/
def errorOf {α : Type} : Except Stop α → Option ModuleError
  | .error (.error e) => some e
  | _ => none

/-- What the stages of the call come to; `entryAt` is the `struct module_entry` at an address. -/
def stages (c : LoadCall) (entryAt : KModule → BitVec 32 → ModuleEntry) : LoadStages where
  elfInfo := errorOf (getElfInfo (LoadInfo.cleared c.input c.inputAddr))
  relocate := errorOf (relocateSegment c.arch4T c.kernel c.info c.allocated)
  modEntry := (relocateSegment c.arch4T c.kernel c.info c.allocated).toOption.bind fun output =>
    match findLocalSymbol (c.kernel.behindSymbol none) c.info (chars "mod_entry") output.segInfo with
    | none => none
    | some module => if module ≠ 0 then some (entryAt output module) else none

/-- When its loops end, `load_kmodule` returns what its stages come to. -/
theorem loadKmodule_stages {c : LoadCall} (entryAt : KModule → BitVec 32 → ModuleEntry)
    (hsafe : c.run ≠ .error .fault) :
    (loadKmodule (c.stages entryAt)).mapError Stop.error = c.run.map fun res => entryAt res.1 res.2 := by
  unfold loadKmodule stages
  cases hinfo : getElfInfo (LoadInfo.cleared c.input c.inputAddr) with
  | error stop =>
    rw [run_eq, hinfo] at hsafe ⊢
    cases stop with
    | fault => exact absurd rfl hsafe
    | error e => rfl
  | ok info =>
    rw [run_eq_of_headers (getElfInfo_eq_ok_iff.mp hinfo).1] at hsafe ⊢
    cases hcopied : relocateSegment c.arch4T c.kernel c.info c.allocated with
    | error stop =>
      rw [hcopied] at hsafe
      cases stop with
      | fault => exact absurd rfl hsafe
      | error e => rfl
    | ok p =>
      rw [hcopied] at hsafe
      cases hentry : findLocalSymbol (c.kernel.behindSymbol none) c.info (chars "mod_entry")
          p.segInfo with
      | none =>
        simp only [Except.bind, hentry] at hsafe
        exact absurd rfl hsafe
      | some e =>
        by_cases he : e = 0#32
        · simp [errorOf, Except.bind, Except.toOption, Except.mapError, Except.map, hentry, he]
        · simp [errorOf, Except.bind, Except.toOption, Except.mapError, Except.map, hentry, he]

end LoadCall

end YakOS.Module
