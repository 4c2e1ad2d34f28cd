import YakOS.Module.Endless

/-!
# Segments without memory

`set_seg_info` allocates the segments through a macro that drops the result, so that the
address of a segment that `kmalloc` has no memory for stays `NULL`, as that of an empty
one does.  `relocate_segment` does not look at the address: it copies to it what the
section holds, and patches what its relocation table names, until a relocation cannot be
resolved.

## Main definitions

* `relocateReached`, `bytesWritten` — how far a segment is written, also when the loader
  stops in it.
* `LoadCall.Enters` — the loader comes to a segment.
* `LoadCall.WritesNull` — data is written to a segment at `NULL`.
* `LoadCall.StopsBefore`, `StopsAtOnce` — the loader stops before it writes to a segment.

## Main results

* `bytesWritten_pos_iff` — when something is written to a segment.
* `alloc_failures_iff` — **when a failed allocation is noticed and nothing is written to
  `NULL`.**
-/

namespace YakOS.Module

variable {arch4T : Bool} {kernel : Kernel} {info : LoadInfo} {sectionbase : BitVec 32}
  {t : SegType} {r : Rela}

/-! ### How far a segment is written -/

/-- The stream where `relocate_section` stops: at the end of the table, or at an entry that fails,
behind the gap before it if only the patch does. -/
def relocateReached (arch4T : Bool) (kernel : Kernel) (info : LoadInfo)
    (sectionbase : BitVec 32) (t : SegType) : List Rela → KModule → KModule
  | [], o => o
  | r :: rs, o =>
      match relocateEntry arch4T kernel info sectionbase t o r with
      | .ok o' => relocateReached arch4T kernel info sectionbase t rs o'
      | .error _ =>
          match symbolAddress kernel info o.segInfo r with
          | .ok _ => fillGap info t o r
          | .error _ => o

/-- The stream where `copy_segment` stops. -/
def copyReached (arch4T : Bool) (kernel : Kernel) (info : LoadInfo) (o : KModule)
    (sectionbase : BitVec 32) (t : SegType) : KModule :=
  match copySegment arch4T kernel info o sectionbase t with
  | .ok o' => o'
  | .error _ =>
      relocateReached arch4T kernel info sectionbase t (relocTable info t (usingRelas info t))
        (startSegment o sectionbase)

/-- The number of bytes that a round of `relocate_segment` writes to its segment. -/
def bytesCopied (arch4T : Bool) (kernel : Kernel) (info : LoadInfo) (o : KModule)
    (t : SegType) : ℕ :=
  if 0 < (info.secInfo t.sec).sRelsize then
    (copyReached arch4T kernel info o (o.segInfo.get t.segment).address t).written
  else (info.secInfo t.sec).sSize.toNat

/-- The number of bytes that `relocate_segment` writes to a segment it comes to. -/
def bytesWritten (arch4T : Bool) (kernel : Kernel) (info : LoadInfo) (o : KModule) :
    Segment → ℕ
  | .text => bytesCopied arch4T kernel info o .text
  | .rodata => bytesCopied arch4T kernel info o .rodata
  | .data => bytesCopied arch4T kernel info o .data
  | .bss => (info.secInfo Segment.bss.sec).sSize.toNat

/-- The first entry of a table has no address, or it is at the start of the segment and cannot be
patched. -/
def StopsAtOnce (arch4T : Bool) (kernel : Kernel) (info : LoadInfo) (sectionbase : BitVec 32)
    (t : SegType) (segInfo : SegmentInfo) : Prop :=
  ∃ r ∈ (relocTable info t (usingRelas info t)).head?,
    (∀ a, symbolAddress kernel info segInfo r ≠ .ok a) ∨
      r.rOffset = 0 ∧ ∀ w, ¬ Patch arch4T kernel info sectionbase t segInfo r w

/-- Where `relocate_section` stops, it has not taken anything back. -/
theorem written_le_relocateReached (us : List Rela) (o : KModule) :
    o.written ≤ (relocateReached arch4T kernel info sectionbase t us o).written := by
  induction us generalizing o with
  | nil => exact le_rfl
  | cons r us ih =>
    rw [relocateReached]
    cases hentry : relocateEntry arch4T kernel info sectionbase t o r with
    | ok o' => exact (Grows.entry hentry).written.trans (ih o')
    | error stop =>
      cases symbolAddress kernel info o.segInfo r with
      | ok a => exact (Grows.fillGap o r).written
      | error stop => exact le_rfl

/-- A copy that succeeds has walked the table to the end. -/
theorem relocateReached_eq_of_ok {us : List Rela} {o o' : KModule}
    (h : us.foldlM (relocateEntry arch4T kernel info sectionbase t) o = .ok o') :
    relocateReached arch4T kernel info sectionbase t us o = o' := by
  induction us generalizing o with
  | nil => exact Except.ok.inj h
  | cons r us ih =>
    rw [List.foldlM_cons] at h
    obtain ⟨p, hp, h⟩ := ok_of_bind_eq_ok h
    rw [relocateReached, hp]
    exact ih h

/-- Behind the table, the rest of the section is written. -/
theorem relocateReached_le_copyReached (o : KModule) :
    (relocateReached arch4T kernel info sectionbase t (relocTable info t (usingRelas info t))
      (startSegment o sectionbase)).written
        ≤ (copyReached arch4T kernel info o sectionbase t).written := by
  unfold copyReached
  cases hcopy : copySegment arch4T kernel info o sectionbase t with
  | error stop => exact le_rfl
  | ok o' =>
    obtain ⟨p, hp, rfl⟩ := copySegment_eq_ok hcopy
    rw [relocateReached_eq_of_ok hp]
    exact (Grows.writeSegment _ _).written

/-- An entry that fails at the start of a segment leaves the gap before it, if its symbol has an
address. -/
theorem relocateReached_of_fails {o : KModule} (hw : o.written = 0) (hoff : o.offset = 0)
    (hfail : ∀ w, ¬ Patch arch4T kernel info sectionbase t o.segInfo r w) (rs : List Rela) :
    0 < (relocateReached arch4T kernel info sectionbase t (r :: rs) o).written ↔
      (∃ a, symbolAddress kernel info o.segInfo r = .ok a) ∧ r.rOffset ≠ 0 := by
  have herror : ¬ ∃ o', relocateEntry arch4T kernel info sectionbase t o r = .ok o' := by
    rw [relocateEntry_ok_iff]
    exact not_exists.mpr hfail
  rw [relocateReached]
  cases hentry : relocateEntry arch4T kernel info sectionbase t o r with
  | ok o' => exact absurd ⟨o', hentry⟩ herror
  | error stop =>
    cases haddr : symbolAddress kernel info o.segInfo r with
    | error stop =>
      simp only [hw, lt_irrefl, false_iff, not_and]
      exact fun h => absurd h (by simp)
    | ok a =>
      rw [and_iff_right ⟨a, rfl⟩]
      show 0 < (fillGap info t o r).written ↔ _
      unfold fillGap
      rw [hoff]
      by_cases hzero : r.rOffset = 0
      · rw [hzero, if_neg (by decide), hw]
        exact iff_of_false (lt_irrefl 0) (not_not_intro rfl)
      · rw [if_pos (by bv_omega), writeSegment_written, hw, Bytes.length_read, sub_zero]
        exact iff_of_true (by bv_omega) hzero

/-- An entry that is patched leaves its word behind. -/
theorem relocateReached_of_patch {o : KModule}
    (h : ∃ w, Patch arch4T kernel info sectionbase t o.segInfo r w) (rs : List Rela) :
    0 < (relocateReached arch4T kernel info sectionbase t (r :: rs) o).written := by
  obtain ⟨o', ho'⟩ := (relocateEntry_ok_iff o r).mpr h
  rw [relocateReached, ho']
  refine lt_of_lt_of_le ?_ (written_le_relocateReached rs o')
  obtain ⟨w, -, rfl⟩ := relocateEntry_eq_ok ho'
  rw [writeSegment_written, Bytes.length_le32]
  omega

/-- A copy that fails has failed in its table. -/
theorem copyReached_of_not_relocatable (o : KModule)
    (h : ¬ Relocatable arch4T kernel info sectionbase t o.segInfo) :
    copyReached arch4T kernel info o sectionbase t =
      relocateReached arch4T kernel info sectionbase t (relocTable info t (usingRelas info t))
        (startSegment o sectionbase) := by
  unfold copyReached
  cases hcopy : copySegment arch4T kernel info o sectionbase t with
  | error stop => rfl
  | ok o' => exact absurd ((copySegment_ok_iff o).mp ⟨o', hcopy⟩) h

/-- Without an entry, the section is written as a whole. -/
theorem copyReached_of_nil (o : KModule) (h : relocTable info t (usingRelas info t) = []) :
    (copyReached arch4T kernel info o sectionbase t).written = (info.secInfo t.sec).sSize.toNat := by
  have hreloc : Relocatable arch4T kernel info sectionbase t o.segInfo := by
    refine ⟨tableEnds_of_nil h, fun r hr => ?_⟩
    rw [h] at hr
    exact absurd hr List.not_mem_nil
  obtain ⟨o', ho'⟩ := (copySegment_ok_iff o).mpr hreloc
  obtain ⟨p, hp, rfl⟩ := copySegment_eq_ok ho'
  rw [h] at hp
  obtain rfl : startSegment o sectionbase = p := Except.ok.inj hp
  unfold copyReached
  rw [ho']
  show 0 + List.length _ = _
  rw [Bytes.length_read, Nat.zero_add]
  show ((info.secInfo t.sec).sSize - 0).toNat = _
  rw [sub_zero]

/-- A segment with a relocation table is written unless its first entry stops the loader. -/
theorem copyReached_pos_iff (o : KModule) :
    0 < (copyReached arch4T kernel info o sectionbase t).written ↔
      ((info.secInfo t.sec).sSize ≠ 0 ∨ relocTable info t (usingRelas info t) ≠ []) ∧
        ¬ StopsAtOnce arch4T kernel info sectionbase t o.segInfo := by
  unfold StopsAtOnce
  cases htable : relocTable info t (usingRelas info t) with
  | nil =>
    rw [copyReached_of_nil o htable]
    simp only [List.head?_nil, Option.mem_def, reduceCtorEq, false_and, exists_false, not_false_eq_true,
      and_true, ne_eq, not_true_eq_false, or_false]
    bv_omega
  | cons r rs =>
    simp only [List.head?_cons, Option.mem_def, Option.some.injEq, exists_eq_left', ne_eq,
      reduceCtorEq, not_false_eq_true, or_true, true_and]
    by_cases hpatch : ∃ w, Patch arch4T kernel info sectionbase t o.segInfo r w
    -- what is written for the first entry is not taken back
    · have hle : (relocateReached arch4T kernel info sectionbase t (r :: rs)
          (startSegment o sectionbase)).written ≤ (copyReached arch4T kernel info o sectionbase t).written := by
        rw [← htable]
        exact relocateReached_le_copyReached o
      have hpos := relocateReached_of_patch (o := startSegment o sectionbase) hpatch rs
      obtain ⟨w, a, ha, hw⟩ := hpatch
      refine iff_of_true (lt_of_lt_of_le hpos hle) ?_
      rintro (hnone | ⟨-, hnone⟩)
      · exact hnone a ha
      · exact hnone w ⟨a, ha, hw⟩
    -- the loader stops at the first entry, and only the gap before it may have been written
    · have hfail := not_exists.mp hpatch
      rw [copyReached_of_not_relocatable o fun h => hpatch (h.2 r (htable ▸ List.mem_cons_self)), htable,
        relocateReached_of_fails (o := startSegment o sectionbase) rfl rfl hfail]
      show (∃ a, symbolAddress kernel info o.segInfo r = .ok a) ∧ _ ↔ _
      rw [not_or, not_forall_not, and_congr_right_iff]
      exact fun _ => ⟨fun h h' => h h'.1, fun h h' => h ⟨h', hfail⟩⟩

/-- There is something to write to a segment: its section is not empty, or it has a relocation. -/
def HasData (info : LoadInfo) (k : Segment) : Prop :=
  (info.secInfo k.sec).sSize ≠ 0 ∨
    ∃ t : SegType, t.segment = k ∧ relocTable info t (usingRelas info t) ≠ []

theorem bytesCopied_pos_iff (o : KModule) (t : SegType) :
    0 < bytesCopied arch4T kernel info o t ↔
      ((info.secInfo t.sec).sSize ≠ 0 ∨ relocTable info t (usingRelas info t) ≠ []) ∧
        ¬ StopsAtOnce arch4T kernel info (o.segInfo.get t.segment).address t o.segInfo := by
  unfold bytesCopied
  split
  · exact copyReached_pos_iff o
  next hsize =>
    have hnil : relocTable info t (usingRelas info t) = [] := relocTable_eq_nil _ (by bv_omega)
    have hstop : ¬ StopsAtOnce arch4T kernel info (o.segInfo.get t.segment).address t o.segInfo := by
      rintro ⟨r, hr, -⟩
      rw [hnil] at hr
      cases hr
    rw [and_iff_left hstop, or_iff_left (not_not_intro hnil)]
    bv_omega

theorem exists_segment_iff {P : SegType → Prop} (t : SegType) :
    (∃ t' : SegType, t'.segment = t.segment ∧ P t') ↔ P t := by
  constructor
  · rintro ⟨t', ht, h⟩
    cases t <;> cases t' <;> first | exact h | cases ht
  · exact fun h => ⟨t, rfl, h⟩

/-- **Something is written to a segment** that the loader comes to when there is something to
write, and its first relocation does not stop the loader. -/
theorem bytesWritten_pos_iff (o : KModule) (k : Segment) :
    0 < bytesWritten arch4T kernel info o k ↔
      HasData info k ∧ ¬ ∃ t : SegType, t.segment = k ∧
        StopsAtOnce arch4T kernel info (o.segInfo.get t.segment).address t o.segInfo := by
  have hcopied : ∀ t : SegType, bytesWritten arch4T kernel info o t.segment
      = bytesCopied arch4T kernel info o t ∧ t.segment.sec = t.sec := by
    intro t
    cases t <;> exact ⟨rfl, rfl⟩
  have hall : ∀ t : SegType, 0 < bytesWritten arch4T kernel info o t.segment ↔
      HasData info t.segment ∧ ¬ ∃ t' : SegType, t'.segment = t.segment ∧
        StopsAtOnce arch4T kernel info (o.segInfo.get t'.segment).address t' o.segInfo := by
    intro t
    rw [HasData, exists_segment_iff, exists_segment_iff, (hcopied t).1, (hcopied t).2]
    exact bytesCopied_pos_iff o t
  cases k with
  | text => exact hall .text
  | rodata => exact hall .rodata
  | data => exact hall .data
  | bss =>
    -- no relocation table is read for it
    have hbss : ∀ t : SegType, t.segment ≠ .bss := by
      intro t
      cases t <;> exact nofun
    rw [HasData, or_iff_left fun ⟨t, ht, _⟩ => hbss t ht, and_iff_left fun ⟨t, ht, _⟩ => hbss t ht]
    show 0 < (info.secInfo Segment.bss.sec).sSize.toNat ↔ _
    bv_omega

/-! ### The call -/

/-- The segments that are copied before a segment. -/
def segmentsBefore : Segment → List SegType
  | .text => []
  | .rodata => [.text]
  | .data => [.text, .rodata]
  | .bss => [.text, .rodata, .data]

namespace LoadCall

/-- A call of the loader for a module that `alloc_kmodule` has just cleared. -/
def fresh (arch4T : Bool) (kernel : Kernel) (kmalloc : Segment → BitVec 32)
    (input : BitVec 32 → UInt8) (inputAddr : BitVec 32) (mem : BitVec 32 → UInt8) : LoadCall :=
  ⟨arch4T, kernel, kmalloc, input, inputAddr, allocKmodule mem⟩

/-- Some segment that is not empty gets no memory. -/
def AllocFails (c : LoadCall) : Prop :=
  ∃ k : Segment, (c.info.secInfo k.sec).sSize ≠ 0 ∧ c.kmalloc k = 0

/-- The loader comes to a segment, with this stream. -/
def Enters (c : LoadCall) (k : Segment) (o : KModule) : Prop :=
  HeadersOk c.input c.inputAddr ∧
    (segmentsBefore k).foldlM (loadSegment c.arch4T c.kernel c.info) c.allocated = .ok o

/-- Something is written to a segment whose address is `NULL`. -/
def WritesNull (c : LoadCall) : Prop :=
  ∃ k o, c.Enters k o ∧ (o.segInfo.get k).address = 0 ∧
    0 < bytesWritten c.arch4T c.kernel c.info o k

/-- A relocation of an earlier segment has no address or cannot be patched. -/
def StopsBefore (c : LoadCall) (k : Segment) : Prop :=
  ∃ t ∈ segmentsBefore k, ¬ Relocatable c.arch4T c.kernel c.info (c.address t) t c.seg

/-- The first relocation of the segment itself has no address, or it is at the start of the segment
and cannot be patched. -/
def StopsAt (c : LoadCall) (k : Segment) : Prop :=
  ∃ t : SegType, t.segment = k ∧ StopsAtOnce c.arch4T c.kernel c.info (c.address t) t c.seg

/-- A failed allocation is reported, and nothing is written to `NULL`. -/
def Notices (c : LoadCall) : Prop :=
  (c.AllocFails → ∃ e, c.run = .error (.error e)) ∧ ¬ c.WritesNull

/-- The loader stops before it writes to a segment that is empty or was not allocated. -/
def StopsInTime (c : LoadCall) : Prop :=
  HeadersOk c.input c.inputAddr → ∀ k : Segment,
    (c.info.secInfo k.sec).sSize = 0 ∨ c.kmalloc k = 0 → HasData c.info k →
      c.StopsBefore k ∨ c.StopsAt k

theorem Enters.segInfo {c : LoadCall} {k : Segment} {o : KModule} (h : c.Enters k o) :
    o.segInfo = c.seg :=
  Lists.foldlM_inv (I := fun p => p.segInfo = c.seg)
    (fun _ _ _ hp h => (loadSegment_segInfo h).trans hp) _ rfl h.2

theorem enters_iff (c : LoadCall) (k : Segment) :
    (∃ o, c.Enters k o) ↔ HeadersOk c.input c.inputAddr ∧ ¬ c.StopsBefore k := by
  have hwalk := Lists.foldlM_ok_iff (I := fun p => p.segInfo = c.seg)
    (P := fun t => Relocatable c.arch4T c.kernel c.info (c.address t) t c.seg)
    (fun p t hp => hp ▸ loadSegment_ok_iff p) (fun _ _ _ hp h => (loadSegment_segInfo h).trans hp)
    (segmentsBefore k) (s := c.allocated) rfl
  unfold Enters StopsBefore
  rw [exists_and_left, hwalk]
  simp only [not_exists, not_and, not_not]

theorem writesNull_iff (c : LoadCall) :
    c.WritesNull ↔ HeadersOk c.input c.inputAddr ∧ ∃ k, (c.seg.get k).address = 0 ∧
      HasData c.info k ∧ ¬ c.StopsBefore k ∧ ¬ c.StopsAt k := by
  have hpos : ∀ {k o}, c.Enters k o → (0 < bytesWritten c.arch4T c.kernel c.info o k ↔
      HasData c.info k ∧ ¬ c.StopsAt k) := by
    intro k o h
    rw [bytesWritten_pos_iff, h.segInfo]
    rfl
  constructor
  · rintro ⟨k, o, hin, hnull, hbytes⟩
    obtain ⟨hdata, hat⟩ := (hpos hin).mp hbytes
    obtain ⟨hheaders, hbefore⟩ := (c.enters_iff k).mp ⟨o, hin⟩
    rw [hin.segInfo] at hnull
    exact ⟨hheaders, k, hnull, hdata, hbefore, hat⟩
  · rintro ⟨hheaders, k, hnull, hdata, hbefore, hat⟩
    obtain ⟨o, hin⟩ := (c.enters_iff k).mpr ⟨hheaders, hbefore⟩
    rw [← hin.segInfo] at hnull
    exact ⟨k, o, hin, hnull, (hpos hin).mpr ⟨hdata, hat⟩⟩

/-- A module that was loaded has been written throughout. -/
theorem writesNull_of_run {c : LoadCall} {k : Segment} {res : KModule × BitVec 32}
    (hrun : c.run = .ok res) (hsize : (c.info.secInfo k.sec).sSize ≠ 0)
    (hnull : (c.seg.get k).address = 0) : c.WritesNull := by
  obtain ⟨hheaders, hreloc, -⟩ := c.run_ok_iff.mp ⟨res, hrun⟩
  refine c.writesNull_iff.mpr ⟨hheaders, k, hnull, Or.inl hsize, ?_, ?_⟩
  · rintro ⟨t, -, ht⟩
    exact ht (hreloc t)
  · rintro ⟨t, -, r, hr, hstop⟩
    obtain ⟨w, a, ha, hw⟩ := (hreloc t).2 r (List.mem_of_mem_head? hr)
    rcases hstop with hnone | ⟨-, hnone⟩
    · exact hnone a ha
    · exact hnone w ⟨a, ha, hw⟩

/-- A cleared module has memory for the segments that are not empty and were allocated. -/
theorem address_fresh (arch4T : Bool) (kernel : Kernel) (kmalloc : Segment → BitVec 32)
    (input : BitVec 32 → UInt8) (inputAddr : BitVec 32) (mem : BitVec 32 → UInt8) (k : Segment) :
    ((fresh arch4T kernel kmalloc input inputAddr mem).seg.get k).address = 0 ↔
      ((fresh arch4T kernel kmalloc input inputAddr mem).info.secInfo k.sec).sSize = 0 ∨ kmalloc k = 0 := by
  have haddr : ((fresh arch4T kernel kmalloc input inputAddr mem).seg.get k).address
      = allocSegment 0 ((fresh arch4T kernel kmalloc input inputAddr mem).info.secInfo k.sec).sSize
          (kmalloc k) := by
    cases k <;> rfl
  rw [haddr, allocSegment]
  split
  next hsize =>
    rw [or_iff_right hsize]
    split
    next hblock => exact iff_of_true rfl hblock
    next hblock => exact iff_of_false hblock hblock
  next hsize => exact iff_of_true rfl (Or.inl (not_not.mp hsize))

end LoadCall

/-- **A failed allocation is reported and nothing is written to `NULL`** exactly when the loader
stops in time, and comes back. -/
theorem alloc_failures_iff (arch4T : Bool) (kernel : Kernel) (kmalloc : Segment → BitVec 32)
    (input : BitVec 32 → UInt8) (inputAddr : BitVec 32) (mem : BitVec 32 → UInt8) :
    (LoadCall.fresh arch4T kernel kmalloc input inputAddr mem).Notices ↔
      (LoadCall.fresh arch4T kernel kmalloc input inputAddr mem).StopsInTime ∧
        ((LoadCall.fresh arch4T kernel kmalloc input inputAddr mem).AllocFails →
          ¬ (LoadCall.fresh arch4T kernel kmalloc input inputAddr mem).Hangs) := by
  have hmem := LoadCall.address_fresh arch4T kernel kmalloc input inputAddr mem
  constructor
  · rintro ⟨hreported, hnull⟩
    refine ⟨fun hheaders k hk hdata => ?_, fun hfails hhangs => ?_⟩
    swap
    · obtain ⟨e, he⟩ := hreported hfails
      rw [(LoadCall.run_fault_iff _).mpr hhangs] at he
      cases he
    by_contra hstop
    rw [not_or] at hstop
    exact hnull ((LoadCall.writesNull_iff _).mpr ⟨hheaders, k, (hmem k).mpr hk, hdata, hstop.1, hstop.2⟩)
  · rintro ⟨h, hback⟩
    have hnull : ¬ (LoadCall.fresh arch4T kernel kmalloc input inputAddr mem).WritesNull := by
      intro hwrites
      obtain ⟨hheaders, k, hk, hdata, hbefore, hat⟩ := (LoadCall.writesNull_iff _).mp hwrites
      rcases h hheaders k ((hmem k).mp hk) hdata with hstop | hstop
      · exact hbefore hstop
      · exact hat hstop
    refine ⟨fun hfails => ?_, hnull⟩
    cases hrun : (LoadCall.fresh arch4T kernel kmalloc input inputAddr mem).run with
    | ok res =>
      obtain ⟨k, hsize, hblock⟩ := hfails
      exact absurd (LoadCall.writesNull_of_run hrun hsize ((hmem k).mpr (Or.inr hblock))) hnull
    | error stop =>
      cases stop with
      | fault => exact absurd ((LoadCall.run_fault_iff _).mp hrun) (hback hfails)
      | error e => exact ⟨e, rfl⟩

/-- Without memory for its rodata segment, `rodataImage` is loaded all the same. -/
theorem failed_alloc_loaded :
    ¬ ∀ (arch4T : Bool) (kernel : Kernel) (kmalloc : Segment → BitVec 32)
      (input : BitVec 32 → UInt8) (inputAddr : BitVec 32) (mem : BitVec 32 → UInt8),
      (LoadCall.fresh arch4T kernel kmalloc input inputAddr mem).Notices := by
  intro h
  obtain ⟨hfails, -⟩ := h false printkKernel (fun k => if k = .rodata then 0 else blockAt k) rodataImage
    0x30100000 (fun _ => 0)
  have hload : (LoadCall.fresh false printkKernel (fun k => if k = .rodata then 0 else blockAt k) rodataImage
      0x30100000 (fun _ => 0)).run.toOption.isSome = true := by decide +kernel
  obtain ⟨res, hres⟩ := Option.isSome_iff_exists.mp hload
  obtain ⟨e, he⟩ := hfails ⟨.rodata, by decide +kernel, by decide⟩
  rw [eq_ok_of_toOption hres] at he
  cases he

end YakOS.Module
