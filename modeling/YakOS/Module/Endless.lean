import YakOS.Module.Resolve

/-!
# When the loader does not come back

The tables of an image are walked with 32-bit offsets.  Where a table lies at the end of
the address space, the offset can wrap around before it comes to the end of the table, and
then the walk goes on until an entry stops it: the search for a symbol in the module's own
table ends only with a symbol of the name, and the walk over a relocation table only with
an entry that fails.

## Main definitions

* `Kernel.Hangs` — the search for the symbol of a relocation does not end.
* `HangsIn` — the copy of a segment does not.
* `LoadCall.Hangs` — the call of the loader does not.

## Main results

* `run_fault_iff` — **when a call of the loader does not come back.**
-/

namespace YakOS.Module

open Bytes (chars)

variable {arch4T : Bool} {kernel : Kernel} {info : LoadInfo} {seg : SegmentInfo}
  {sectionbase : BitVec 32} {t : SegType}

/-! ### Relocations -/

/-- The search for the symbol of a relocation does not end. -/
def Kernel.Hangs (kernel : Kernel) (info : LoadInfo) (r : Rela) : Prop :=
  (info.relaSym r).stName ≠ 0 ∧ kernel.lookup info r = 0 ∧ ¬ kernel.Returns info r

theorem symbolAddress_fault_iff (r : Rela) :
    symbolAddress kernel info seg r = .error .fault ↔ kernel.Hangs info r := by
  by_cases hname : (info.relaSym r).stName = 0
  · refine iff_of_false ?_ fun h => h.1 hname
    rw [symbolAddress, if_neg (not_not_intro hname)]
    cases seg.byNumber (info.relaSym r).stShndx <;> exact fun h => by cases h
  · rw [Kernel.Hangs, and_iff_right hname]
    by_cases hlookup : kernel.lookup info r = 0
    · rw [and_iff_right hlookup]
      by_cases hreturns : kernel.Returns info r
      · refine iff_of_false ?_ (not_not_intro hreturns)
        by_cases hfound : ∃ a, kernel.FoundAt info seg r a
        · obtain ⟨a, ha⟩ := hfound
          rw [symbolAddress_of_foundAt hname hlookup ha]
          exact fun h => by cases h
        · rw [symbolAddress_of_not_foundAt hname hlookup hreturns (not_exists.mp hfound)]
          cases seg.byNumber (info.relaSym r).stShndx <;> exact fun h => by cases h
      · exact iff_of_true (symbolAddress_of_not_returns hname hlookup hreturns) hreturns
    · rw [symbolAddress_of_lookup hname hlookup]
      exact iff_of_false (fun h => by cases h) fun h => hlookup h.1

/-- A relocation that cannot be patched is reported. -/
theorem patchWord_ne_fault (type : BitVec 8) (word place addr : BitVec 32) :
    patchWord arch4T type word place addr ≠ .error .fault := by
  unfold patchWord
  split
  · exact fun h => by cases h
  · exact fun h => by cases h
  · exact fun h => by cases h
  · exact fun h => by cases h
  · unfold patchThmCall
    by_cases hpair : (word >>> 16).setWidth 16 &&& 0xe800#16 = 0xe800#16
    · by_cases harm : addr &&& 1 ≠ 0
      · simp only [if_pos hpair, if_pos harm]
        exact fun h => by cases h
      · cases arch4T with
        | true =>
          simp only [if_pos hpair, if_neg harm, if_true]
          exact fun h => by cases h
        | false =>
          simp only [if_pos hpair, if_neg harm, Bool.false_eq_true, if_false]
          exact fun h => by cases h
    · simp only [if_neg hpair]
      exact fun h => by cases h
  · exact fun h => by cases h

theorem relocateEntry_fault_iff (o : KModule) (r : Rela) :
    relocateEntry arch4T kernel info sectionbase t o r = .error .fault ↔ kernel.Hangs info r := by
  have hsymbol : symbolAddress kernel info o.segInfo r = .error .fault ↔ kernel.Hangs info r :=
    symbolAddress_fault_iff r
  rw [relocateEntry_eq, ← hsymbol]
  cases symbolAddress kernel info o.segInfo r with
  | error stop =>
    show (Except.error stop : Except Stop KModule) = _ ↔ _
    rw [Except.error.injEq, Except.error.injEq]
  | ok addr =>
    refine iff_of_false ?_ (fun h => by cases h)
    show (patchWord arch4T r.type (info.word t r) (sectionbase + r.rOffset) addr >>= _) ≠ _
    cases hw : patchWord arch4T r.type (info.word t r) (sectionbase + r.rOffset) addr with
    | error stop =>
      intro h
      rw [Except.error.inj h] at hw
      exact patchWord_ne_fault _ _ _ _ hw
    | ok w => exact fun h => by cases h

/-! ### Segments -/

/-- The copy of a segment does not come back: the search for the symbol of an entry does not end, or
every entry is patched and the walk over them does not end. -/
def HangsIn (arch4T : Bool) (kernel : Kernel) (info : LoadInfo) (sectionbase : BitVec 32)
    (t : SegType) (segInfo : SegmentInfo) : Prop :=
  (∃ rs r rs', relocTable info t (usingRelas info t) = rs ++ r :: rs' ∧
    (∀ s ∈ rs, ∃ w, Patch arch4T kernel info sectionbase t segInfo s w) ∧ kernel.Hangs info r) ∨
  (∀ r ∈ relocTable info t (usingRelas info t),
    ∃ w, Patch arch4T kernel info sectionbase t segInfo r w) ∧ ¬ TableEnds info t (usingRelas info t)

theorem relocateSection_fault_iff (o : KModule) :
    relocateSection arch4T kernel info o sectionbase t = .error .fault ↔
      HangsIn arch4T kernel info sectionbase t o.segInfo := by
  have hok : ∀ p r, p.segInfo = o.segInfo →
      ((∃ p', relocateEntry arch4T kernel info sectionbase t p r = .ok p') ↔
        ∃ w, Patch arch4T kernel info sectionbase t o.segInfo r w) :=
    fun p r hp => hp ▸ relocateEntry_ok_iff p r
  have hkeep : ∀ p r p', p.segInfo = o.segInfo →
      relocateEntry arch4T kernel info sectionbase t p r = .ok p' → p'.segInfo = o.segInfo :=
    fun _ _ _ hp h => (Grows.entry h).segInfo.trans hp
  rw [HangsIn, ← Lists.foldlM_error_iff hok (fun p r _ => relocateEntry_fault_iff p r) hkeep _ rfl,
    ← Lists.foldlM_ok_iff hok hkeep _ rfl]
  unfold relocateSection
  cases hwalk : (relocTable info t (usingRelas info t)).foldlM
      (relocateEntry arch4T kernel info sectionbase t) o with
  | error stop =>
    rw [or_iff_left (by rintro ⟨⟨p, hp⟩, -⟩; cases hp)]
    exact Iff.rfl
  | ok p =>
    rw [or_iff_right (fun h => by cases h), and_iff_right ⟨p, rfl⟩]
    show (if TableEnds info t (usingRelas info t) then Except.ok p else .error Stop.fault) = _ ↔ _
    split
    next hends => exact iff_of_false (fun h => by cases h) (not_not_intro hends)
    next hends => exact iff_of_true rfl hends

theorem loadSegment_fault_iff (o : KModule) :
    loadSegment arch4T kernel info o t = .error .fault ↔
      HangsIn arch4T kernel info (o.segInfo.get t.segment).address t o.segInfo := by
  unfold loadSegment
  split
  · have hcopy : ∀ addr, copySegment arch4T kernel info o addr t = .error .fault ↔
        relocateSection arch4T kernel info (startSegment o addr) addr t = .error .fault := by
      intro addr
      show (relocateSection arch4T kernel info (startSegment o addr) addr t >>= _) = _ ↔ _
      cases relocateSection arch4T kernel info (startSegment o addr) addr t with
      | error stop => exact Iff.rfl
      | ok p =>
        refine iff_of_false ?_ (fun h => by cases h)
        show copySegmentData info.file (p.offset + (info.secInfo t.sec).sOffset) p
          ((info.secInfo t.sec).sSize - p.offset).toNat ≠ _
        rw [copySegmentData_eq _ _ (BitVec.isLt _)]
        exact fun h => by cases h
    rw [hcopy]
    exact relocateSection_fault_iff _
  next hsize =>
    refine iff_of_false (fun h => by cases h) ?_
    have hnil : relocTable info t (usingRelas info t) = [] := relocTable_eq_nil _ (by bv_omega)
    rintro (⟨rs, r, rs', h, -⟩ | ⟨-, hends⟩)
    · rw [hnil] at h
      cases rs <;> cases h
    · exact hends (tableEnds_of_nil hnil)

/-! ### The call -/

namespace LoadCall

/-- The call does not come back: some segment is not copied to its end, all before it being copied,
or all are and the search for `mod_entry` does not end. -/
def Hangs (c : LoadCall) : Prop :=
  HeadersOk c.input c.inputAddr ∧
    ((∃ ts t ts', [SegType.text, .rodata, .data] = ts ++ t :: ts' ∧
        (∀ u ∈ ts, Relocatable c.arch4T c.kernel c.info (c.address u) u c.seg) ∧
        HangsIn c.arch4T c.kernel c.info (c.address t) t c.seg) ∨
      (∀ t, Relocatable c.arch4T c.kernel c.info (c.address t) t c.seg) ∧
        c.info.firstNamed (c.kernel.behindSymbol none) (chars "mod_entry") = none ∧
        ¬ c.info.SymtabEnds)

variable {c : LoadCall}

theorem entry_eq_none_iff : c.entry = none ↔
    c.info.firstNamed (c.kernel.behindSymbol none) (chars "mod_entry") = none ∧ ¬ c.info.SymtabEnds := by
  rw [entry]
  cases hfirst : c.info.firstNamed (c.kernel.behindSymbol none) (chars "mod_entry") with
  | some s =>
    rw [findLocalSymbol_of_some hfirst]
    exact iff_of_false (fun h => by cases h) fun h => by cases h.1
  | none =>
    rw [and_iff_right rfl]
    by_cases hends : c.info.SymtabEnds
    · rw [findLocalSymbol_of_none hfirst hends]
      exact iff_of_false (fun h => by cases h) (not_not_intro hends)
    · exact iff_of_true (findLocalSymbol_of_endless hfirst hends) hends

theorem relocateSegment_fault_iff :
    relocateSegment c.arch4T c.kernel c.info c.allocated = .error .fault ↔
      ∃ ts t ts', [SegType.text, .rodata, .data] = ts ++ t :: ts' ∧
        (∀ u ∈ ts, Relocatable c.arch4T c.kernel c.info (c.address u) u c.seg) ∧
        HangsIn c.arch4T c.kernel c.info (c.address t) t c.seg := by
  have hwalk := Lists.foldlM_error_iff (I := fun p => p.segInfo = c.seg)
    (P := fun t => Relocatable c.arch4T c.kernel c.info (c.address t) t c.seg)
    (Q := fun t => HangsIn c.arch4T c.kernel c.info (c.address t) t c.seg)
    (fun p t hp => hp ▸ loadSegment_ok_iff p) (fun p t hp => hp ▸ loadSegment_fault_iff p)
    (fun _ _ _ hp h => (loadSegment_segInfo h).trans hp)
    [SegType.text, SegType.rodata, SegType.data] (s := c.allocated) rfl
  rw [← hwalk]
  show (List.foldlM (loadSegment c.arch4T c.kernel c.info) c.allocated _ >>= clearBss c.info) = _ ↔ _
  cases List.foldlM (loadSegment c.arch4T c.kernel c.info) c.allocated
      [SegType.text, SegType.rodata, SegType.data] with
  | error stop => exact Iff.rfl
  | ok p =>
    refine iff_of_false ?_ (fun h => by cases h)
    obtain ⟨q, hq, -⟩ := clearBss_ok c.info p
    show clearBss c.info p ≠ _
    rw [hq]
    exact fun h => by cases h

theorem getElfInfo_ne_fault (info : LoadInfo) : getElfInfo info ≠ .error .fault := by
  unfold getElfInfo
  cases elfHeaderCheck info with
  | some e => exact fun h => by cases h
  | none =>
    generalize elfGetSecInfo info = res
    obtain ⟨info, e⟩ := res
    cases e <;> exact fun h => by cases h

/-- **A call of the loader does not come back exactly when it hangs.** -/
theorem run_fault_iff (c : LoadCall) : c.run = .error .fault ↔ c.Hangs := by
  by_cases hheaders : HeadersOk c.input c.inputAddr
  · have hcopied : (∃ p, relocateSegment c.arch4T c.kernel c.info c.allocated = .ok p) ↔
        ∀ t, Relocatable c.arch4T c.kernel c.info (c.address t) t c.seg :=
      relocateSegment_ok_iff c.allocated
    rw [Hangs, and_iff_right hheaders, ← relocateSegment_fault_iff, ← entry_eq_none_iff, ← hcopied,
      run_eq_of_headers hheaders]
    cases hp : relocateSegment c.arch4T c.kernel c.info c.allocated with
    | error stop =>
      rw [or_iff_left (by rintro ⟨⟨p, hp⟩, -⟩; cases hp)]
      show (Except.error stop : Except Stop (KModule × BitVec 32)) = _ ↔ _
      rw [Except.error.injEq, Except.error.injEq]
    | ok p =>
      have hseg : p.segInfo = c.seg := relocateSegment_eq_ok hp
      rw [or_iff_right (fun h => by cases h), and_iff_right ⟨p, rfl⟩, Except.bind, hseg, ← entry]
      cases c.entry with
      | none => exact iff_of_true rfl rfl
      | some e =>
        refine iff_of_false ?_ (fun h => by cases h)
        simp only
        split <;> exact fun h => by cases h
  · refine iff_of_false ?_ fun h => hheaders h.1
    rw [run_eq]
    cases hinfo : getElfInfo (LoadInfo.cleared c.input c.inputAddr) with
    | error stop =>
      intro h
      rw [Except.error.inj h] at hinfo
      exact getElfInfo_ne_fault _ hinfo
    | ok info => exact absurd (getElfInfo_eq_ok_iff.mp hinfo).1 hheaders

end LoadCall

end YakOS.Module
