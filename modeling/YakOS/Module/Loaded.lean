import YakOS.Module.Resolve

/-!
# The memory of a loaded module

What `_load_module` leaves in memory, for images whose relocation tables come in order and segments that
lie apart: every relocated word is the patched one, the other bytes of text, rodata and data are those of
the image, the bss segment is cleared, and no other byte is written.

## Main definitions

* `Outside`, `Separate` — an address that is not in a segment, and segments that lie apart.
* `InOrder` — a relocation table that is relocated entry by entry.
* `Loaded` — what a loaded module has in memory.

## Main results

* `loadSegment_loaded`, `loadSegments_loaded` — one segment, and one after the other.
* `module_loaded_iff` — when a module is loaded, and what is then in memory.
-/

namespace YakOS.Module

open Bytes (chars)

/-- An address is not in a segment. -/
def Outside (info : LoadInfo) (seg : SegmentInfo) (k : Segment) (a : BitVec 32) : Prop :=
  (info.secInfo k.sec).sSize.toNat ≤ (a - (seg.get k).address).toNat

instance (info : LoadInfo) (seg : SegmentInfo) (k : Segment) (a : BitVec 32) :
    Decidable (Outside info seg k a) :=
  inferInstanceAs (Decidable (_ ≤ _))

/-- No byte of a segment lies in another one. -/
def Separate (info : LoadInfo) (seg : SegmentInfo) : Prop :=
  ∀ k k', k ≠ k' → ∀ i < (info.secInfo k.sec).sSize.toNat,
    Outside info seg k' ((seg.get k).address + .ofNat 32 i)

/-- The relocations that are read for a segment patch words of its section, apart from each other and
in increasing order. -/
structure InOrder (info : LoadInfo) (t : SegType) : Prop where
  inside : ∀ r ∈ relocTable info t (usingRelas info t),
    r.rOffset.toNat + 4 ≤ (info.secInfo t.sec).sSize.toNat
  apart : (relocTable info t (usingRelas info t)).Pairwise Rela.Apart
  increasing : Increasing (relocTable info t (usingRelas info t))

/-- A segment is in memory: the relocated words are the patched ones, and the other bytes are those of
the image. -/
structure SegmentLoaded (arch4T : Bool) (kernel : Kernel) (info : LoadInfo) (seg : SegmentInfo)
    (t : SegType) (mem : BitVec 32 → UInt8) : Prop where
  patched : ∀ r ∈ relocTable info t (usingRelas info t),
    Patch arch4T kernel info (seg.get t.segment).address t seg r
      (.ofNat 32 (Bytes.u32 (Bytes.view mem (seg.get t.segment).address) r.rOffset.toNat))
  copied : ∀ i < (info.secInfo t.sec).sSize.toNat,
    (∀ r ∈ relocTable info t (usingRelas info t), i < r.rOffset.toNat ∨ r.rOffset.toNat + 4 ≤ i) →
      Bytes.view mem (seg.get t.segment).address i = info.bytes t i

/-- A module is in memory, which was `before`. -/
structure Loaded (arch4T : Bool) (kernel : Kernel) (info : LoadInfo) (seg : SegmentInfo)
    (before mem : BitVec 32 → UInt8) : Prop where
  segments : ∀ t, SegmentLoaded arch4T kernel info seg t mem
  bss : ∀ i < (info.secInfo Segment.bss.sec).sSize.toNat, Bytes.view mem seg.bss.address i = 0
  frame : ∀ a, (∀ k, Outside info seg k a) → mem a = before a

variable {arch4T : Bool} {kernel : Kernel} {info : LoadInfo} {seg : SegmentInfo} {t : SegType}
  {o o' : KModule} {mem mem' : BitVec 32 → UInt8}

/-- A table without entries is in order. -/
theorem InOrder.of_nil (h : relocTable info t (usingRelas info t) = []) : InOrder info t := by
  refine ⟨fun r hr => ?_, ?_, ?_⟩
  · rw [h] at hr
    exact absurd hr List.not_mem_nil
  · rw [h]
    exact List.Pairwise.nil
  · rw [h]
    exact List.Pairwise.nil

theorem SegType.sec_segment (t : SegType) : t.segment.sec = t.sec := by cases t <;> rfl

theorem SegType.segment_injective : Function.Injective SegType.segment := by
  intro t u h
  cases t <;> cases u <;> first | rfl | cases h

theorem SegType.segment_ne_bss (t : SegType) : t.segment ≠ .bss := by cases t <;> simp [segment]

/-- A segment stays in memory when its bytes stay. -/
theorem SegmentLoaded.congr (h : SegmentLoaded arch4T kernel info seg t mem) (hord : InOrder info t)
    (hsame : ∀ i < (info.secInfo t.sec).sSize.toNat, Bytes.view mem' (seg.get t.segment).address i
      = Bytes.view mem (seg.get t.segment).address i) :
    SegmentLoaded arch4T kernel info seg t mem' where
  patched r hr := by
    have hin := hord.inside r hr
    rw [Bytes.u32_congr fun i _ hi => hsame i (by omega)]
    exact h.patched r hr
  copied i hi hout := (hsame i hi).trans (h.copied i hi hout)

/-- A segment without relocations. -/
theorem copySection_loaded (hnil : relocTable info t (usingRelas info t) = []) :
    SegmentLoaded arch4T kernel info seg t (copySection info o (seg.get t.segment).address t).mem ∧
      ∀ a, Outside info seg t.segment a →
        (copySection info o (seg.get t.segment).address t).mem a = o.mem a := by
  refine ⟨⟨fun r hr => ?_, fun i hi _ => Bytes.view_store_read _ _ _ (BitVec.isLt _) hi⟩, fun a ha => ?_⟩
  · rw [hnil] at hr
    exact absurd hr List.not_mem_nil
  · refine Bytes.store_of_le _ ?_
    rw [Bytes.length_read, ← t.sec_segment]
    exact ha

/-- **A segment is loaded**, and nothing outside it is written. -/
theorem loadSegment_loaded (hord : InOrder info t) (hseg : o.segInfo = seg)
    (h : loadSegment arch4T kernel info o t = .ok o') :
    SegmentLoaded arch4T kernel info seg t o'.mem ∧
      ∀ a, Outside info seg t.segment a → o'.mem a = o.mem a := by
  subst hseg
  unfold loadSegment at h
  split at h
  · have hrel := relocated_of_increasing hord.inside hord.apart hord.increasing h
    refine ⟨⟨fun r hr => ?_, hrel.copied⟩, fun a ha => ?_⟩
    · obtain ⟨w, hw, hword⟩ := hrel.patched r hr
      rw [hword]
      exact hw
    · rw [← Bytes.view_sub o'.mem a (o.segInfo.get t.segment).address,
        ← Bytes.view_sub o.mem a (o.segInfo.get t.segment).address]
      exact hrel.frame _ (BitVec.isLt _) (t.sec_segment ▸ ha)
  · next hsize =>
    rw [← Except.ok.inj h]
    exact copySection_loaded (relocTable_eq_nil _ (by bv_omega))

/-- Bytes of a segment stay when only other segments are written. -/
theorem Separate.view_eq (hsep : Separate info seg) {k : Segment} {P : Segment → Prop}
    (hframe : ∀ a, (∀ k', P k' → Outside info seg k' a) → mem' a = mem a) (hk : ¬ P k) {i : ℕ}
    (hi : i < (info.secInfo k.sec).sSize.toNat) :
    Bytes.view mem' (seg.get k).address i = Bytes.view mem (seg.get k).address i := by
  refine hframe _ fun k' hk' => hsep k k' ?_ i hi
  rintro rfl
  exact hk hk'

/-- **Segments are loaded one after the other**, and nothing outside them is written. -/
theorem loadSegments_loaded (hord : ∀ t, InOrder info t) (hsep : Separate info seg) (ts : List SegType)
    (hts : ts.Nodup) (hseg : o.segInfo = seg) (h : ts.foldlM (loadSegment arch4T kernel info) o = .ok o') :
    (∀ t ∈ ts, SegmentLoaded arch4T kernel info seg t o'.mem) ∧
      ∀ a, (∀ k, (∃ t ∈ ts, t.segment = k) → Outside info seg k a) → o'.mem a = o.mem a := by
  induction ts generalizing o with
  | nil =>
    rw [List.foldlM_nil] at h
    rw [← Except.ok.inj h]
    exact ⟨fun t ht => absurd ht List.not_mem_nil, fun _ _ => rfl⟩
  | cons t ts ih =>
    rw [List.foldlM_cons] at h
    obtain ⟨p, hp, h⟩ := ok_of_bind_eq_ok h
    rw [List.nodup_cons] at hts
    obtain ⟨hone, hframe⟩ := loadSegment_loaded (hord t) hseg hp
    obtain ⟨hrest, hframes⟩ := ih hts.2 ((loadSegment_segInfo hp).trans hseg) h
    refine ⟨fun u hu => ?_, fun a ha => ?_⟩
    · rcases List.mem_cons.mp hu with rfl | hu
      · -- the segments behind it are written elsewhere
        refine hone.congr (hord u) fun i hi => hsep.view_eq hframes ?_ (u.sec_segment ▸ hi)
        rintro ⟨v, hv, heq⟩
        exact hts.1 (SegType.segment_injective heq ▸ hv)
      · exact hrest u hu
    · rw [hframes a fun k ⟨u, hu, hk⟩ => ha k ⟨u, List.mem_cons_of_mem _ hu, hk⟩]
      exact hframe a (ha _ ⟨t, List.mem_cons_self, rfl⟩)

/-- The bss segment is cleared, and nothing outside it is written. -/
theorem clearBss_loaded (hseg : o.segInfo = seg) (h : clearBss info o = .ok o') :
    (∀ i < (info.secInfo Segment.bss.sec).sSize.toNat, Bytes.view o'.mem seg.bss.address i = 0) ∧
      ∀ a, Outside info seg .bss a → o'.mem a = o.mem a := by
  subst hseg
  have hmem : o'.mem = Bytes.store o.mem o.segInfo.bss.address
      (Bytes.read (fun _ => 0) 0 (info.secInfo Segment.bss.sec).sSize.toNat) := by
    rw [clearBss, copySegmentData, copyRounds_eq _ _ _ _ _ (Nat.lt_succ_self _) (BitVec.isLt _)] at h
    rw [← Except.ok.inj h]
    show Bytes.store o.mem (o.segInfo.bss.address + 0#32) _ = _
    rw [BitVec.add_zero]
    rfl
  rw [hmem]
  refine ⟨fun i hi => Bytes.view_store_read _ _ _ (BitVec.isLt _) hi, fun a ha => Bytes.store_of_le _ ?_⟩
  rw [Bytes.length_read]
  exact ha

/-- `relocate_segment` puts the module into memory. -/
theorem relocateSegment_loaded (hord : ∀ t, InOrder info t) (hsep : Separate info seg)
    (hseg : o.segInfo = seg) (h : relocateSegment arch4T kernel info o = .ok o') :
    Loaded arch4T kernel info seg o.mem o'.mem := by
  obtain ⟨p, hp, hclear⟩ := ok_of_bind_eq_ok h
  obtain ⟨hsegments, hframes⟩ := loadSegments_loaded hord hsep _ (by decide) hseg hp
  have hpseg : p.segInfo = seg :=
    Lists.foldlM_inv (I := fun p => p.segInfo = seg)
      (fun _ _ _ hq hstep => (loadSegment_segInfo hstep).trans hq) _ hseg hp
  obtain ⟨hbss, hframe⟩ := clearBss_loaded hpseg hclear
  have hone : ∀ a, (∀ k, k = .bss → Outside info seg k a) → o'.mem a = p.mem a := fun a ha =>
    hframe a (ha _ rfl)
  refine ⟨fun t => (hsegments t ?_).congr (hord t) fun i hi => ?_, hbss, fun a ha => ?_⟩
  · cases t <;> decide
  · exact hsep.view_eq hone t.segment_ne_bss (t.sec_segment ▸ hi)
  · rw [hone a fun k _ => ha k, hframes a fun k _ => ha k]

/-- A module that is returned is in memory. -/
theorem LoadCall.run_loaded {c : LoadCall} {m : KModule} {e : BitVec 32} (hord : ∀ t, InOrder c.info t)
    (hsep : Separate c.info c.seg) (h : c.run = .ok (m, e)) :
    c.entry = some e ∧ Loaded c.arch4T c.kernel c.info c.seg c.output.mem m.mem := by
  obtain ⟨-, hm, hentry, -⟩ := LoadCall.run_eq_ok h
  have hloaded : Loaded c.arch4T c.kernel c.info c.seg c.allocated.mem m.mem :=
    relocateSegment_loaded hord hsep rfl hm
  exact ⟨hentry, hloaded⟩

/-- **What a loaded module has in memory**: with relocation tables in order and segments that lie apart,
the loader returns a module exactly if the headers are accepted, there is a word for each relocation and
`mod_entry` is found; then every relocated word is patched, the rest of the segments is the image, the bss
segment is cleared, and nothing else is written. -/
theorem module_loaded_iff (c : LoadCall) (hord : ∀ t, InOrder c.info t) (hsep : Separate c.info c.seg) :
    (∃ m e, c.run = .ok (m, e) ∧ c.entry = some e ∧
        Loaded c.arch4T c.kernel c.info c.seg c.output.mem m.mem) ↔
      HeadersOk c.input c.inputAddr ∧
        (∀ t, Relocatable c.arch4T c.kernel c.info (c.address t) t c.seg) ∧
          ∃ e, c.entry = some e ∧ e ≠ 0 := by
  constructor
  · rintro ⟨m, e, hrun, -⟩
    exact c.run_ok_iff.mp ⟨_, hrun⟩
  · intro hok
    obtain ⟨⟨m, e⟩, hrun⟩ := c.run_ok_iff.mpr hok
    exact ⟨m, e, hrun, LoadCall.run_loaded hord hsep hrun⟩

/-- The image with a relocated word of text and a rodata section is loaded. -/
theorem module_loaded_iff_rodata : ∃ m e,
    loadRodataImage.run = .ok (m, e) ∧ loadRodataImage.entry = some e ∧
      Loaded false printkKernel loadRodataImage.info loadRodataImage.seg (fun _ => 0) m.mem := by
  have hload : loadRodataImage.run.toOption.isSome = true := by decide +kernel
  obtain ⟨res, hres⟩ := Option.isSome_iff_exists.mp hload
  have hok := loadRodataImage.run_ok_iff.mp ⟨res, eq_ok_of_toOption hres⟩
  refine (module_loaded_iff loadRodataImage (fun t => ?_) fun k k' hk => ?_).mpr hok
  · rw [info_loadRodataImage]
    cases t with
    | text =>
      have htable : relocTable rodataRecord .text (usingRelas rodataRecord .text) 
          = [⟨0, 0x102, .text, 0⟩] := by
        decide +kernel
      refine ⟨by decide +kernel, by decide +kernel, ?_⟩
      rw [htable]
      exact List.pairwise_singleton ..
    | rodata => exact InOrder.of_nil (by decide +kernel)
    | data => exact InOrder.of_nil (by decide +kernel)
  · unfold LoadCall.seg LoadCall.allocated
    rw [info_loadRodataImage]
    cases k <;> cases k' <;> first | exact absurd rfl hk | decide +kernel

end YakOS.Module
