import YakOS.Lib.Lists
import YakOS.Module.Segment

/-!
# What a copied segment holds

The copy of a segment is right when exactly the bytes of the section were written,
every relocated word is the patched one and every other byte is that of the image
(`Relocated`).  The invariant of the copy is `Filled`: the stream has reached
`written`, the words of the entries walked so far are patched below it, and
everything else below it is the image.  It is kept by an entry that the stream has
not passed yet; the word of an entry that it has passed stays as it is in the image.

## Main results

* `writeSegment_seg`, `copySegmentData_eq` — the stream, seen from the segment address.
* `Filled.entry`, `Filled.entries` — a step and a run of `relocate_section`.
* `copy_segment_relocated` — **a table in increasing order of `r_offset` is relocated
  correctly, and no other one is when each patch changes its word.**
-/

namespace YakOS.Module

variable {arch4T : Bool} {kernel : Kernel} {info : LoadInfo} {sectionbase : BitVec 32}
  {t : SegType}

/-! ### The stream, seen from the segment address -/

/-- The memory from the segment address on. -/
def KModule.segment (o : KModule) : ℕ → UInt8 := Bytes.view o.mem o.base

/-- The bytes of a section in the image. -/
def LoadInfo.bytes (info : LoadInfo) (t : SegType) : ℕ → UInt8 :=
  Bytes.view info.input (info.inputAddr + (info.secInfo t.sec).sOffset)

/-- The running offset is the number of bytes written. -/
def KModule.InStep (o : KModule) : Prop := o.offset = .ofNat 32 o.written

@[simp] theorem writeSegment_written (o : KModule) (buf : List UInt8) :
    (writeSegment o buf).2.written = o.written + buf.length := rfl

theorem writeSegment_inStep {o : KModule} (h : o.InStep) (buf : List UInt8) :
    (writeSegment o buf).2.InStep := by
  rw [KModule.InStep] at h ⊢
  rw [writeSegment_written, BitVec.ofNat_add, ← h]
  rfl

/-- A write below the end of the address space, seen from the segment address. -/
theorem writeSegment_seg {o : KModule} (h : o.InStep) {buf : List UInt8}
    (hb : o.written + buf.length ≤ 2 ^ 32) {i : ℕ} (hi : i < 2 ^ 32) :
    (writeSegment o buf).2.segment i = Bytes.write o.segment o.written buf i := by
  rw [KModule.InStep] at h
  show Bytes.view (Bytes.store o.mem (o.base + o.offset) buf) o.base i = _
  rw [h]
  exact Bytes.view_store o.mem o.base hb hi

/-- Two writes in a row are one. -/
theorem writeSegment_append (o : KModule) {bs cs : List UInt8} (h : bs.length + cs.length ≤ 2 ^ 32) :
    (writeSegment (writeSegment o bs).2 cs).2 = (writeSegment o (bs ++ cs)).2 := by
  have hmem : Bytes.store (Bytes.store o.mem (o.base + o.offset) bs)
      (o.base + (o.offset + .ofNat 32 bs.length)) cs
      = Bytes.store o.mem (o.base + o.offset) (bs ++ cs) := by
    rw [← BitVec.add_assoc]
    exact Bytes.store_append o.mem _ h
  simp only [writeSegment, List.length_append, BitVec.ofNat_add, BitVec.add_assoc,
    Nat.add_assoc] at hmem ⊢
  rw [hmem]

/-- The rounds of `copy_segment_data` append a run of the image. -/
theorem copyRounds_eq (file : ℕ → UInt8) : ∀ (fuel addr : ℕ) (o : KModule) (len : ℕ),
    len / 16 < fuel → len < 2 ^ 32 →
      copyRounds file fuel addr o len = .ok (writeSegment o (Bytes.read file addr len)).2
  | 0, _, _, _, hf, _ => absurd hf (Nat.not_lt_zero _)
  | fuel + 1, addr, o, len, hf, hlen => by
    rw [copyRounds]
    split
    next h16 =>
      obtain ⟨k, rfl⟩ := Nat.exists_eq_add_of_le h16.le
      have ih := copyRounds_eq file fuel (addr + 16) (writeSegment o (Bytes.read file addr 16)).2 k
        (by omega) (by omega)
      rw [writeSegment_append o (by simp only [Bytes.length_read]; omega),
        ← Bytes.read_append] at ih
      rw [Nat.add_sub_cancel_left]
      exact (if_neg (not_not_intro (Bytes.length_read file addr 16))).trans ih
    next h16 =>
      exact if_neg (not_not_intro (Bytes.length_read file addr len))

/-- **`copy_segment_data` appends `len` bytes of the section**, whatever the chunks are. -/
theorem copySegmentData_eq (offset : BitVec 32) (o : KModule) {len : ℕ} (hlen : len < 2 ^ 32) :
    copySegmentData info.file (offset + (info.secInfo t.sec).sOffset) o len
      = .ok (writeSegment o (Bytes.read (info.bytes t) offset.toNat len)).2 := by
  rw [copySegmentData, copyRounds_eq _ _ _ _ _ (Nat.lt_succ_self _) hlen]
  congr 3
  apply List.map_congr_left
  intro i _
  rw [LoadInfo.file, Bytes.view_add, LoadInfo.bytes, Bytes.view_add, BitVec.add_assoc,
    BitVec.add_comm offset]

/-- The word of the image that a relocation patches. -/
def LoadInfo.word (info : LoadInfo) (t : SegType) (r : Rela) : BitVec 32 :=
  .ofNat 32 (Bytes.u32 (info.bytes t) r.rOffset.toNat)

/-- What `apply_relocate` writes for a relocation of a segment at `sectionbase`. -/
def Patch (arch4T : Bool) (kernel : Kernel) (info : LoadInfo) (sectionbase : BitVec 32)
    (t : SegType) (segInfo : SegmentInfo) (r : Rela) (w : BitVec 32) : Prop :=
  ∃ addr, symbolAddress kernel info segInfo r = .ok addr ∧
    patchWord arch4T r.type (info.word t r) (sectionbase + r.rOffset) addr = .ok w

/-- The gap that `relocate_section` copies before a relocation. -/
def fillGap (info : LoadInfo) (t : SegType) (o : KModule) (r : Rela) : KModule :=
  if o.offset < r.rOffset then
    (writeSegment o (Bytes.read (info.bytes t) o.offset.toNat (r.rOffset - o.offset).toNat)).2
  else o

theorem ok_of_bind_eq_ok {ε α β : Type} {x : Except ε α} {f : α → Except ε β} {b : β}
    (h : (x >>= f) = .ok b) : ∃ a, x = .ok a ∧ f a = .ok b := by
  cases x with
  | error e => exact absurd h (by simp [bind, Except.bind])
  | ok a => exact ⟨a, rfl, h⟩

/-- The word at the place of a relocation, read from the image, is that of the section. -/
theorem word_eq (info : LoadInfo) (t : SegType) (r : Rela) :
    BitVec.ofNat 32 (Bytes.u32 info.file ((info.secInfo t.sec).sOffset + r.rOffset).toNat)
      = info.word t r := by
  have hview : ∀ i, info.file (((info.secInfo t.sec).sOffset + r.rOffset).toNat + i)
      = info.bytes t (r.rOffset.toNat + i) := by
    intro i
    rw [LoadInfo.file, Bytes.view_add, LoadInfo.bytes, Bytes.view_add, BitVec.add_assoc]
  simp only [LoadInfo.word, Bytes.u32, Bytes.u16, Nat.add_assoc]
  rw [hview, hview, hview, ← Nat.add_zero (BitVec.toNat (_ + _)), hview, Nat.add_zero]

/-- The copy up to a relocation fills the gap. -/
theorem copy_gap_eq (info : LoadInfo) (t : SegType) (o : KModule) (r : Rela) :
    (if segmentOffset o < r.rOffset then
      copySegmentData info.file (segmentOffset o + (info.secInfo t.sec).sOffset) o
        (r.rOffset - segmentOffset o).toNat
    else .ok o) = .ok (fillGap info t o r) := by
  unfold fillGap segmentOffset
  split
  · exact copySegmentData_eq _ _ (BitVec.isLt _)
  · rfl

/-- **One round of `relocate_section`**: the gap is copied and the patched word appended. -/
theorem relocateEntry_eq (o : KModule) (r : Rela) :
    relocateEntry arch4T kernel info sectionbase t o r = (do
      let addr ← symbolAddress kernel info o.segInfo r
      let w ← patchWord arch4T r.type (info.word t r) (sectionbase + r.rOffset) addr
      .ok (writeSegment (fillGap info t o r) (Bytes.le32 w.toNat)).2) := by
  unfold relocateEntry applyRelocate
  simp only [copy_gap_eq, word_eq]
  rfl

theorem relocateEntry_eq_ok {o o' : KModule} {r : Rela}
    (h : relocateEntry arch4T kernel info sectionbase t o r = .ok o') :
    ∃ w, Patch arch4T kernel info sectionbase t o.segInfo r w ∧
      o' = (writeSegment (fillGap info t o r) (Bytes.le32 w.toNat)).2 := by
  rw [relocateEntry_eq] at h
  obtain ⟨addr, haddr, h⟩ := ok_of_bind_eq_ok h
  obtain ⟨w, hw, h⟩ := ok_of_bind_eq_ok h
  exact ⟨w, ⟨addr, haddr, hw⟩, (Except.ok.inj h).symm⟩

/-- A round succeeds exactly when there is a word to write, wherever the stream is. -/
theorem relocateEntry_ok_iff (o : KModule) (r : Rela) :
    (∃ o', relocateEntry arch4T kernel info sectionbase t o r = .ok o') ↔
      ∃ w, Patch arch4T kernel info sectionbase t o.segInfo r w := by
  constructor
  · rintro ⟨o', h⟩
    obtain ⟨w, hw, -⟩ := relocateEntry_eq_ok h
    exact ⟨w, hw⟩
  · rintro ⟨w, addr, haddr, hw⟩
    refine ⟨(writeSegment (fillGap info t o r) (Bytes.le32 w.toNat)).2, ?_⟩
    rw [relocateEntry_eq, haddr]
    show (patchWord arch4T r.type (info.word t r) (sectionbase + r.rOffset) addr >>= _) = _
    rw [hw]
    rfl

/-! ### The stream only grows -/

/-- What any number of writes can do: the stream gets longer, and as long as it does not run
around the address space, only the bytes it gets longer by are written. -/
structure Grows (o o' : KModule) : Prop where
  base : o'.base = o.base
  segInfo : o'.segInfo = o.segInfo
  inStep : o.InStep → o'.InStep
  written : o.written ≤ o'.written
  kept : o.InStep → o'.written ≤ 2 ^ 32 → ∀ i < 2 ^ 32, i < o.written ∨ o'.written ≤ i →
    o'.segment i = o.segment i

theorem Grows.refl (o : KModule) : Grows o o :=
  ⟨rfl, rfl, id, le_rfl, fun _ _ _ _ _ => rfl⟩

theorem Grows.trans {o p q : KModule} (h : Grows o p) (h' : Grows p q) : Grows o q where
  base := h'.base.trans h.base
  segInfo := h'.segInfo.trans h.segInfo
  inStep hs := h'.inStep (h.inStep hs)
  written := h.written.trans h'.written
  kept hs hq i hi hout := by
    have h1 := h.written
    have h2 := h'.written
    rw [h'.kept (h.inStep hs) hq i hi (by omega), h.kept hs (by omega) i hi (by omega)]

theorem Grows.writeSegment (o : KModule) (buf : List UInt8) : Grows o (writeSegment o buf).2 where
  base := rfl
  segInfo := rfl
  inStep hs := writeSegment_inStep hs buf
  written := Nat.le_add_right _ _
  kept hs hb i hi hout := by
    rw [writeSegment_seg hs hb hi]
    exact Bytes.write_of_disjoint _ hout

theorem Grows.fillGap (o : KModule) (r : Rela) : Grows o (fillGap info t o r) := by
  rw [Module.fillGap]
  split
  · exact Grows.writeSegment _ _
  · exact Grows.refl o

theorem Grows.entry {o o' : KModule} {r : Rela}
    (h : relocateEntry arch4T kernel info sectionbase t o r = .ok o') : Grows o o' := by
  obtain ⟨w, -, rfl⟩ := relocateEntry_eq_ok h
  exact (Grows.fillGap o r).trans (Grows.writeSegment _ _)

theorem Grows.entries {rs : List Rela} {o o' : KModule}
    (h : rs.foldlM (relocateEntry arch4T kernel info sectionbase t) o = .ok o') : Grows o o' :=
  Lists.foldlM_inv (I := Grows o) (fun _ _ _ hgrow hp => hgrow.trans (Grows.entry hp)) rs
    (Grows.refl o) h

/-! ### The table in order -/

theorem KModule.InStep.toNat_offset {o : KModule} (hs : o.InStep) (h : o.written < 2 ^ 32) :
    o.offset.toNat = o.written := by
  rw [KModule.InStep] at hs
  rw [hs, Bytes.toNat_ofNat_of_lt h]

/-- Before an entry that the stream has not passed, the gap is filled from the image. -/
theorem fillGap_spec {o : KModule} {r : Rela} (hs : o.InStep) (hle : o.written ≤ r.rOffset.toNat) :
    (fillGap info t o r).written = r.rOffset.toNat ∧
      ∀ i < 2 ^ 32, o.written ≤ i → i < r.rOffset.toNat →
        (fillGap info t o r).segment i = info.bytes t i := by
  have hr := r.rOffset.isLt
  have hoff := hs.toNat_offset (lt_of_le_of_lt hle hr)
  rcases hle.eq_or_lt with heq | hlt
  · have hn : ¬ o.offset < r.rOffset := by
      rw [BitVec.lt_def]
      omega
    rw [fillGap, if_neg hn]
    exact ⟨heq, fun i _ h1 h2 => absurd h2 (by omega)⟩
  · have hp : o.offset < r.rOffset := by
      rw [BitVec.lt_def]
      omega
    have hlen : (r.rOffset - o.offset).toNat = r.rOffset.toNat - o.written := by
      rw [BitVec.toNat_sub_of_le (BitVec.le_of_lt hp), hoff]
    rw [fillGap, if_pos hp, hlen, hoff]
    refine ⟨by rw [writeSegment_written, Bytes.length_read]; omega, ?_⟩
    intro i hi h1 h2
    obtain ⟨j, rfl⟩ := Nat.exists_eq_add_of_le h1
    have hj : j < (Bytes.read (info.bytes t) o.written (r.rOffset.toNat - o.written)).length := by
      rw [Bytes.length_read]
      omega
    rw [writeSegment_seg hs (by rw [Bytes.length_read]; omega) hi, Bytes.write_add _ _ hj]
    simp [Bytes.read]

/-- The invariant of `relocate_section` on a table in order: below the end of the stream, the
words of the entries walked so far are patched, and the rest is the image. -/
structure Filled (arch4T : Bool) (kernel : Kernel) (info : LoadInfo) (sectionbase : BitVec 32)
    (t : SegType) (segInfo : SegmentInfo) (rs : List Rela) (o : KModule) : Prop where
  segInfo_eq : o.segInfo = segInfo
  inStep : o.InStep
  patched : ∀ r ∈ rs, r.rOffset.toNat + 4 ≤ o.written ∧
    ∃ w, Patch arch4T kernel info sectionbase t segInfo r w ∧
      Bytes.u32 o.segment r.rOffset.toNat = w.toNat
  copied : ∀ i < o.written, i < 2 ^ 32 → (∀ r ∈ rs, i < r.rOffset.toNat ∨ r.rOffset.toNat + 4 ≤ i) →
    o.segment i = info.bytes t i

variable {segInfo : SegmentInfo} {rs : List Rela} {o o' : KModule} {r : Rela}

/-- An entry that the stream has not passed is patched at its own offset. -/
theorem Filled.entry (h : Filled arch4T kernel info sectionbase t segInfo rs o)
    (hle : o.written ≤ r.rOffset.toNat) (hr : r.rOffset.toNat + 4 ≤ 2 ^ 32)
    (hstep : relocateEntry arch4T kernel info sectionbase t o r = .ok o') :
    Filled arch4T kernel info sectionbase t segInfo (rs ++ [r]) o' ∧
      o'.written = r.rOffset.toNat + 4 := by
  obtain ⟨w, hw, rfl⟩ := relocateEntry_eq_ok hstep
  obtain ⟨hgap, hfill⟩ := @fillGap_spec info t o r h.inStep hle
  have hgrow : Grows o (fillGap info t o r) := Grows.fillGap o r
  have hs := hgrow.inStep h.inStep
  have hlen : (Bytes.le32 w.toNat).length = 4 := Bytes.length_le32 _
  have hend : (writeSegment (fillGap info t o r) (Bytes.le32 w.toNat)).2.written
      = r.rOffset.toNat + 4 := by
    rw [writeSegment_written, hgap, hlen]
  -- the patched word follows the gap
  have hseg : ∀ i < 2 ^ 32, (writeSegment (fillGap info t o r) (Bytes.le32 w.toNat)).2.segment i
      = Bytes.write (fillGap info t o r).segment r.rOffset.toNat (Bytes.le32 w.toNat) i := by
    intro i hi
    rw [writeSegment_seg hs (by rw [hgap, hlen]; exact hr) hi, hgap]
  refine ⟨⟨hgrow.segInfo.trans h.segInfo_eq, writeSegment_inStep hs _, ?_, ?_⟩, hend⟩
  · -- the words patched before are behind the stream, and the last one is read back
    intro s hsmem
    rw [hend]
    rcases List.mem_append.mp hsmem with hold | hnew
    · obtain ⟨hlow, v, hv, hword⟩ := h.patched s hold
      refine ⟨by omega, v, hv, ?_⟩
      rw [← hword]
      apply Bytes.u32_congr
      intro i h1 h2
      rw [hseg i (by omega), Bytes.write_of_lt _ _ (by omega),
        hgrow.kept h.inStep (by omega) i (by omega) (by omega)]
    · obtain rfl := List.mem_singleton.mp hnew
      refine ⟨le_rfl, w, h.segInfo_eq ▸ hw, ?_⟩
      rw [Bytes.u32_congr fun i h1 h2 => hseg i (by omega), Bytes.u32_write_le32,
        Nat.mod_eq_of_lt w.isLt]
  · intro i hi hi32 hout
    rw [hend] at hi
    have hri := hout r (by simp)
    have hir : i < r.rOffset.toNat := by omega
    rw [hseg i hi32, Bytes.write_of_lt _ _ hir]
    rcases Nat.lt_or_ge i o.written with hlow | hhigh
    · rw [hgrow.kept h.inStep (by omega) i hi32 (Or.inl hlow)]
      exact h.copied i hlow hi32 fun s hs' => hout s (List.mem_append_left _ hs')
    · exact hfill i hi32 hhigh hir

/-- **A table in order is relocated entry by entry.** -/
theorem Filled.entries {n : ℕ} (hn : n ≤ 2 ^ 32) : ∀ (us : List Rela) {rs : List Rela} {o o' : KModule},
    Filled arch4T kernel info sectionbase t segInfo rs o → o.written ≤ n →
    (∀ r ∈ us, o.written ≤ r.rOffset.toNat ∧ r.rOffset.toNat + 4 ≤ n) →
    us.Pairwise (fun r s => r.rOffset.toNat + 4 ≤ s.rOffset.toNat) →
    us.foldlM (relocateEntry arch4T kernel info sectionbase t) o = .ok o' →
    Filled arch4T kernel info sectionbase t segInfo (rs ++ us) o' ∧ o'.written ≤ n := by
  intro us
  induction us with
  | nil =>
    intro rs o o' h hle _ _ hrun
    rw [List.foldlM_nil] at hrun
    rw [List.append_nil, ← Except.ok.inj hrun]
    exact ⟨h, hle⟩
  | cons r us ih =>
    intro rs o o' h _ hin hord hrun
    rw [List.foldlM_cons] at hrun
    obtain ⟨p, hp, hrun⟩ := ok_of_bind_eq_ok hrun
    rw [List.pairwise_cons] at hord
    obtain ⟨hr, hrn⟩ := hin r List.mem_cons_self
    obtain ⟨hfill, hwritten⟩ := h.entry hr (by omega) hp
    have hnext := ih hfill (by omega)
      (fun s hs => ⟨hwritten ▸ hord.1 s hs, (hin s (List.mem_cons_of_mem _ hs)).2⟩) hord.2 hrun
    rwa [List.append_assoc] at hnext

/-! ### The table out of order -/

/-- The words that two relocations patch do not meet. -/
def Rela.Apart (r s : Rela) : Prop :=
  r.rOffset.toNat + 4 ≤ s.rOffset.toNat ∨ s.rOffset.toNat + 4 ≤ r.rOffset.toNat

instance (r s : Rela) : Decidable (r.Apart s) := inferInstanceAs (Decidable (_ ∨ _))

/-- The word of an entry that the stream has passed is the word of the image, and stays it. -/
theorem Filled.passed (h : Filled arch4T kernel info sectionbase t segInfo rs o)
    (hapart : ∀ s ∈ rs, s.Apart r) (hpassed : r.rOffset.toNat + 4 ≤ o.written)
    (hgrow : Grows o o') (hend : o'.written < 2 ^ 32) :
    BitVec.ofNat 32 (Bytes.u32 o'.segment r.rOffset.toNat) = info.word t r := by
  have hle := hgrow.written
  rw [LoadInfo.word]
  congr 1
  apply Bytes.u32_congr
  intro i h1 h2
  rw [hgrow.kept h.inStep hend.le i (by omega) (Or.inl (by omega))]
  refine h.copied i (by omega) (by omega) ?_
  intro s hs
  rcases hapart s hs with hs' | hs' <;> omega

/-- A table is in order, or some entry of it is never patched, whatever is written later. -/
theorem Filled.in_order_or_unpatched {after : KModule} (hafter : after.written < 2 ^ 32) :
    ∀ (us : List Rela) {rs : List Rela} {o o' : KModule},
    Filled arch4T kernel info sectionbase t segInfo rs o →
    (rs ++ us).Pairwise Rela.Apart →
    (o.written = 0 ∨ ∃ s ∈ rs, s.rOffset.toNat + 4 = o.written) →
    (∀ r ∈ us, r.rOffset.toNat + 4 ≤ 2 ^ 32) →
    us.foldlM (relocateEntry arch4T kernel info sectionbase t) o = .ok o' → Grows o' after →
    (us.Pairwise (fun r s => r.rOffset.toNat < s.rOffset.toNat) ∧
        ∀ r ∈ us, o.written ≤ r.rOffset.toNat) ∨
      ∃ r ∈ us, BitVec.ofNat 32 (Bytes.u32 after.segment r.rOffset.toNat) = info.word t r := by
  intro us
  induction us with
  | nil =>
    intro rs o o' _ _ _ _ _ _
    exact Or.inl ⟨List.Pairwise.nil, fun r hr => absurd hr List.not_mem_nil⟩
  | cons r us ih =>
    intro rs o o' h hapart hlast hin hrun hlater
    have hgrow := (Grows.entries hrun).trans hlater
    have hrs : ∀ s ∈ rs, s.Apart r := fun s hs =>
      (List.pairwise_append.mp hapart).2.2 s hs r List.mem_cons_self
    rw [List.foldlM_cons] at hrun
    obtain ⟨p, hp, hrun⟩ := ok_of_bind_eq_ok hrun
    rcases Nat.lt_or_ge r.rOffset.toNat o.written with hlt | hge
    · -- the stream has passed the entry: it ends with a patched word apart from this one
      obtain ⟨s, hs, hslast⟩ := hlast.resolve_left (by omega)
      have hpassed : r.rOffset.toNat + 4 ≤ o.written := by
        rcases hrs s hs with hsr | hsr <;> omega
      exact Or.inr ⟨r, List.mem_cons_self, h.passed hrs hpassed hgrow hafter⟩
    · obtain ⟨hfill, hwritten⟩ := h.entry hge (hin r List.mem_cons_self) hp
      have hnext := ih hfill (by rwa [List.append_assoc])
        (Or.inr ⟨r, by simp, hwritten.symm⟩) (fun s hs => hin s (List.mem_cons_of_mem _ hs)) hrun hlater
      rcases hnext with ⟨hord, habove⟩ | ⟨s, hs, hword⟩
      · refine Or.inl ⟨List.pairwise_cons.mpr ⟨fun s hs => ?_, hord⟩, fun s hs => ?_⟩
        · have := habove s hs
          omega
        · rcases List.mem_cons.mp hs with rfl | hs
          · exact hge
          · have := habove s hs
            omega
      · exact Or.inr ⟨s, List.mem_cons_of_mem _ hs, hword⟩

/-! ### The segment -/

/-- A segment is copied: exactly the bytes of the section were written at the segment address,
the relocated words are patched, and the other bytes are those of the image. -/
structure Relocated (arch4T : Bool) (kernel : Kernel) (info : LoadInfo)
    (sectionbase : BitVec 32) (t : SegType) (table : List Rela) (before after : KModule) : Prop where
  written : after.written = (info.secInfo t.sec).sSize.toNat
  patched : ∀ r ∈ table, ∃ w, Patch arch4T kernel info sectionbase t before.segInfo r w ∧
    BitVec.ofNat 32 (Bytes.u32 (Bytes.view after.mem sectionbase) r.rOffset.toNat) = w
  copied : ∀ i < (info.secInfo t.sec).sSize.toNat,
    (∀ r ∈ table, i < r.rOffset.toNat ∨ r.rOffset.toNat + 4 ≤ i) →
      Bytes.view after.mem sectionbase i = info.bytes t i
  frame : ∀ i < 2 ^ 32, (info.secInfo t.sec).sSize.toNat ≤ i →
    Bytes.view after.mem sectionbase i = Bytes.view before.mem sectionbase i

/-- Every relocation changes the word it patches. -/
def Effective (arch4T : Bool) (kernel : Kernel) (info : LoadInfo) (sectionbase : BitVec 32)
    (t : SegType) (segInfo : SegmentInfo) (table : List Rela) : Prop :=
  ∀ r ∈ table, ∀ w, Patch arch4T kernel info sectionbase t segInfo r w → w ≠ info.word t r

/-- The entries of a table come in increasing order of `r_offset`. -/
def Increasing (table : List Rela) : Prop :=
  table.Pairwise fun r s => r.rOffset.toNat < s.rOffset.toNat

/-- At the start of a segment nothing is written yet. -/
theorem filled_startSegment (before : KModule) :
    Filled arch4T kernel info sectionbase t before.segInfo [] (startSegment before sectionbase) where
  segInfo_eq := rfl
  inStep := rfl
  patched := fun _ hr => absurd hr List.not_mem_nil
  copied := fun _ hi => absurd hi (Nat.not_lt_zero _)

/-- A segment that was started at `sectionbase` is seen from there. -/
theorem Grows.view_eq {before : KModule} (h : Grows (startSegment before sectionbase) o) :
    Bytes.view o.mem sectionbase = o.segment := by
  rw [KModule.segment, h.base]
  rfl

/-- `relocate_section` is done when no entry has stopped it and its walk ends. -/
theorem relocateSection_eq_ok_iff {o o' : KModule} :
    relocateSection arch4T kernel info o sectionbase t = .ok o' ↔
      (relocTable info t (usingRelas info t)).foldlM
          (relocateEntry arch4T kernel info sectionbase t) o = .ok o' ∧
        TableEnds info t (usingRelas info t) := by
  unfold relocateSection
  cases (relocTable info t (usingRelas info t)).foldlM
      (relocateEntry arch4T kernel info sectionbase t) o with
  | error e => exact iff_of_false nofun fun h => nomatch h.1
  | ok p =>
    show (if TableEnds info t (usingRelas info t) then Except.ok p else .error Stop.fault) = .ok o' ↔ _
    split
    next hends => exact (and_iff_left hends).symm
    next hends => exact iff_of_false nofun fun h => hends h.2

/-- `copy_segment` walks the table and appends the rest of the section. -/
theorem copySegment_eq_ok {before after : KModule}
    (h : copySegment arch4T kernel info before sectionbase t = .ok after) :
    ∃ o, (relocTable info t (usingRelas info t)).foldlM
        (relocateEntry arch4T kernel info sectionbase t) (startSegment before sectionbase) = .ok o ∧
      after = (writeSegment o (Bytes.read (info.bytes t) o.offset.toNat
        ((info.secInfo t.sec).sSize - o.offset).toNat)).2 := by
  obtain ⟨o, ho, h⟩ := ok_of_bind_eq_ok h
  obtain ⟨ho, -⟩ := relocateSection_eq_ok_iff.mp ho
  refine ⟨o, ho, ?_⟩
  have hcopy : copySegmentData info.file (o.offset + (info.secInfo t.sec).sOffset) o
      ((info.secInfo t.sec).sSize - o.offset).toNat = .ok after := h
  rw [copySegmentData_eq _ _ (BitVec.isLt _)] at hcopy
  exact (Except.ok.inj hcopy).symm

/-- The rest of the section completes the segment. -/
theorem Filled.relocated {before : KModule} {table : List Rela}
    (h : Filled arch4T kernel info sectionbase t before.segInfo table o)
    (hgrow : Grows (startSegment before sectionbase) o)
    (hle : o.written ≤ (info.secInfo t.sec).sSize.toNat) :
    Relocated arch4T kernel info sectionbase t table before
      (writeSegment o (Bytes.read (info.bytes t) o.offset.toNat
        ((info.secInfo t.sec).sSize - o.offset).toNat)).2 := by
  have hsize := (info.secInfo t.sec).sSize.isLt
  have hoff := h.inStep.toNat_offset (lt_of_le_of_lt hle hsize)
  have hlen : ((info.secInfo t.sec).sSize - o.offset).toNat
      = (info.secInfo t.sec).sSize.toNat - o.written := by
    rw [BitVec.toNat_sub_of_le (by rw [BitVec.le_def, hoff]; exact hle), hoff]
  rw [hoff, hlen]
  generalize hrest : Bytes.read (info.bytes t) o.written
    ((info.secInfo t.sec).sSize.toNat - o.written) = rest
  have hrestlen : rest.length = (info.secInfo t.sec).sSize.toNat - o.written := by
    rw [← hrest, Bytes.length_read]
  have htail := Grows.writeSegment o rest
  have hall := hgrow.trans htail
  have hwritten : (writeSegment o rest).2.written = (info.secInfo t.sec).sSize.toNat := by
    rw [writeSegment_written, hrestlen]
    omega
  have hview := hall.view_eq
  -- the rest of the section is written behind what the entries left
  have hkept : ∀ i < o.written, (writeSegment o rest).2.segment i = o.segment i := fun i hi =>
    htail.kept h.inStep (by omega) i (by omega) (Or.inl hi)
  refine ⟨hwritten, ?_, ?_, ?_⟩
  · intro r hr
    obtain ⟨hlow, w, hw, hword⟩ := h.patched r hr
    refine ⟨w, hw, ?_⟩
    rw [hview, Bytes.u32_congr fun i _ hi => hkept i (by omega), hword, BitVec.ofNat_toNat,
      BitVec.setWidth_eq]
  · intro i hi hout
    rw [hview]
    rcases Nat.lt_or_ge i o.written with hlow | hhigh
    · rw [hkept i hlow]
      exact h.copied i hlow (by omega) hout
    · obtain ⟨j, rfl⟩ := Nat.exists_eq_add_of_le hhigh
      have hj : j < rest.length := by omega
      rw [writeSegment_seg h.inStep (by omega) (by omega), Bytes.write_add _ _ hj]
      simp [← hrest, Bytes.read]
  · intro i hi32 hi
    rw [hview, hall.kept rfl (by omega) i hi32 (Or.inr (by omega))]
    rfl

/-- A table in increasing order is relocated correctly. -/
theorem relocated_of_increasing {before after : KModule}
    (hin : ∀ r ∈ relocTable info t (usingRelas info t),
      r.rOffset.toNat + 4 ≤ (info.secInfo t.sec).sSize.toNat)
    (hapart : (relocTable info t (usingRelas info t)).Pairwise Rela.Apart)
    (hord : Increasing (relocTable info t (usingRelas info t)))
    (hok : copySegment arch4T kernel info before sectionbase t = .ok after) :
    Relocated arch4T kernel info sectionbase t (relocTable info t (usingRelas info t))
      before after := by
  obtain ⟨o, ho, rfl⟩ := copySegment_eq_ok hok
  have hsize := (info.secInfo t.sec).sSize.isLt
  have hord4 : (relocTable info t (usingRelas info t)).Pairwise
      (fun r s => r.rOffset.toNat + 4 ≤ s.rOffset.toNat) := by
    refine (List.pairwise_and_iff.mpr ⟨hapart, hord⟩).imp ?_
    intro r s hrs
    rcases hrs with ⟨hrs | hrs, hlt⟩ <;> omega
  obtain ⟨hfill, hle⟩ := Filled.entries hsize.le _ (filled_startSegment before) (Nat.zero_le _)
    (fun r hr => ⟨Nat.zero_le _, hin r hr⟩) hord4 ho
  rw [List.nil_append] at hfill
  exact hfill.relocated (Grows.entries ho) hle

/-- A table that is relocated correctly is in increasing order, when each patch changes its
word: the word of an entry that comes too late is left alone. -/
theorem increasing_of_relocated {before after : KModule}
    (hin : ∀ r ∈ relocTable info t (usingRelas info t),
      r.rOffset.toNat + 4 ≤ (info.secInfo t.sec).sSize.toNat)
    (hapart : (relocTable info t (usingRelas info t)).Pairwise Rela.Apart)
    (heff : Effective arch4T kernel info sectionbase t before.segInfo
      (relocTable info t (usingRelas info t)))
    (hok : copySegment arch4T kernel info before sectionbase t = .ok after)
    (h : Relocated arch4T kernel info sectionbase t (relocTable info t (usingRelas info t))
      before after) :
    Increasing (relocTable info t (usingRelas info t)) := by
  obtain ⟨o, ho, hafter⟩ := copySegment_eq_ok hok
  have hsize := (info.secInfo t.sec).sSize.isLt
  have htail : Grows o after := hafter ▸ Grows.writeSegment o _
  have hend : after.written < 2 ^ 32 := h.written ▸ hsize
  have hview := ((Grows.entries ho).trans htail).view_eq
  have hcases := Filled.in_order_or_unpatched hend _ (filled_startSegment before)
    (by rwa [List.nil_append]) (Or.inl rfl) (fun r hr => (hin r hr).trans hsize.le) ho htail
  rcases hcases with ⟨hord, -⟩ | ⟨r, hr, hword⟩
  · exact hord
  · obtain ⟨w, hw, hpatched⟩ := h.patched r hr
    rw [hview, hword] at hpatched
    exact absurd hpatched.symm (heff r hr w hw)

/-- **`copy_segment` relocates a segment correctly when the entry size it picks reads the table's
own entries and these come in increasing order of `r_offset`**; and when each patch changes its
word, in no other order. -/
theorem copy_segment_relocated (arch4T : Bool) (kernel : Kernel) (info : LoadInfo)
    (sectionbase : BitVec 32) (t : SegType) (relas : Bool) (before after : KModule)
    (hin : ∀ r ∈ relocTable info t relas, r.rOffset.toNat + 4 ≤ (info.secInfo t.sec).sSize.toNat)
    (hapart : (relocTable info t relas).Pairwise Rela.Apart)
    (hread : relocTable info t (usingRelas info t) = relocTable info t relas)
    (hok : copySegment arch4T kernel info before sectionbase t = .ok after) :
    (Increasing (relocTable info t relas) →
        Relocated arch4T kernel info sectionbase t (relocTable info t relas) before after) ∧
      (Effective arch4T kernel info sectionbase t before.segInfo (relocTable info t relas) →
        Relocated arch4T kernel info sectionbase t (relocTable info t relas) before after →
        Increasing (relocTable info t relas)) := by
  rw [← hread] at hin hapart ⊢
  exact ⟨fun hord => relocated_of_increasing hin hapart hord hok,
    fun heff h => increasing_of_relocated hin hapart heff hok h⟩

/-- An image with a text section of three words, two `R_ARM_ABS32` relocations against the
section's own symbol at the given offsets, and the symbol table. -/
def twoRelocs (first second : UInt8) : LoadInfo where
  input a :=
    ([1, 0, 0, 0, 2, 0, 0, 0, 3, 0, 0, 0] ++
      [first, 0, 0, 0, 2, 1, 0, 0, second, 0, 0, 0, 2, 1, 0, 0] ++
      List.replicate 16 0 ++ [0, 0, 0, 0, 0, 0, 0, 0, 0, 0, 0, 0, 3, 0, 1, 0]).getD a.toNat 0
  inputAddr := 0
  secInfo i :=
    match i with
    | 0 => ⟨0, 12, 12, 16, 0, 1⟩
    | 3 => ⟨28, 32, 0, 0, 0, 0⟩
    | 4 => ⟨60, 1, 0, 0, 0, 0⟩
    | _ => ⟨0, 0, 0, 0, 0, 0⟩

/-- A kernel without symbols, with a NUL at address 0 and behind the buffers. -/
def noKernel : Kernel := ⟨[], fun _ => [], fun _ => [], fun _ => [], fun _ _ => []⟩

/-- A module whose text segment is at `0x8000`, before it is loaded. -/
def emptyModule : KModule where
  base := 0
  offset := 0
  segInfo := ⟨⟨1, 0x8000⟩, ⟨0, 0⟩, ⟨0, 0⟩, ⟨0, 0⟩⟩
  mem _ := 0
  written := 0

theorem eq_ok_of_toOption {ε α : Type} {x : Except ε α} {a : α} (h : x.toOption = some a) :
    x = .ok a := by
  cases x with
  | error e => cases h
  | ok b => rw [Option.some.inj h]

/-- Relocations at 0 and at 4 are in order: the segment is the image with both words patched. -/
theorem copy_segment_relocated_sorted :
    ∃ after, copySegment false noKernel (twoRelocs 0 4) emptyModule 0x8000 .text = .ok after ∧
      Relocated false noKernel (twoRelocs 0 4) 0x8000 .text (relocTable (twoRelocs 0 4) .text false)
        emptyModule after := by
  have hrun : (copySegment false noKernel (twoRelocs 0 4) emptyModule 0x8000 .text).toOption.isSome := by
    decide +kernel
  obtain ⟨after, hafter⟩ := Option.isSome_iff_exists.mp hrun
  have hok := eq_ok_of_toOption hafter
  have hord : Increasing (relocTable (twoRelocs 0 4) .text false) := by
    have htable : relocTable (twoRelocs 0 4) .text false
        = [⟨0, 0x102, (.text, 0)⟩, ⟨4, 0x102, (.text, 1)⟩] := by decide +kernel
    rw [htable]
    simp [Increasing]
  refine ⟨after, hok, (copy_segment_relocated false noKernel (twoRelocs 0 4) 0x8000 .text false emptyModule
    after ?_ ?_ ?_ hok).1 hord⟩
  · decide +kernel
  · decide +kernel
  · decide +kernel

/-- Relocations at 4 and at 0: the word at 0 is never patched, and the third word is
overwritten. -/
theorem copy_segment_unsorted :
    ¬ ∀ (arch4T : Bool) (kernel : Kernel) (info : LoadInfo) (sectionbase : BitVec 32)
      (t : SegType) (relas : Bool) (before after : KModule),
      (∀ r ∈ relocTable info t relas, r.rOffset.toNat + 4 ≤ (info.secInfo t.sec).sSize.toNat) →
      (relocTable info t relas).Pairwise Rela.Apart →
      copySegment arch4T kernel info before sectionbase t = .ok after →
      Relocated arch4T kernel info sectionbase t (relocTable info t relas) before after := by
  intro h
  have hrun : (copySegment false noKernel (twoRelocs 4 0) emptyModule 0x8000 .text).toOption.any
      (fun o => Bytes.view o.mem 0x8000 8 == 1) = true := by
    decide +kernel
  obtain ⟨after, hafter, hbyte⟩ := (Option.any_eq_true _ _).mp hrun
  have hrel := h false noKernel (twoRelocs 4 0) 0x8000 .text false emptyModule after
    (by decide +kernel) (by decide +kernel) (eq_ok_of_toOption hafter)
  -- the byte at 8 belongs to no relocation, and is that of the word patched for 0
  have hcopied := hrel.copied 8 (by decide +kernel) (by decide +kernel)
  rw [beq_iff_eq.mp hbyte] at hcopied
  exact absurd hcopied (by decide +kernel)

end YakOS.Module
