import YakOS.Mm.Owners
import YakOS.Mm.Room
import YakOS.Module.Alloc
import YakOS.Module.Loaded

/-!
# The segments of a module in the heap

`set_seg_info` asks `kmalloc` for the segments of a module, one after the other.  In a heap as the runs of
`kmalloc` and `kfree` leave it, the segments whose sizes `kmalloc` reserves enough for lie apart from each
other and from every other live block, so that loading a module leaves these alone.

## Main definitions

* `allocSegments` — the calls of `kmalloc`, and what they return.
* `Allocated` — the blocks lie apart.
* `LoadCall.inHeap` — a module is loaded with the memory of a heap.

## Main results

* `kmalloc_holds` — the bytes that `kmalloc` was asked for lie in the extent of its block.
* `allocSegments_allocated` — the calls, one after the other.
* `module_loaded_in_heap` — a module is loaded, and no live block is written.
-/

namespace YakOS

/-- The bytes that `kmalloc` was asked for lie in the extent of the block, and below the end of the address
space. -/
theorem kmalloc_holds {R : ℤ → Prop} {h h' : Heap} {live : List KBlock} {pages : List ℤ}
    {frags : ℤ → List Frag} {size p : ℕ}
    (hinv : HeapInv R h (larges live) (smalls live) pages frags) (hr : kmalloc h size = (some p, h'))
    (hsize : size < 2 ^ 32) (hroom : RoomFor size) :
    ∀ x, p ≤ x → x < p + size → (blockAt h' size p).Has h'.zone x := by
  intro x hx hlt
  have hend : p + size ≤ extentEnd h' size p := by
    have hiff := kmalloc_end_iff (h := h) (p := p) hsize (by rw [hr])
    rw [hr] at hiff
    exact hiff.mpr hroom
  obtain ⟨hnone, -⟩ | ⟨hsmall, h₀, ha⟩ | ⟨hlarge, q, z', ha, hp, rfl⟩ := kmalloc_cases hr
  · cases hnone
  · unfold extentEnd at hend
    rw [if_pos hsmall] at hend
    unfold blockAt
    rw [if_pos hsmall]
    exact ⟨(Nat.sub_le ..).trans hx, hlt.trans_le hend⟩
  · obtain rfl := Option.some.inj hp
    obtain ⟨hinv', -, hpriv⟩ := hinv.allocPages ha
    have hvirt := hinv'.virtToPage_large List.mem_cons_self
    unfold extentEnd at hend
    rw [if_neg hlarge] at hend
    generalize getOrder (kmallocSize size) = k at *
    unfold blockAt
    simp only at hvirt
    rw [if_neg hlarge]
    simp only [hvirt, Option.getD_some, hpriv]
    exact ⟨hx, hlt.trans_le hend⟩

/-- A byte of a live block lies below the end of the address space. -/
theorem KmInv.has_lt {R : ℤ → Prop} {z : Zone} {s : KmState} (h : KmInv R z s) {b : KBlock}
    (hb : b ∈ s.live) {x : ℕ} (hx : b.Has s.heap.zone x) : x < 2 ^ 32 := by
  obtain ⟨-, pages, frags, hinv⟩ := h
  have hpos : 0 < liveCover s.heap.zone s.live x :=
    List.countP_pos_iff.mpr ⟨b, hb, decide_eq_true hx⟩
  have hcount := hinv.accounted x
  have hfits := hinv.placed.fits
  split at hcount
  · next hin =>
    have hlast := hin.2
    unfold Zone.pageOf pageSize at hlast
    unfold pageSize at hfits
    omega
  · omega

namespace Module

open Bytes (chars)

/-- The calls of `kmalloc` for segments of the sizes `size`, in their order: the blocks, or `NULL`, and the
heap behind the calls. -/
def allocSegments (size : Segment → ℕ) : List Segment → KmState → (Segment → BitVec 32) × KmState
  | [], s => (fun _ => 0, s)
  | k :: ks, s =>
    if size k = 0 then allocSegments size ks s
    else
      let r := kmalloc s.heap (size k)
      let rest := allocSegments size ks
        { heap := r.2, live := r.1.toList.map (YakOS.blockAt r.2 (size k)) ++ s.live }
      (Function.update rest.1 k (.ofNat 32 (r.1.getD 0)), rest.2)

/-- A byte that was asked for, for a segment. -/
def InSegment (size : Segment → ℕ) (f : Segment → BitVec 32) (k : Segment) (x : ℕ) : Prop :=
  (f k).toNat ≤ x ∧ x < (f k).toNat + size k

/-- The segments `ks` lie in the address space, apart from each other and from the live blocks of `s`. -/
structure Allocated (z : Zone) (size : Segment → ℕ) (s : KmState) (ks : List Segment)
    (f : Segment → BitVec 32) : Prop where
  fits : ∀ k ∈ ks, ∀ x, InSegment size f k x → x < 2 ^ 32
  unused : ∀ k ∈ ks, ∀ x, InSegment size f k x → ∀ b ∈ s.live, ¬ b.Has z x
  apart : ∀ k ∈ ks, ∀ k' ∈ ks, k ≠ k' → ∀ x, InSegment size f k x → ¬ InSegment size f k' x

variable {R : ℤ → Prop} {z : Zone} {s : KmState} {size : Segment → ℕ} {k : Segment} {ks : List Segment}

/-- One more segment. -/
theorem Allocated.cons {f : Segment → BitVec 32} (h : Allocated z size s ks f)
    (hfits : ∀ x, InSegment size f k x → x < 2 ^ 32)
    (hunused : ∀ x, InSegment size f k x → ∀ b ∈ s.live, ¬ b.Has z x)
    (hapart : ∀ k' ∈ ks, ∀ x, InSegment size f k x → ¬ InSegment size f k' x) :
    Allocated z size s (k :: ks) f := by
  refine ⟨?_, ?_, ?_⟩
  · rw [List.forall_mem_cons]
    exact ⟨hfits, h.fits⟩
  · rw [List.forall_mem_cons]
    exact ⟨hunused, h.unused⟩
  · intro j hj j' hj' hne x hx hx'
    rcases List.mem_cons.mp hj with rfl | hjs
    · rcases List.mem_cons.mp hj' with rfl | hjs'
      · exact hne rfl
      · exact hapart j' hjs' x hx hx'
    · rcases List.mem_cons.mp hj' with rfl | hjs'
      · exact hapart j hjs x hx' hx
      · exact h.apart j hjs j' hjs' hne x hx hx'

/-- An earlier state has fewer blocks, and other segments do not matter. -/
theorem Allocated.earlier {s' : KmState} {f f' : Segment → BitVec 32} (h : Allocated z size s' ks f)
    (hlive : ∀ b ∈ s.live, b ∈ s'.live) (hf : ∀ k ∈ ks, f' k = f k) : Allocated z size s ks f' := by
  have hin : ∀ k ∈ ks, ∀ x, InSegment size f' k x → InSegment size f k x := by
    intro k hk x hx
    unfold InSegment at *
    rwa [hf k hk] at hx
  exact ⟨fun k hk x hx => h.fits k hk x (hin k hk x hx),
    fun k hk x hx b hb => h.unused k hk x (hin k hk x hx) b (hlive b hb),
    fun k hk k' hk' hne x hx hx' => h.apart k hk k' hk' hne x (hin k hk x hx) (hin k' hk' x hx')⟩

/-- **The calls of `kmalloc`, one after the other.** -/
theorem allocSegments_allocated (hinv : KmInv R z s) (hks : ks.Nodup)
    (hsize : ∀ k ∈ ks, size k < 2 ^ 32)
    (hroom : ∀ k ∈ ks, size k ≠ 0 → RoomFor (size k) ∧ (allocSegments size ks s).1 k ≠ 0) :
    Allocated z size s ks (allocSegments size ks s).1 := by
  induction ks generalizing s with
  | nil => exact ⟨fun k hk => absurd hk List.not_mem_nil, fun k hk => absurd hk List.not_mem_nil,
      fun k hk => absurd hk List.not_mem_nil⟩
  | cons k ks ih =>
    rw [List.nodup_cons] at hks
    rw [List.forall_mem_cons] at hsize hroom
    by_cases hzero : size k = 0
    · have heq : allocSegments size (k :: ks) s = allocSegments size ks s := by
        rw [allocSegments, if_pos hzero]
      have hempty : ∀ x, ¬ InSegment size (allocSegments size (k :: ks) s).1 k x := by
        unfold InSegment
        omega
      rw [heq] at hroom hempty ⊢
      exact (ih hinv hks.2 hsize.2 hroom.2).cons (fun x hx => absurd hx (hempty x))
        (fun x hx => absurd hx (hempty x)) fun _ _ x hx => absurd hx (hempty x)
    · obtain ⟨r, h', hr⟩ : ∃ r h', kmalloc s.heap (size k) = (r, h') := ⟨_, _, rfl⟩
      obtain ⟨s', hs'⟩ : ∃ s' : KmState,
        s' = { heap := h', live := r.toList.map (YakOS.blockAt h' (size k)) ++ s.live } := ⟨_, rfl⟩
      have hstep : kmStep s (.kmalloc (size k)) = some s' := by
        rw [kmStep, hr, hs']
      have hinv' : KmInv R z s' := hinv.kmalloc hstep
      have heq : (allocSegments size (k :: ks) s).1
          = Function.update (allocSegments size ks s').1 k (.ofNat 32 (r.getD 0)) := by
        rw [allocSegments, if_neg hzero, hr, hs']
      rw [heq] at hroom ⊢
      have hother : ∀ k' ∈ ks, Function.update (allocSegments size ks s').1 k (.ofNat 32 (r.getD 0)) k'
          = (allocSegments size ks s').1 k' := by
        intro k' hk'
        refine Function.update_of_ne ?_ ..
        rintro rfl
        exact hks.1 hk'
      have hrest := ih hinv' hks.2 hsize.2 fun k' hk' hne => hother k' hk' ▸ hroom.2 k' hk' hne
      obtain ⟨hfor, hgot⟩ := hroom.1 hzero
      rw [Function.update_self] at hgot
      cases r with
      | none => exact absurd rfl hgot
      | some p =>
        obtain ⟨-, pages, frags, hheap⟩ := hinv
        have hmem : YakOS.blockAt h' (size k) p ∈ s'.live := by
          rw [hs']
          exact List.mem_append_left _ (by simp)
        have hhas : ∀ x, p ≤ x → x < p + size k → (YakOS.blockAt h' (size k) p).Has s'.heap.zone x := by
          rw [hs']
          exact kmalloc_holds hheap hr hsize.1 hfor
        have hp : p < 2 ^ 32 := hinv'.has_lt hmem (hhas p le_rfl (by omega))
        have hbytes : ∀ x, InSegment size
            (Function.update (allocSegments size ks s').1 k (.ofNat 32 ((some p).getD 0))) k x →
              (YakOS.blockAt h' (size k) p).Has s'.heap.zone x := by
          rintro x ⟨hx, hlt⟩
          rw [Function.update_self, Option.getD_some, Bytes.toNat_ofNat_of_lt hp] at hx hlt
          exact hhas x hx hlt
        have happart : ∀ b ∈ s.live, ∀ x, (YakOS.blockAt h' (size k) p).Has s'.heap.zone x →
            ¬ b.Has s'.heap.zone x := by
          have hsound := hinv'.sound.apart
          rw [hs'] at hsound ⊢
          exact (List.pairwise_cons.mp hsound).1
        refine (hrest.earlier (fun b hb => ?_) hother).cons (fun x hx => hinv'.has_lt hmem (hbytes x hx))
          (fun x hx b hb hbx => ?_) fun k' hk' x hx hx' => ?_
        · rw [hs']
          exact List.mem_append_right _ hb
        · exact happart b hb x (hbytes x hx) ((hinv'.1.has_iff b x).mpr hbx)
        · unfold InSegment at hx'
          rw [hother k' hk'] at hx'
          exact hrest.unused k' hk' x hx' _ hmem ((hinv'.1.has_iff _ x).mp (hbytes x hx))

/-- A byte that was not asked for a segment lies outside it. -/
theorem Allocated.outside {f : Segment → BitVec 32} (h : Allocated z size s ks f) (hk : k ∈ ks) {x : ℕ}
    (hlt : x < 2 ^ 32) (hx : ¬ InSegment size f k x) : size k ≤ (.ofNat 32 x - f k).toNat := by
  rcases Nat.eq_zero_or_pos (size k) with hzero | hpos
  · omega
  · have hlast := h.fits k hk ((f k).toNat + size k - 1) ⟨by omega, by omega⟩
    unfold InSegment at hx
    rw [BitVec.toNat_sub, Bytes.toNat_ofNat_of_lt hlt]
    omega

/-! ### Loading a module -/

/-- The order in which `set_seg_info` asks for the segments. -/
def segmentOrder : List Segment := [.bss, .text, .rodata, .data]

theorem mem_segmentOrder (k : Segment) : k ∈ segmentOrder := by cases k <;> decide

namespace LoadCall

/-- The sizes of the segments of an image. -/
def sizes (input : BitVec 32 → UInt8) (inputAddr : BitVec 32) (k : Segment) : ℕ :=
  ((LoadInfo.recorded input inputAddr).secInfo k.sec).sSize.toNat

/-- A call of the loader that has its segments from a heap. -/
def inHeap (arch4T : Bool) (kernel : Kernel) (s : KmState) (input : BitVec 32 → UInt8)
    (inputAddr : BitVec 32) (mem : BitVec 32 → UInt8) : LoadCall :=
  fresh arch4T kernel (allocSegments (sizes input inputAddr) segmentOrder s).1 input inputAddr mem

variable {arch4T : Bool} {kernel : Kernel} {s : KmState} {input : BitVec 32 → UInt8}
  {inputAddr : BitVec 32} {mem : BitVec 32 → UInt8} {z : Zone} {k : Segment}

/-- A segment that is not empty lies where `kmalloc` has put it. -/
theorem address_inHeap (hk : sizes input inputAddr k ≠ 0)
    (hgot : (allocSegments (sizes input inputAddr) segmentOrder s).1 k ≠ 0) :
    ((inHeap arch4T kernel s input inputAddr mem).seg.get k).address
      = (allocSegments (sizes input inputAddr) segmentOrder s).1 k := by
  have haddr : ((inHeap arch4T kernel s input inputAddr mem).seg.get k).address
      = allocSegment 0 ((LoadInfo.recorded input inputAddr).secInfo k.sec).sSize
          ((allocSegments (sizes input inputAddr) segmentOrder s).1 k) := by
    cases k <;> rfl
  have hsize : ((LoadInfo.recorded input inputAddr).secInfo k.sec).sSize ≠ 0 := by
    intro hzero
    exact hk (congrArg BitVec.toNat hzero)
  rw [haddr, allocSegment, if_pos hsize, if_neg hgot]

/-- A byte that was not asked for a segment lies outside it, where the loader takes it to be. -/
theorem outside_inHeap
    (h : Allocated z (sizes input inputAddr) s segmentOrder
      (allocSegments (sizes input inputAddr) segmentOrder s).1)
    (hgot : ∀ k, sizes input inputAddr k ≠ 0 →
      (allocSegments (sizes input inputAddr) segmentOrder s).1 k ≠ 0) {x : ℕ} (hlt : x < 2 ^ 32)
    (hx : ¬ InSegment (sizes input inputAddr) (allocSegments (sizes input inputAddr) segmentOrder s).1 k x) :
    Outside (inHeap arch4T kernel s input inputAddr mem).info
      (inHeap arch4T kernel s input inputAddr mem).seg k (.ofNat 32 x) := by
  by_cases hk : sizes input inputAddr k = 0
  · exact (le_of_eq hk).trans (Nat.zero_le _)
  · unfold Outside
    rw [address_inHeap hk (hgot k hk)]
    exact h.outside (mem_segmentOrder k) hlt hx

theorem separate_inHeap
    (h : Allocated z (sizes input inputAddr) s segmentOrder
      (allocSegments (sizes input inputAddr) segmentOrder s).1)
    (hgot : ∀ k, sizes input inputAddr k ≠ 0 →
      (allocSegments (sizes input inputAddr) segmentOrder s).1 k ≠ 0) :
    Separate (inHeap arch4T kernel s input inputAddr mem).info
      (inHeap arch4T kernel s input inputAddr mem).seg := by
  intro k k' hne i hi
  have hi' : i < sizes input inputAddr k := hi
  have hin : InSegment (sizes input inputAddr) (allocSegments (sizes input inputAddr) segmentOrder s).1 k
      (((allocSegments (sizes input inputAddr) segmentOrder s).1 k).toNat + i) :=
    ⟨Nat.le_add_right .., Nat.add_lt_add_left hi' _⟩
  have hlt := h.fits k (mem_segmentOrder k) _ hin
  have hnot := h.apart k (mem_segmentOrder k) k' (mem_segmentOrder k') hne _ hin
  have hout : Outside (inHeap arch4T kernel s input inputAddr mem).info
      (inHeap arch4T kernel s input inputAddr mem).seg k'
      (.ofNat 32 (((allocSegments (sizes input inputAddr) segmentOrder s).1 k).toNat + i)) :=
    outside_inHeap h hgot hlt hnot
  rw [BitVec.ofNat_add, BitVec.ofNat_toNat, BitVec.setWidth_eq] at hout
  rwa [address_inHeap (by omega) (hgot k (by omega))]

end LoadCall

/-- **A module is loaded into the heap**: in every heap that a run of `kmalloc` and `kfree` leaves, when the
sizes of the segments are such that `kmalloc` reserves enough for them and it has memory, the loader returns
a module exactly if its headers are accepted, there is a word for each relocation and `mod_entry` is found;
then the module is in memory, and no byte of another live block is written. -/
theorem module_loaded_in_heap {pages : ℤ → Page} {addr size : ℕ} {z : Zone} (cells : ℕ → ℤ)
    (hz : pageAllocInit pages addr size = some z) (hfit : addr + size ≤ 2 ^ 32) (hpage : HasPage addr size)
    (hstale : ∀ i : ℕ, z.managedPages ≤ i → i < z.spannedPages → ¬ (pages i).LooksFree)
    (hflag : ∀ i : ℕ, z.managedPages ≤ i → i < z.spannedPages → pageSlob (pages i) = false)
    {es : List HeapEvent} {s : KmState}
    (hes : Run.Guarded heapStep (fun s e => e.Recognised s) (kmallocInit z cells) es)
    (hs : Run.exec heapStep (kmallocInit z cells) es = some s)
    (arch4T : Bool) (kernel : Kernel) (input : BitVec 32 → UInt8) (inputAddr : BitVec 32)
    (mem : BitVec 32 → UInt8) {c : LoadCall}
    (hc : c = LoadCall.inHeap arch4T kernel s input inputAddr mem) (hord : ∀ t, InOrder c.info t)
    (hroom : ∀ k, LoadCall.sizes input inputAddr k ≠ 0 →
      RoomFor (LoadCall.sizes input inputAddr k) ∧ c.kmalloc k ≠ 0) :
    (∃ m e, c.run = .ok (m, e) ∧ c.entry = some e ∧ Loaded arch4T kernel c.info c.seg mem m.mem ∧
        ∀ b ∈ s.live, ∀ x, b.Has s.heap.zone x → m.mem (.ofNat 32 x) = mem (.ofNat 32 x)) ↔
      HeadersOk input inputAddr ∧ (∀ t, Relocatable arch4T kernel c.info (c.address t) t c.seg) ∧
        ∃ e, c.entry = some e ∧ e ≠ 0 := by
  subst hc
  have hinv : KmInv z.Within z s := (kmInv_runs cells hz hfit hpage hstale hflag hes).exec hs
  have halloc : Allocated z (LoadCall.sizes input inputAddr) s segmentOrder
      (allocSegments (LoadCall.sizes input inputAddr) segmentOrder s).1 :=
    allocSegments_allocated hinv (by decide) (fun k _ => BitVec.isLt _)
      fun k _ hk => hroom k hk
  have hgot := fun k hk => (hroom k hk).2
  have hsep : Separate (LoadCall.inHeap arch4T kernel s input inputAddr mem).info
      (LoadCall.inHeap arch4T kernel s input inputAddr mem).seg := LoadCall.separate_inHeap halloc hgot
  constructor
  · rintro ⟨m, e, hrun, -⟩
    exact (LoadCall.run_ok_iff _).mp ⟨_, hrun⟩
  · intro hok
    obtain ⟨⟨m, e⟩, hrun⟩ :=
      (LoadCall.run_ok_iff (LoadCall.inHeap arch4T kernel s input inputAddr mem)).mpr hok
    obtain ⟨hentry, hloaded⟩ := LoadCall.run_loaded hord hsep hrun
    refine ⟨m, e, hrun, hentry, hloaded, fun b hb x hx => hloaded.frame _ fun k => ?_⟩
    refine LoadCall.outside_inHeap halloc hgot (hinv.has_lt hb hx) ?_
    intro hin
    exact halloc.unused k (mem_segmentOrder k) x hin b hb ((hinv.1.has_iff b x).mp hx)

/-- An image with two words of text, the first of which refers to the symbol `msg` of `.rodata`. -/
def twoWordImage : BitVec 32 → UInt8 :=
  memoryAt 0x30100000 <| imageBytes
    [⟨0, 0, 0⟩, ⟨1, 348, 8⟩, ⟨7, 356, 8⟩, ⟨17, 364, 8⟩, ⟨25, 372, 48⟩, ⟨33, 292, 55⟩] 5
    (0 :: chars ".text" ++ 0 :: chars ".rel.text" ++ 0 :: chars ".rodata" ++ 0 :: chars ".symtab" ++
      0 :: chars ".strtab" ++ 0 :: chars "msg" ++ 0 :: chars "mod_entry" ++ [0, 0] ++
      List.replicate 8 0 ++ relaBytes 0 0x102 ++ List.replicate 8 0 ++
      Elf32Sym.bytes ⟨0, 0, 0⟩ ++ Elf32Sym.bytes ⟨41, 4, 3⟩ ++ Elf32Sym.bytes ⟨45, 0, 1⟩)

/-- The sections of `twoWordImage`. -/
def twoWordRecord : LoadInfo :=
  ⟨twoWordImage, 0x30100000, fun k => [⟨348, 8, 356, 8, 0, 1⟩, ⟨364, 8, 0, 0, 0, 3⟩, ⟨0, 0, 0, 0, 0, 0⟩,
    ⟨372, 48, 0, 0, 0, 0⟩, ⟨292, 55, 0, 0, 0, 0⟩, ⟨0, 0, 0, 0, 0, 0⟩].getD k default⟩

theorem recorded_twoWordImage : LoadInfo.recorded twoWordImage 0x30100000 = twoWordRecord :=
  recorded_eq (by decide +kernel)

theorem inOrder_twoWordRecord (t : SegType) : InOrder twoWordRecord t := by
  cases t with
  | text =>
    have htable : relocTable twoWordRecord .text (usingRelas twoWordRecord .text)
        = [⟨0, 0x102, .text, 0⟩] := by
      decide +kernel
    refine ⟨by decide +kernel, by decide +kernel, ?_⟩
    rw [htable]
    exact List.pairwise_singleton ..
  | rodata => exact InOrder.of_nil (by decide +kernel)
  | data => exact InOrder.of_nil (by decide +kernel)

/-- It is loaded into a heap of five pages with one live block. -/
theorem module_loaded_in_heap_five_pages : ∃ z s c m e,
    pageAllocInit blankMem 4096 (5 * 4096) = some z ∧
    Run.exec heapStep (kmallocInit z fun _ => 0) [.call (.kmalloc 100), .store 8200 7] = some s ∧
    c = LoadCall.inHeap false printkKernel s twoWordImage 0x30100000 (fun _ => 0) ∧
    c.run = .ok (m, e) ∧ c.entry = some e ∧
    Loaded false printkKernel c.info c.seg (fun _ => 0) m.mem ∧
    ∀ b ∈ s.live, ∀ x, b.Has s.heap.zone x → m.mem (.ofNat 32 x) = 0 := by
  obtain ⟨z, hz⟩ := Option.isSome_iff_exists.mp
    (by decide : (pageAllocInit blankMem 4096 (5 * 4096)).isSome)
  have hall : ((pageAllocInit blankMem 4096 (5 * 4096)).all fun z =>
      (Run.exec heapStep (kmallocInit z fun _ => 0) [.call (.kmalloc 100), .store 8200 7]).any fun s =>
        (LoadCall.inHeap false printkKernel s twoWordImage 0x30100000 (fun _ => 0)).run.toOption.isSome &&
          segmentOrder.all fun k => decide (LoadCall.sizes twoWordImage 0x30100000 k ≠ 0 →
            (allocSegments (LoadCall.sizes twoWordImage 0x30100000) segmentOrder s).1 k ≠ 0)) = true := by
    decide +kernel
  rw [hz, Option.all_some] at hall
  obtain ⟨s, hs, hboth⟩ := (Option.any_eq_true _ _).mp hall
  obtain ⟨hsome, hgot⟩ := (Bool.and_eq_true _ _).mp hboth
  obtain ⟨res, hres⟩ := Option.isSome_iff_exists.mp hsome
  have hroom : ∀ k, LoadCall.sizes twoWordImage 0x30100000 k ≠ 0 →
      RoomFor (LoadCall.sizes twoWordImage 0x30100000 k) := by
    intro k hk
    unfold LoadCall.sizes at *
    rw [recorded_twoWordImage] at *
    unfold RoomFor
    cases k <;> decide
  have hguard : Run.Guarded heapStep (fun s e => e.Recognised s) (kmallocInit z fun _ => 0)
      [.call (.kmalloc 100), .store 8200 7] := ⟨trivial, fun _ _ => ⟨trivial, fun _ _ => trivial⟩⟩
  have hord : ∀ t, InOrder
      (LoadCall.inHeap false printkKernel s twoWordImage 0x30100000 (fun _ => 0)).info t := by
    intro t
    have hinfo : (LoadCall.inHeap false printkKernel s twoWordImage 0x30100000 (fun _ => 0)).info
        = twoWordRecord := recorded_twoWordImage
    rw [hinfo]
    exact inOrder_twoWordRecord t
  obtain ⟨m, e, hrun, hentry, hloaded, hlive⟩ := (module_loaded_in_heap (fun _ => 0) hz (by decide)
    (by unfold HasPage; decide) (fun i _ _ => blankMem_not_looksFree i) (fun i _ _ => Bitops.testBit_zero _)
    hguard hs false printkKernel twoWordImage 0x30100000 (fun _ => 0) rfl hord fun k hk => ⟨hroom k hk,
      of_decide_eq_true (List.all_eq_true.mp hgot k (mem_segmentOrder k)) hk⟩).mpr
    ((LoadCall.run_ok_iff _).mp ⟨res, eq_ok_of_toOption hres⟩)
  exact ⟨z, s, _, m, e, hz, hs, rfl, hrun, hentry, hloaded, hlive⟩

end Module

end YakOS
