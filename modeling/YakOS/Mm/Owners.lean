import YakOS.Mm.Extents

/-!
# The heap in use

Runs of `kmalloc` and `kfree` in which the blocks are used: between two calls an owner
stores into its block, behind the header, and the memory around the descriptors changes
as it likes.  The allocator reads neither the bytes of a block nor, as a rule, that
memory.  The exception is the merge loop of `free_one_page`.  It looks at the descriptor
at `spanned_pages`, which need not end before the first page of the heap does, and after
a wrong index at some in front of the descriptors; what it finds there may look like a
free buddy.

## Main definitions

* `HeapEvent`, `heapStep` — a call, a store into a block, a change around the descriptors.
* `Zone.Quiet` — nothing around the descriptors looks free.
* `HeapEvent.Recognised`, `HeapEvent.KeepsIndex` — the conditions on a call.

## Main results

* `HeapInv.remap`, `HeapInv.store` — what the heap does not read.
* `extents_runs` — the extents stay disjoint in every run in which `kfree` finds the
  flag set and nothing that looks free; `extents_overlap_full_page` is a run in which
  the flag is clear.
* `index_runs` — pages are handed back under their own index in every run that
  empties no slob page; `index_lost_to_freelist` is one that does.
-/

namespace YakOS

open Buddy

/-! ### Runs -/

/-- A call, a store of an owner to the cell at `x`, or a change of the memory around the
descriptors of the zone to `m`. -/
inductive HeapEvent
  | call (e : KmEvent)
  | store (x : ℕ) (v : ℤ)
  | around (m : ℤ → Page)

/-- The byte `x` is one its owner may use: it lies in the block, and not in the header. -/
def KBlock.HasData (z : Zone) : KBlock → ℕ → Prop
  | small a u, x => a + archSlobMinalign ≤ x ∧ x < a + slobUnit * u
  | large p k, x => z.BlockHas (p, k) x

instance (z : Zone) (b : KBlock) (x : ℕ) : Decidable (b.HasData z x) :=
  match b with
  | .small a u => inferInstanceAs (Decidable (a + archSlobMinalign ≤ x ∧ x < a + slobUnit * u))
  | .large p k => inferInstanceAs (Decidable (z.BlockHas (p, k) x))

theorem KBlock.HasData.has {z : Zone} {b : KBlock} {x : ℕ} (h : b.HasData z x) : b.Has z x := by
  cases b with
  | small a u => exact ⟨(Nat.le_add_right ..).trans h.1, h.2⟩
  | large p k => exact h

/-- Only bytes of live blocks are stored to. -/
def heapStep (s : KmState) : HeapEvent → Option KmState
  | .call e => kmStep s e
  | .store x v =>
    if ∃ b ∈ s.live, b.HasData s.heap.zone x then
      some { s with heap := { s.heap with units := setCell s.heap.units x v } }
    else none
  | .around m => some { s with heap := { s.heap with zone := s.heap.zone.remap m } }

theorem heapStep_store {s s' : KmState} {x : ℕ} {v : ℤ} (hs : heapStep s (.store x v) = some s') :
    (∃ b ∈ s.live, b.HasData s.heap.zone x) ∧
      s' = { s with heap := { s.heap with units := setCell s.heap.units x v } } := by
  simp only [heapStep] at hs
  split at hs
  · rename_i hb
    exact ⟨hb, (Option.some.inj hs).symm⟩
  · cases hs

/-- No descriptor that the merge loop can look at and that is none of the zone's looks free. -/
def Zone.Quiet (z : Zone) : Prop :=
  z.QuietBehind ∧ ∀ i : ℕ, i < 2 ^ (maxOrder - 2) → ¬ (z.page (-(i : ℤ) - 1)).LooksFree

instance (z : Zone) : Decidable z.Quiet := inferInstanceAs (Decidable (_ ∧ _))

theorem Zone.Quiet.not_looksFree {z : Zone} (h : z.Quiet) {b : ℤ}
    (hb : MergeRange z.usedPages z.spannedPages b) (hout : ¬ z.Within b) : ¬ (z.page b).LooksFree := by
  obtain ⟨hlo, hhi⟩ := hb
  rcases lt_or_ge b 0 with hneg | hpos
  · have hi : (-b - 1).toNat < 2 ^ (maxOrder - 2) := by
      unfold maxOrder at *
      omega
    have hnot := h.2 _ hi
    have hb : -(((-b - 1).toNat : ℕ) : ℤ) - 1 = b := by omega
    rwa [hb] at hnot
  · exact h.1.not_looksFree ⟨hpos, hhi⟩ hout

/-! ### What the heap does not read -/

section Frame

variable {R R' : ℤ → Prop} {h : Heap} {L : List Block} {S : List Frag} {live : List KBlock}
  {pages : List ℤ} {frags : ℤ → List Frag}

/-- The marks are known where they were, and where no descriptor looks free. -/
theorem HeapInv.widen (hinv : HeapInv R h L S pages frags)
    (hR : ∀ b, R' b → ¬ R b → ¬ (h.zone.page b).LooksFree) : HeapInv R' h L S pages frags :=
  { hinv with buddy := hinv.buddy.widen hR }

/-- The memory around the descriptors of the zone does not matter. -/
theorem HeapInv.remap (hinv : HeapInv R h L S pages frags) {m : ℤ → Page}
    (hR : ∀ b, R b → 0 ≤ b ∧ b < h.zone.spannedPages) :
    HeapInv R { h with zone := h.zone.remap m } L S pages frags where
  buddy := hinv.buddy.remap hR
  placed := ⟨hinv.placed.aligned, hinv.placed.nonzero, hinv.placed.fits⟩
  large b hb := by
    show b.2 < maxOrder ∧ ((h.zone.remap m).page b.1).priv = b.2
    rw [Zone.remap_of_mem (hinv.mem_range_large hb)]
    exact hinv.large b hb
  page p hp := (hinv.page p hp).congr rfl (Zone.remap_of_mem (hinv.mem_range hp)) (fun _ _ => rfl)
    fun _ _ => rfl
  small := hinv.small
  listed := hinv.listed
  nodup := hinv.nodup
  flags p h₀ h₁ := by
    have hlt : p < h.zone.spannedPages := h₁
    show pageSlob ((h.zone.remap m).page p) = true ↔ p ∈ h.partials
    rw [Zone.remap_of_mem ⟨h₀, hlt⟩]
    exact hinv.flags p h₀ hlt

/-- A cell that is in no free fragment and is no header does not matter. -/
theorem HeapInv.setCell (hinv : HeapInv R h L S pages frags) {x : ℕ} {v : ℤ}
    (hfree : ∀ p ∈ pages, ∀ f ∈ frags p, ¬ f.Has x) (hhead : ∀ b ∈ S, b.1 ≠ x) :
    HeapInv R { h with units := YakOS.setCell h.units x v } L S pages frags where
  buddy := hinv.buddy
  placed := hinv.placed
  large := hinv.large
  page p hp :=
    { priv := (hinv.page p hp).priv
      chain := by
        refine (hinv.page p hp).chain.congr ?_
        intro f hf
        have hal := (hinv.page p hp).wf.aligned f hf
        have hne : ∀ y, f.Has y → YakOS.setCell h.units x v y = h.units y := by
          rintro y hy
          refine if_neg ?_
          rintro rfl
          exact hfree p hp f hf hy
        unfold Frag.Has slobUnit at hne
        unfold slobUnit
        exact ⟨hne _ (by omega), hne _ (by omega)⟩
      wf := (hinv.page p hp).wf
      units := (hinv.page p hp).units
      tile := (hinv.page p hp).tile }
  small b hb := ⟨(hinv.small b hb).1, (if_neg (hhead b hb)).trans (hinv.small b hb).2⟩
  listed := hinv.listed
  nodup := hinv.nodup
  flags := hinv.flags

theorem HeapInv.sound (hinv : HeapInv R h (larges live) (smalls live) pages frags) :
    Sound { heap := h, live := live } :=
  KmInv.sound (z := h.zone) ⟨Zone.SamePlace.refl _, pages, frags, hinv⟩

/-- **An owner stores into its block.** -/
theorem HeapInv.store (hinv : HeapInv R h (larges live) (smalls live) pages frags) {b : KBlock}
    (hb : b ∈ live) {x : ℕ} (hx : b.HasData h.zone x) (v : ℤ) :
    HeapInv R { h with units := YakOS.setCell h.units x v } (larges live) (smalls live) pages
      frags := by
  have hsound := hinv.sound
  refine hinv.setCell ?_ ?_
  · intro p hp f hf hfx
    -- the fragments of a page are free, the block is not
    have hpart : p ∈ h.partials := (hinv.listed p).mpr ⟨hp, List.ne_nil_of_mem hf⟩
    have hmem : f ∈ h.freeFrags := by
      rw [hinv.freeFrags_eq]
      exact List.mem_flatMap.mpr ⟨p, hpart, hf⟩
    exact hsound.notFree b hb x hx.has (Or.inl ⟨f, hmem, hfx⟩)
  · rintro ⟨a, u⟩ hc rfl
    have hcl : .small a u ∈ live := mem_smalls.mp hc
    by_cases hbc : b = .small a u
    · subst hbc
      have hdata : a + archSlobMinalign ≤ a := hx.1
      unfold archSlobMinalign at hdata
      omega
    · -- another block does not have the first byte of this one
      have hsym : Std.Symm fun c d : KBlock => ∀ y, c.Has h.zone y → ¬ d.Has h.zone y :=
        ⟨fun c d hcd y hd hc => hcd y hc hd⟩
      exact hsound.apart.forall hb hcl hbc a hx.has (hinv.small_has hc)

end Frame

/-! ### The extents in every run -/

/-- `kfree` recognises the block, and finds no descriptor around those of the zone that looks
free. -/
def HeapEvent.Recognised (s : KmState) : HeapEvent → Prop
  | .call (.kfree b) => b.Dispatched s.heap ∧ s.heap.zone.Quiet
  | .call (.kmalloc _) | .store _ _ | .around _ => True

instance (s : KmState) : ∀ e : HeapEvent, Decidable (e.Recognised s)
  | .call (.kfree b) => inferInstanceAs (Decidable (b.Dispatched s.heap ∧ s.heap.zone.Quiet))
  | .call (.kmalloc _) | .store _ _ | .around _ => isTrue trivial

/-- A call of `kfree` frees its block. -/
def CallFrees (s : KmState) (e : HeapEvent) (s' : KmState) : Prop := ∀ k, e = .call k → Frees s k s'

section Steps

variable {z : Zone} {s s' : KmState}

theorem KmInv.widen {R R' : ℤ → Prop} (h : KmInv R z s)
    (hR : ∀ b, R' b → ¬ R b → ¬ (s.heap.zone.page b).LooksFree) : KmInv R' z s := by
  obtain ⟨hplace, pages, frags, hinv⟩ := h
  exact ⟨hplace, pages, frags, hinv.widen hR⟩

theorem Zone.SamePlace.within {z' : Zone} (h : z.SamePlace z') {b : ℤ} (hb : z.Within b) :
    0 ≤ b ∧ b < z'.spannedPages := by
  rw [h.spannedPages]
  exact hb

/-- A descriptor that is none of the zone's and that a quiet zone lets the merge loop see. -/
theorem Zone.SamePlace.not_looksFree {z' : Zone} (h : z.SamePlace z') (hq : z'.Quiet) {b : ℤ}
    (hb : MergeRange z.usedPages z.spannedPages b) (hout : ¬ z.Within b) :
    ¬ (z'.page b).LooksFree := by
  refine hq.not_looksFree ?_ fun hin => hout ⟨hin.1, h.spannedPages ▸ hin.2⟩
  unfold Zone.usedPages at *
  rwa [h.spannedPages]

/-- A call keeps the invariant; while a block is given back the marks are known around the zone
too. -/
theorem KmInv.call {e : KmEvent} (h : KmInv z.Within z s) (he : (HeapEvent.call e).Recognised s)
    (hs : kmStep s e = some s') : KmInv z.Within z s' := by
  cases e with
  | kmalloc size => exact h.kmalloc hs
  | kfree b =>
    set R' : ℤ → Prop := fun c => MergeRange z.usedPages z.spannedPages c ∨ z.Within c
    have hwide : KmInv R' z s := h.widen fun c hc hout =>
      h.1.not_looksFree he.2 (hc.resolve_right hout) hout
    have hnext : KmInv R' z s' := hwide.step (fun c hc => Or.inl hc) (e := .kfree b) he.1 hs
    exact hnext.widen fun c hc hout => absurd (Or.inr hc) hout

/-- **The step lemma.** -/
theorem KmInv.heapStep {e : HeapEvent} (h : KmInv z.Within z s) (he : e.Recognised s)
    (hs : heapStep s e = some s') : KmInv z.Within z s' := by
  cases e with
  | call e => exact h.call he hs
  | store x v =>
    obtain ⟨hplace, pages, frags, hinv⟩ := h
    obtain ⟨⟨b, hb, hx⟩, rfl⟩ := heapStep_store hs
    exact ⟨hplace, pages, frags, hinv.store hb hx v⟩
  | around m =>
    obtain ⟨hplace, pages, frags, hinv⟩ := h
    obtain rfl := Option.some.inj hs
    exact ⟨⟨hplace.memmapPages, hplace.spannedPages⟩, pages, frags,
      hinv.remap fun b hb => hplace.within hb⟩

theorem KmInv.callFrees {e : HeapEvent} (h : KmInv z.Within z s) (h' : KmInv z.Within z s')
    (hs : YakOS.heapStep s e = some s') : CallFrees s e s' := by
  rintro k rfl
  exact h.frees h' hs

end Steps

/-- **The run lemma**, from the zone `page_alloc_init` sets up. -/
theorem kmInv_runs {mem : ℤ → Page} {addr size : ℕ} {z : Zone} (cells : ℕ → ℤ)
    (hz : pageAllocInit mem addr size = some z) (hfit : addr + size ≤ 2 ^ 32)
    (hpage : HasPage addr size)
    (hstale : ∀ i : ℕ, z.managedPages ≤ i → i < z.spannedPages → ¬ (mem i).LooksFree)
    (hflag : ∀ i : ℕ, z.managedPages ≤ i → i < z.spannedPages → pageSlob (mem i) = false)
    {es : List HeapEvent}
    (hes : Run.Guarded heapStep (fun s e => e.Recognised s) (kmallocInit z cells) es) :
    Run.Always heapStep (KmInv z.Within z) (kmallocInit z cells) es :=
  Run.always_of_guarded (fun _ _ _ hs he hstep => hs.heapStep he hstep)
    ⟨Zone.SamePlace.refl z, [], fun _ => [], heapInv_pageAllocInit cells hz hfit hpage hstale hflag⟩
    hes

/-- **The extents.**  If no descriptor of the zone that `page_alloc_init` leaves alone looks free or
has `PG_slob_free` set, then in every run in which `kfree` finds the flag set for each small block
and nothing around the descriptors that looks free, the extents of the live blocks are disjoint and
not free, and `kfree` makes exactly the extent of its block available. -/
theorem extents_runs {mem : ℤ → Page} {addr size : ℕ} {z : Zone} (cells : ℕ → ℤ)
    (hz : pageAllocInit mem addr size = some z) (hfit : addr + size ≤ 2 ^ 32)
    (hpage : HasPage addr size)
    (hstale : ∀ i : ℕ, z.managedPages ≤ i → i < z.spannedPages → ¬ (mem i).LooksFree)
    (hflag : ∀ i : ℕ, z.managedPages ≤ i → i < z.spannedPages → pageSlob (mem i) = false)
    {es : List HeapEvent}
    (hes : Run.Guarded heapStep (fun s e => e.Recognised s) (kmallocInit z cells) es) :
    Run.Always heapStep Sound (kmallocInit z cells) es ∧
      Run.Steps heapStep CallFrees (kmallocInit z cells) es := by
  have hrun := kmInv_runs cells hz hfit hpage hstale hflag hes
  exact ⟨hrun.mono fun _ hs => hs.sound, hrun.steps fun s e s' h h' => h.callFrees h'⟩

/-- Three blocks are taken, used and given back. -/
def usedHeapRun : List HeapEvent :=
  [.call (.kmalloc 100), .store 8200 (-1), .call (.kmalloc 5000), .call (.kmalloc 1),
    .around fun b => { blankMem b with mapcount := 7 }, .call (.kfree (.small 8192 52)),
    .call (.kfree (.large 3 1)), .call (.kfree (.small 8296 4))]

theorem extents_runs_five_pages :
    ∃ z, pageAllocInit blankMem 4096 (5 * 4096) = some z ∧
      (Run.Always heapStep Sound (kmallocInit z fun _ => 0) usedHeapRun ∧
        Run.Steps heapStep CallFrees (kmallocInit z fun _ => 0) usedHeapRun) := by
  obtain ⟨z, hz⟩ := Option.isSome_iff_exists.mp
    (by decide : (pageAllocInit blankMem 4096 (5 * 4096)).isSome)
  have hguard : Run.Guarded heapStep (fun s e => e.Recognised s) (kmallocInit z fun _ => 0)
      usedHeapRun := by
    have : ((pageAllocInit blankMem 4096 (5 * 4096)).all fun z =>
        decide (Run.Guarded heapStep (fun s e => e.Recognised s) (kmallocInit z fun _ => 0)
          usedHeapRun)) = true := by decide +kernel
    rw [hz, Option.all_some, decide_eq_true_eq] at this
    exact this
  exact ⟨z, hz, extents_runs (fun _ => 0) hz (by decide) (by unfold HasPage; decide)
    (fun i _ _ => blankMem_not_looksFree i) (fun i _ _ => Bitops.testBit_zero _) hguard⟩

/-- Two blocks fill the page 1, and its flag is cleared.  `kfree` of the first one takes
the page for a large block: the page goes back to the page allocator, while the second
block still lies in it. -/
theorem extents_overlap_full_page :
    ∃ z, pageAllocInit blankMem 4096 (5 * 4096) = some z ∧
      ¬ Run.Always heapStep Sound (kmallocInit z fun _ => 0)
        [.call (.kmalloc 2039), .call (.kmalloc 2039), .call (.kfree (.small 8192 1024))] := by
  obtain ⟨z, hz⟩ := Option.isSome_iff_exists.mp
    (by decide : (pageAllocInit blankMem 4096 (5 * 4096)).isSome)
  have hrun : ∃ s, Run.exec heapStep (kmallocInit z fun _ => 0)
      [.call (.kmalloc 2039), .call (.kmalloc 2039), .call (.kfree (.small 8192 1024))] = some s ∧
      .small 10240 1024 ∈ s.live ∧ (1, 2) ∈ s.heap.zone.freeBlocks ∧
      s.heap.zone.BlockHas (1, 2) 10240 := by
    have : ((pageAllocInit blankMem 4096 (5 * 4096)).all fun z =>
        (Run.exec heapStep (kmallocInit z fun _ => 0)
          [.call (.kmalloc 2039), .call (.kmalloc 2039), .call (.kfree (.small 8192 1024))]).any
            fun s => decide (.small 10240 1024 ∈ s.live ∧ (1, 2) ∈ s.heap.zone.freeBlocks ∧
              s.heap.zone.BlockHas (1, 2) 10240)) = true := by decide +kernel
    rw [hz, Option.all_some, Option.any_eq_true] at this
    obtain ⟨s, hs, hdec⟩ := this
    exact ⟨s, hs, of_decide_eq_true hdec⟩
  obtain ⟨s, hs, hlive, hfree, hbyte⟩ := hrun
  refine ⟨z, hz, ?_⟩
  intro hsound
  refine (hsound.exec hs).notFree _ hlive 10240 ?_ (Or.inr ⟨_, hfree, hbyte⟩)
  exact ⟨le_rfl, by decide⟩

/-! ### The index a page is handed back under -/

/-- Every page was handed back to the page allocator under its own position. -/
def IndexKept (s : KmState) : Prop := ∀ r ∈ s.heap.handedBack, (r.2 : ℤ) = r.1

instance (s : KmState) : Decidable (IndexKept s) :=
  inferInstanceAs (Decidable (∀ r ∈ s.heap.handedBack, (r.2 : ℤ) = r.1))

/-- `kfree` recognises the block, does not empty a slob page, and finds no descriptor behind those
of the zone that looks free. -/
def HeapEvent.KeepsIndex (s : KmState) : HeapEvent → Prop
  | .call (.kfree b) => b.Dispatched s.heap ∧ b.Leaves s.heap ∧ s.heap.zone.QuietBehind
  | .call (.kmalloc _) | .store _ _ | .around _ => True

instance (s : KmState) : ∀ e : HeapEvent, Decidable (e.KeepsIndex s)
  | .call (.kfree b) =>
    inferInstanceAs (Decidable (b.Dispatched s.heap ∧ b.Leaves s.heap ∧ s.heap.zone.QuietBehind))
  | .call (.kmalloc _) | .store _ _ | .around _ => isTrue trivial

/-- The invariant of the runs that empty no slob page: every page that is not a slob
page has its position as its index. -/
def IndexInv (R : ℤ → Prop) (z : Zone) (s : KmState) : Prop :=
  z.SamePlace s.heap.zone ∧ IndexKept s ∧ ∃ pages frags,
    HeapInv R s.heap (larges s.live) (smalls s.live) pages frags ∧
      ∀ b : ℤ, 0 ≤ b → b < s.heap.zone.spannedPages → b ∉ pages →
        ((s.heap.zone.page b).index : ℤ) = b

section IndexSteps

variable {R R' : ℤ → Prop} {z : Zone} {s s' : KmState}

theorem IndexInv.widen (h : IndexInv R z s)
    (hR : ∀ b, R' b → ¬ R b → ¬ (s.heap.zone.page b).LooksFree) : IndexInv R' z s := by
  obtain ⟨hplace, hkept, pages, frags, hinv, hindex⟩ := h
  exact ⟨hplace, hkept, pages, frags, hinv.widen hR, hindex⟩

/-- What an operation that hands no page back does to the indices. -/
theorem Grows.indexInv {pages pages' : List ℤ} {frags' : ℤ → List Frag}
    (hg : Grows s.heap s'.heap pages pages') (hplace : z.SamePlace s.heap.zone) (hkept : IndexKept s)
    (hindex : ∀ b : ℤ, 0 ≤ b → b < s.heap.zone.spannedPages → b ∉ pages →
      ((s.heap.zone.page b).index : ℤ) = b)
    (hinv : HeapInv R s'.heap (larges s'.live) (smalls s'.live) pages' frags') :
    IndexInv R z s' := by
  refine ⟨hplace.trans hg.place, ?_, pages', frags', hinv, ?_⟩
  · unfold IndexKept
    rw [hg.handed]
    exact hkept
  · intro b h₀ h₁ hb
    rw [hg.place.spannedPages] at h₁
    rw [hg.index b hb]
    exact hindex b h₀ h₁ fun hmem => hb (hg.sub b hmem)

theorem IndexInv.kmalloc {size : ℕ} (h : IndexInv R z s) (hs : kmStep s (.kmalloc size) = some s') :
    IndexInv R z s' := by
  obtain ⟨hplace, hkept, pages, frags, hinv, hindex⟩ := h
  obtain ⟨r, hr, hlive⟩ := kmStep_kmalloc hs
  obtain ⟨pages', frags', hgrows, hinv'⟩ := hinv.kmalloc hr
  rw [← hlive] at hinv'
  exact hgrows.indexInv hplace hkept hindex hinv'

theorem IndexInv.kfree {b : KBlock} (h : IndexInv R z s)
    (hR : ∀ c : ℤ, 0 ≤ c → c ≤ s.heap.zone.spannedPages → R c) (hd : b.Dispatched s.heap)
    (hl : b.Leaves s.heap) (hs : kmStep s (.kfree b) = some s') : IndexInv R z s' := by
  obtain ⟨hplace, hkept, pages, frags, hinv, hindex⟩ := h
  obtain ⟨hb, rfl⟩ := kmStep_kfree hs
  cases b with
  | small a u =>
    obtain ⟨frags', hinv', hgrows⟩ := hinv.kfree_small_stays hb hd hl
    exact Grows.indexInv (s := s) hgrows hplace hkept hindex hinv'
  | large p k =>
    -- a large block is no slob page, so its index is its position
    obtain ⟨h₀, h₁⟩ := hinv.mem_range_large (mem_larges.mpr hb)
    have hp := hindex p h₀ h₁ (hinv.large_not_partial hb)
    obtain ⟨hinv', hidx, hplace', hback⟩ := hinv.kfree_large hb fun n hn => by
      refine hR _ ?_ hn.2
      rw [hp]
      omega
    refine ⟨hplace.trans hplace', ?_, pages, frags, hinv', ?_⟩
    · intro r hr
      have hr' : r ∈ s.heap.handedBack ++ [(p, (s.heap.zone.page p).index)] := hback ▸ hr
      rcases List.mem_append.mp hr' with hr' | hr'
      · exact hkept r hr'
      · obtain rfl := List.mem_singleton.mp hr'
        exact hp
    · intro b h₀ h₁ hb
      have h₁' : b < s.heap.zone.spannedPages := hplace'.spannedPages ▸ h₁
      exact (congrArg _ (hidx b)).trans (hindex b h₀ h₁' hb)

/-- **The step lemma.** -/
theorem IndexInv.heapStep {e : HeapEvent} (h : IndexInv z.Within z s) (he : e.KeepsIndex s)
    (hs : heapStep s e = some s') : IndexInv z.Within z s' := by
  cases e with
  | call e =>
    cases e with
    | kmalloc size => exact h.kmalloc hs
    | kfree b =>
      have hwide : IndexInv (fun c => 0 ≤ c ∧ c ≤ s.heap.zone.spannedPages) z s := h.widen
        fun c hc hout => he.2.2.not_looksFree hc fun hin => hout ⟨hin.1, h.1.spannedPages ▸ hin.2⟩
      have hnext := hwide.kfree (fun c h₀ h₁ => ⟨h₀, h₁⟩) he.1 he.2.1 hs
      exact hnext.widen fun c hc hout => absurd ⟨hc.1, (h.1.within hc).2.le⟩ hout
  | store x v =>
    obtain ⟨hplace, hkept, pages, frags, hinv, hindex⟩ := h
    obtain ⟨⟨b, hb, hx⟩, rfl⟩ := heapStep_store hs
    exact ⟨hplace, hkept, pages, frags, hinv.store hb hx v, hindex⟩
  | around m =>
    obtain ⟨hplace, hkept, pages, frags, hinv, hindex⟩ := h
    obtain rfl := Option.some.inj hs
    refine ⟨⟨hplace.memmapPages, hplace.spannedPages⟩, hkept, pages, frags,
      hinv.remap fun b hb => hplace.within hb, fun b h₀ h₁ hb => ?_⟩
    have hlt : b < s.heap.zone.spannedPages := h₁
    show (((s.heap.zone.remap m).page b).index : ℤ) = b
    rw [Zone.remap_of_mem ⟨h₀, hlt⟩]
    exact hindex b h₀ hlt hb

end IndexSteps

/-- **The index.**  From descriptors that hold their positions, in every run in which
`kfree` finds the flag set for each small block, none is the last one of its page, and nothing
behind the descriptors looks free, a page is only handed back under its own position. -/
theorem index_runs {mem : ℤ → Page} {addr size : ℕ} {z : Zone} (cells : ℕ → ℤ)
    (hz : pageAllocInit mem addr size = some z) (hfit : addr + size ≤ 2 ^ 32)
    (hpage : HasPage addr size)
    (hindex : ∀ i : ℕ, i < z.spannedPages → (z.page i).index = i)
    (hstale : ∀ i : ℕ, z.managedPages ≤ i → i < z.spannedPages → ¬ (mem i).LooksFree)
    (hflag : ∀ i : ℕ, z.managedPages ≤ i → i < z.spannedPages → pageSlob (mem i) = false)
    {es : List HeapEvent}
    (hes : Run.Guarded heapStep (fun s e => e.KeepsIndex s) (kmallocInit z cells) es) :
    Run.Always heapStep IndexKept (kmallocInit z cells) es := by
  have hinit : IndexInv z.Within z (kmallocInit z cells) := by
    refine ⟨Zone.SamePlace.refl z, by simp [IndexKept, kmallocInit], [], fun _ => [],
      heapInv_pageAllocInit cells hz hfit hpage hstale hflag, ?_⟩
    intro b h₀ h₁ _
    obtain ⟨i, rfl⟩ := Int.eq_ofNat_of_zero_le h₀
    have hlt : (i : ℤ) < z.spannedPages := h₁
    exact congrArg _ (hindex i (by omega))
  exact (Run.always_of_guarded (fun _ _ _ hs hk hstep => hs.heapStep hk hstep) hinit hes).mono
    fun _ hs => hs.2.1

theorem index_runs_five_pages :
    ∃ z, pageAllocInit blankMem 4096 (5 * 4096) = some z ∧
      Run.Always heapStep IndexKept (kmallocInit z fun _ => 0) (usedHeapRun.take 7) := by
  obtain ⟨z, hz⟩ := Option.isSome_iff_exists.mp
    (by decide : (pageAllocInit blankMem 4096 (5 * 4096)).isSome)
  have hpage : HasPage 4096 (5 * 4096) := by unfold HasPage; decide
  have hguard : Run.Guarded heapStep (fun s e => e.KeepsIndex s) (kmallocInit z fun _ => 0)
      (usedHeapRun.take 7) := by
    have : ((pageAllocInit blankMem 4096 (5 * 4096)).all fun z =>
        decide (Run.Guarded heapStep (fun s e => e.KeepsIndex s) (kmallocInit z fun _ => 0)
          (usedHeapRun.take 7))) = true := by decide +kernel
    rw [hz, Option.all_some, decide_eq_true_eq] at this
    exact this
  have hinit := initialZone_pageAllocInit hz (by decide) hpage
  exact ⟨z, hz, index_runs (fun _ => 0) hz (by decide) hpage
    (fun i _ => hinit.index_eq (fun _ => rfl) i) (fun i _ _ => blankMem_not_looksFree i)
    (fun i _ _ => Bitops.testBit_zero _) hguard⟩

/-- One block, and the page is handed back with the place of its free fragment in the
field that `free_one_page` reads as the index. -/
theorem index_lost_to_freelist :
    ∃ z, pageAllocInit blankMem 4096 (5 * 4096) = some z ∧
      (∀ i : ℕ, i < z.spannedPages → (z.page i).index = i) ∧
      ¬ Run.Always heapStep IndexKept (kmallocInit z fun _ => 0)
        [.call (.kmalloc 8), .call (.kfree (.small 8192 8))] := by
  obtain ⟨z, hz⟩ := Option.isSome_iff_exists.mp
    (by decide : (pageAllocInit blankMem 4096 (5 * 4096)).isSome)
  have hinit := initialZone_pageAllocInit hz (by decide) (by unfold HasPage; decide)
  have hrun : ∃ s, Run.exec heapStep (kmallocInit z fun _ => 0)
      [.call (.kmalloc 8), .call (.kfree (.small 8192 8))] = some s ∧
      (1, 8208) ∈ s.heap.handedBack := by
    have : ((pageAllocInit blankMem 4096 (5 * 4096)).all fun z =>
        (Run.exec heapStep (kmallocInit z fun _ => 0)
          [.call (.kmalloc 8), .call (.kfree (.small 8192 8))]).any
          fun s => decide ((1, 8208) ∈ s.heap.handedBack)) = true := by decide +kernel
    rw [hz, Option.all_some, Option.any_eq_true] at this
    obtain ⟨s, hs, hdec⟩ := this
    exact ⟨s, hs, of_decide_eq_true hdec⟩
  obtain ⟨s, hs, hback⟩ := hrun
  refine ⟨z, hz, fun i _ => hinit.index_eq (fun _ => rfl) i, ?_⟩
  intro hkept
  have := hkept.exec hs _ hback
  omega

end YakOS
