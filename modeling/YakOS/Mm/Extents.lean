import YakOS.Mm.Kmalloc

/-!
# Who owns the bytes of the zone

The runs of `kmalloc` and `kfree`.  Every byte of the pages the zone manages lies in
exactly one place: a block handed out, a free fragment of a slob page, or a block on
a list of the page allocator.  The code keeps that up only as long as `kfree`
recognises the small blocks it is given: it asks `PG_slob_free` of the page the
pointer lies in, a flag that is cleared when the page is full.

## Main definitions

* `KmState`, `kmStep` — the heap and the blocks handed out.
* `Heap.freeFrags`, `Heap.Avail` — the bytes that are free, read off the lists.
* `Sound`, `Frees` — what is promised of a state and of a call of `kfree`.

## Main results

* `HeapInv.accounted` — every byte is counted once.
* `Heap.InOrder.kmalloc_pages` — a block of whole pages is made of available bytes.
* `KmInv.step`, `KmInv.sound`, `KmInv.frees` — what one call keeps, and what is promised.
* `heapInv_pageAllocInit` — the heap `kmalloc_init` leaves behind.
-/

namespace YakOS

open Buddy

/-! ### Runs -/

/-- The heap and the blocks handed out and not yet given back. -/
structure KmState where
  heap : Heap
  live : List KBlock

/-- A call of `kmalloc(size)` or of `kfree` with the pointer to a block. -/
inductive KmEvent
  | kmalloc (size : ℕ)
  | kfree (b : KBlock)
  deriving DecidableEq, Repr

/-- One call.  Only a block that is live may be given back. -/
def kmStep (s : KmState) : KmEvent → Option KmState
  | .kmalloc size =>
    let r := kmalloc s.heap size
    some { heap := r.2, live := r.1.toList.map (blockAt r.2 size) ++ s.live }
  | .kfree b =>
    if b ∈ s.live then
      some { heap := kfree s.heap (b.pointer s.heap.zone), live := s.live.erase b }
    else none

/-- The heap `kmalloc_init` leaves behind. -/
def kmallocInit (z : Zone) (cells : ℕ → ℤ) : KmState :=
  { heap := { zone := z, units := cells, freeSlob := fun _ => [], handedBack := [] }, live := [] }

/-! ### The free bytes -/

/-- The free fragments of the pages on the three lists. -/
def Heap.freeFrags (h : Heap) : List Frag :=
  h.partials.flatMap fun p => fragWalk h.units pageSize (h.zone.page p).index

/-- The byte `x` lies in the pages of a block. -/
def Zone.BlockHas (z : Zone) (b : Block) (x : ℕ) : Prop :=
  pageAddress z b.1 ≤ x ∧ x < pageAddress z b.1 + 2 ^ b.2 * pageSize

instance (z : Zone) (b : Block) (x : ℕ) : Decidable (z.BlockHas b x) :=
  inferInstanceAs (Decidable (_ ∧ _))

/-- The byte `x` lies in a free fragment or in a block on a list of the page allocator. -/
def Heap.Avail (h : Heap) (x : ℕ) : Prop :=
  (∃ f ∈ h.freeFrags, f.Has x) ∨ ∃ b ∈ h.zone.freeBlocks, h.zone.BlockHas b x

/-- The extent of a block: the units recorded in its header, or its pages. -/
def KBlock.Has (z : Zone) : KBlock → ℕ → Prop
  | small a u, x => Frag.Has (a, u) x
  | large p k, x => z.BlockHas (p, k) x

instance (z : Zone) (b : KBlock) (x : ℕ) : Decidable (b.Has z x) :=
  match b with
  | .small a u => inferInstanceAs (Decidable (Frag.Has (a, u) x))
  | .large p k => inferInstanceAs (Decidable (z.BlockHas (p, k) x))

@[simp] theorem KBlock.has_small (z : Zone) (a u x : ℕ) :
    (KBlock.small a u).Has z x ↔ Frag.Has (a, u) x := Iff.rfl

@[simp] theorem KBlock.has_large (z : Zone) (p : ℤ) (k x : ℕ) :
    (KBlock.large p k).Has z x ↔ z.BlockHas (p, k) x := Iff.rfl

/-- What is promised of a state: the extents of the live blocks are disjoint and not
free. -/
structure Sound (s : KmState) : Prop where
  apart : s.live.Pairwise fun b c => ∀ x, b.Has s.heap.zone x → ¬ c.Has s.heap.zone x
  notFree : ∀ b ∈ s.live, ∀ x, b.Has s.heap.zone x → ¬ s.heap.Avail x

/-- What is promised of a call of `kfree`: it makes the extent of the block available,
nothing else, and no other live block. -/
def Frees (s : KmState) (e : KmEvent) (s' : KmState) : Prop :=
  ∀ b, e = .kfree b →
    (∀ x, s'.heap.Avail x ↔ s.heap.Avail x ∨ b.Has s.heap.zone x) ∧
    ∀ c ∈ s.live.erase b, c ∈ s'.live ∧ ∀ x, c.Has s.heap.zone x → ¬ s'.heap.Avail x

/-! ### Every byte is counted once -/

/-- The page a byte lies in. -/
def Zone.pageOf (z : Zone) (x : ℕ) : ℤ := ((x : ℤ) - z.memmapPages) / pageSize

theorem Zone.Placed.inPage_iff {z : Zone} {p : ℤ} {x : ℕ} (h : z.Placed)
    (hp : 0 ≤ p ∧ p < z.spannedPages) : InPage z p x ↔ p = z.pageOf x := by
  have haddr := h.pageAddress_eq hp.1 hp.2
  unfold InPage Zone.pageOf
  unfold pageSize at *
  omega

theorem Zone.Placed.blockHas_iff {z : Zone} {b : Block} {x : ℕ} (h : z.Placed)
    (hb : 0 ≤ b.1 ∧ b.1 < z.spannedPages) : z.BlockHas b x ↔ b.Has (z.pageOf x) := by
  have haddr := h.pageAddress_eq hb.1 hb.2
  have hpow : ((2 ^ b.2 : ℕ) : ℤ) = 2 ^ b.2 := by push_cast; rfl
  unfold Zone.BlockHas Block.Has Zone.pageOf
  rw [← hpow]
  generalize 2 ^ b.2 = n
  unfold pageSize at *
  omega

/-- The number of live blocks that have the byte `x`. -/
def liveCover (z : Zone) (live : List KBlock) (x : ℕ) : ℕ :=
  live.countP fun b => decide (b.Has z x)

/-- The number of free fragments and free blocks that have the byte `x`. -/
def availCover (h : Heap) (x : ℕ) : ℕ :=
  fragCover h.freeFrags x + h.zone.freeBlocks.countP fun b => decide (h.zone.BlockHas b x)

theorem avail_iff {h : Heap} {x : ℕ} : h.Avail x ↔ 0 < availCover h x := by
  unfold Heap.Avail availCover
  rw [Nat.add_pos_iff_pos_or_pos, fragCover_pos, List.countP_pos_iff]
  simp

theorem cover_pages (l : List ℤ) (y : ℤ) : cover (l.map fun p => ((p, 0) : Block)) y = l.count y := by
  unfold cover List.count
  rw [List.countP_map]
  apply List.countP_congr
  intro p _
  simp only [Function.comp_apply, Block.Has, decide_eq_true_eq, beq_iff_eq, pow_zero]
  omega

section Accounting

variable {R : ℤ → Prop} {h : Heap} {live : List KBlock} {pages : List ℤ}
  {frags : ℤ → List Frag}

theorem HeapInv.freeFrags_eq {L : List Block} {S : List Frag} (hinv : HeapInv R h L S pages frags) :
    h.freeFrags = h.partials.flatMap frags := by
  apply List.flatMap_congr
  intro p hp
  obtain ⟨hpages, hne⟩ := (hinv.listed p).mp hp
  have hpage := hinv.page p hpages
  exact fragWalk_eq hpage.wf hpage.chain hne hpage.wf.length_le

/-- The bytes of the slob pages. -/
theorem HeapInv.frags_accounted {L : List Block} {S : List Frag}
    (hinv : HeapInv R h L S pages frags) (x : ℕ) :
    fragCover h.freeFrags x + fragCover S x = pages.count (h.zone.pageOf x) := by
  set q := h.zone.pageOf x with hq
  have hin : ∀ p ∈ pages, ∀ f ∈ frags p, f.Has x → p = q := fun p hp f hf hfx =>
    (hinv.placed.inPage_iff (hinv.mem_range hp)).mp
      (inPage_of_has ((hinv.page p hp).wf.inside f hf) hfx)
  -- only the fragments of its own page have the byte
  have hsum : fragCover h.freeFrags x = h.partials.count q * fragCover (frags q) x := by
    rw [hinv.freeFrags_eq]
    unfold fragCover
    rw [List.countP_flatMap]
    refine (List.sum_map_eq_nsmul_single q _ fun p hpq hp => ?_).trans rfl
    by_contra hne
    obtain ⟨f, hf, hfx⟩ := fragCover_pos.mp (Nat.pos_of_ne_zero hne)
    exact hpq (hin p ((hinv.listed p).mp hp).1 f hf hfx)
  rw [hsum]
  by_cases hmem : q ∈ pages
  · rw [List.count_eq_one_of_mem hinv.pages_nodup hmem]
    have htile := (hinv.page q hmem).tile x
      ((hinv.placed.inPage_iff (hinv.mem_range hmem)).mpr hq)
    by_cases hpart : q ∈ h.partials
    · rw [List.count_eq_one_of_mem hinv.nodup hpart, one_mul]
      exact htile
    · have hnil : frags q = [] := by
        by_contra hne
        exact hpart ((hinv.listed q).mpr ⟨hmem, hne⟩)
      rw [List.count_eq_zero_of_not_mem hpart, zero_mul]
      rw [hnil] at htile
      exact htile
  · -- no fragment and no block lies in a page that is not a slob page
    have hpart : q ∉ h.partials := fun hp => hmem ((hinv.listed q).mp hp).1
    rw [List.count_eq_zero_of_not_mem hpart, List.count_eq_zero_of_not_mem hmem, zero_mul, zero_add]
    by_contra hne
    obtain ⟨b, hb, hbx⟩ := fragCover_pos.mp (Nat.pos_of_ne_zero hne)
    obtain ⟨⟨p, hp, hw⟩, -⟩ := hinv.small b hb
    have hpq := (hinv.placed.inPage_iff (hinv.mem_range hp)).mp (inPage_of_has hw.inside hbx)
    exact hmem (hq ▸ hpq ▸ hp)

theorem liveCover_eq (z : Zone) (live : List KBlock) (x : ℕ) :
    liveCover z live x = fragCover (smalls live) x +
      (larges live).countP fun b => decide (z.BlockHas b x) := by
  unfold liveCover fragCover smalls larges
  induction live with
  | nil => rfl
  | cons b live ih =>
    cases b with
    | small a u =>
      simp only [List.countP_cons, ih, List.filterMap_cons, KBlock.frag?, KBlock.block?,
        KBlock.has_small]
      omega
    | large p k =>
      simp only [List.countP_cons, ih, List.filterMap_cons, KBlock.frag?, KBlock.block?,
        KBlock.has_large]
      omega

theorem HeapInv.blocks_cover {L : List Block} {S : List Frag}
    (hinv : HeapInv R h L S pages frags) {l : List Block}
    (hl : ∀ b ∈ l, b ∈ h.zone.freeBlocks ++ (L ++ pages.map fun p => (p, 0))) (x : ℕ) :
    (l.countP fun b => decide (h.zone.BlockHas b x)) = cover l (h.zone.pageOf x) := by
  apply List.countP_congr
  intro b hb
  have hrange := hinv.buddy.tiles.mem_range (hl b hb) (Block.has_head b)
  rw [decide_eq_true_eq, decide_eq_true_eq]
  exact hinv.placed.blockHas_iff ⟨by omega, by omega⟩

/-- **The accounting.**  Every byte of the managed pages lies in one live block, free
fragment or free block; every other byte in none. -/
theorem HeapInv.accounted (hinv : HeapInv R h (larges live) (smalls live) pages frags) (x : ℕ) :
    liveCover h.zone live x + availCover h x =
      if (h.zone.usedPages : ℤ) ≤ h.zone.pageOf x ∧ h.zone.pageOf x < h.zone.spannedPages
      then 1 else 0 := by
  have htiles := hinv.buddy.tiles (h.zone.pageOf x)
  have hfrags := hinv.frags_accounted x
  rw [cover_append, cover_append, cover_pages] at htiles
  rw [liveCover_eq, availCover, ← htiles,
    hinv.blocks_cover (l := larges live) (fun b hb => by simp [hb]),
    hinv.blocks_cover (l := h.zone.freeBlocks) (fun b hb => by simp [hb])]
  omega

end Accounting

/-! ### The extents in every run -/

/-- The invariant of the runs that start with the zone `z`. -/
def KmInv (R : ℤ → Prop) (z : Zone) (s : KmState) : Prop :=
  z.SamePlace s.heap.zone ∧
    ∃ pages frags, HeapInv R s.heap (larges s.live) (smalls s.live) pages frags

/-- `kfree` recognises the block. -/
def KmEvent.Dispatched (s : KmState) : KmEvent → Prop
  | .kmalloc _ => True
  | .kfree b => b.Dispatched s.heap

instance (s : KmState) : ∀ e : KmEvent, Decidable (e.Dispatched s)
  | .kmalloc _ => isTrue trivial
  | .kfree b => inferInstanceAs (Decidable (b.Dispatched s.heap))

theorem kmStep_kmalloc {s s' : KmState} {size : ℕ} (hs : kmStep s (.kmalloc size) = some s') :
    ∃ r, kmalloc s.heap size = (r, s'.heap) ∧
      s'.live = r.toList.map (blockAt s'.heap size) ++ s.live := by
  obtain rfl := Option.some.inj hs
  exact ⟨_, rfl, rfl⟩

theorem kmStep_kfree {s s' : KmState} {b : KBlock} (hs : kmStep s (.kfree b) = some s') :
    b ∈ s.live ∧ s' = { heap := kfree s.heap (b.pointer s.heap.zone), live := s.live.erase b } := by
  simp only [kmStep] at hs
  split at hs
  · rename_i hb
    exact ⟨hb, (Option.some.inj hs).symm⟩
  · cases hs

theorem KmInv.kmalloc {R : ℤ → Prop} {z : Zone} {s s' : KmState} {size : ℕ} (h : KmInv R z s)
    (hs : kmStep s (.kmalloc size) = some s') : KmInv R z s' := by
  obtain ⟨hplace, pages, frags, hinv⟩ := h
  obtain ⟨r, hr, hlive⟩ := kmStep_kmalloc hs
  obtain ⟨pages', frags', hgrows, hinv'⟩ := hinv.kmalloc hr
  rw [← hlive] at hinv'
  exact ⟨hplace.trans hgrows.place, pages', frags', hinv'⟩

/-- **The step lemma.**  Nothing is known of the index a slob page is handed back under,
so the marks have to be known wherever the merge loop can look. -/
theorem KmInv.step {R : ℤ → Prop} {z : Zone} {s s' : KmState} {e : KmEvent}
    (hR : ∀ b, MergeRange z.usedPages z.spannedPages b → R b) (h : KmInv R z s) (hd : e.Dispatched s)
    (hs : kmStep s e = some s') : KmInv R z s' := by
  cases e with
  | kmalloc size => exact h.kmalloc hs
  | kfree b =>
    obtain ⟨hplace, pages, frags, hinv⟩ := h
    have hused : s.heap.zone.usedPages = z.usedPages := by
      unfold Zone.usedPages
      rw [hplace.spannedPages]
    rw [← hused, ← hplace.spannedPages] at hR
    obtain ⟨hb, rfl⟩ := kmStep_kfree hs
    cases b with
    | small a u =>
      obtain ⟨pages', frags', hinv', hplace'⟩ := hinv.kfree_small hR hb hd
      exact ⟨hplace.trans hplace', pages', frags', hinv'⟩
    | large p k =>
      obtain ⟨hinv', -, hplace', -⟩ := hinv.kfree_large hb fun n hn => hR _ hn
      exact ⟨hplace.trans hplace', pages, frags, hinv'⟩

/-- Blocks no two of which have a byte in common. -/
theorem pairwise_of_liveCover {z : Zone} {live : List KBlock} (h : ∀ x, liveCover z live x ≤ 1) :
    live.Pairwise fun b c => ∀ x, b.Has z x → ¬ c.Has z x := by
  induction live with
  | nil => exact List.Pairwise.nil
  | cons b live ih =>
    unfold liveCover at *
    refine List.Pairwise.cons (fun c hc x hbx hcx => ?_) (ih fun x => ?_)
    · have hpos : 0 < live.countP fun d => decide (d.Has z x) :=
        List.countP_pos_iff.mpr ⟨c, hc, decide_eq_true hcx⟩
      have hx := h x
      rw [List.countP_cons, if_pos (decide_eq_true hbx)] at hx
      omega
    · have hx := h x
      rw [List.countP_cons] at hx
      omega

theorem KmInv.sound {R : ℤ → Prop} {z : Zone} {s : KmState} (h : KmInv R z s) : Sound s := by
  obtain ⟨-, pages, frags, hinv⟩ := h
  have hle : ∀ x, liveCover s.heap.zone s.live x + availCover s.heap x ≤ 1 := by
    intro x
    rw [hinv.accounted x]
    split <;> omega
  refine ⟨pairwise_of_liveCover fun x => ?_, fun b hb x hbx havail => ?_⟩
  · have := hle x
    omega
  · have hpos : 0 < liveCover s.heap.zone s.live x :=
      List.countP_pos_iff.mpr ⟨b, hb, decide_eq_true hbx⟩
    have := avail_iff.mp havail
    have := hle x
    omega

theorem Zone.SamePlace.has_iff {z z' : Zone} (h : z.SamePlace z') (b : KBlock) (x : ℕ) :
    b.Has z' x ↔ b.Has z x := by
  cases b with
  | small a u => exact Iff.rfl
  | large p k =>
    simp only [KBlock.has_large, Zone.BlockHas, pageAddress, h.memmapPages]

theorem Zone.SamePlace.liveCover_eq {z z' : Zone} (h : z.SamePlace z') (live : List KBlock) (x : ℕ) :
    liveCover z' live x = liveCover z live x := by
  unfold liveCover
  simp only [h.has_iff]

theorem Zone.SamePlace.managed_iff {z z' : Zone} (h : z.SamePlace z') (x : ℕ) :
    ((z'.usedPages : ℤ) ≤ z'.pageOf x ∧ z'.pageOf x < z'.spannedPages) ↔
      (z.usedPages : ℤ) ≤ z.pageOf x ∧ z.pageOf x < z.spannedPages := by
  unfold Zone.usedPages Zone.pageOf
  rw [h.memmapPages, h.spannedPages]

/-- A call of `kfree` between two states with the invariant frees its block. -/
theorem KmInv.frees {R : ℤ → Prop} {z : Zone} {s s' : KmState} {e : KmEvent} (h : KmInv R z s)
    (h' : KmInv R z s') (hs : kmStep s e = some s') : Frees s e s' := by
  rintro b rfl
  have hsound := h'.sound
  obtain ⟨hb, rfl⟩ := kmStep_kfree hs
  obtain ⟨hplace, pages, frags, hinv⟩ := h
  obtain ⟨hplace', pages', frags', hinv'⟩ := h'
  set h' := kfree s.heap (b.pointer s.heap.zone) with hh'
  have hsame : s.heap.zone.SamePlace h'.zone :=
    ⟨hplace'.memmapPages.trans hplace.memmapPages.symm,
      hplace'.spannedPages.trans hplace.spannedPages.symm⟩
  have hlive : ∀ x, liveCover s.heap.zone s.live x =
      liveCover h'.zone (s.live.erase b) x + if b.Has s.heap.zone x then 1 else 0 := by
    intro x
    rw [hsame.liveCover_eq]
    unfold liveCover
    rw [(List.perm_cons_erase hb).countP_eq, List.countP_cons]
    simp
  refine ⟨fun x => ?_, fun c hc => ⟨hc, fun x hx => ?_⟩⟩
  · -- the byte is counted once before and after
    have hbefore := hinv.accounted x
    have hafter : liveCover h'.zone (s.live.erase b) x + availCover h' x =
        if (h'.zone.usedPages : ℤ) ≤ h'.zone.pageOf x ∧ h'.zone.pageOf x < h'.zone.spannedPages
        then 1 else 0 := hinv'.accounted x
    rw [if_congr (hsame.managed_iff x) rfl rfl] at hafter
    rw [← hafter, hlive x] at hbefore
    rw [avail_iff, avail_iff]
    by_cases hbx : b.Has s.heap.zone x
    · rw [if_pos hbx] at hbefore
      simp only [hbx, or_true, iff_true]
      omega
    · rw [if_neg hbx] at hbefore
      simp only [hbx, or_false]
      omega
  · exact hsound.notFree c hc x ((hsame.has_iff c x).mpr hx)

/-! ### Whole pages -/

/-- The heap is as a run of `kmalloc` and `kfree` leaves it, whatever is live. -/
def Heap.InOrder (h : Heap) : Prop :=
  ∃ R live pages frags, HeapInv R h (larges live) (smalls live) pages frags

/-- Available bytes lie in the managed pages. -/
theorem Heap.InOrder.managed_of_avail {h : Heap} (hin : h.InOrder) {x : ℕ} (hx : h.Avail x) :
    (h.zone.usedPages : ℤ) ≤ h.zone.pageOf x ∧ h.zone.pageOf x < h.zone.spannedPages := by
  obtain ⟨R, live, pages, frags, hinv⟩ := hin
  have hacc := hinv.accounted x
  rw [avail_iff] at hx
  by_contra hout
  rw [if_neg hout] at hacc
  omega

/-- **A block of whole pages is fresh.**  It starts at a page, and its bytes were available and
no longer are. -/
theorem Heap.InOrder.kmalloc_pages {h h' : Heap} {size a : ℕ} (hin : h.InOrder)
    (hlarge : ¬ kmallocSize size < pageSize) (hr : YakOS.kmalloc h size = (some a, h')) :
    h'.InOrder ∧ a % pageSize = 0 ∧ a + pageSize ≤ 2 ^ 32 ∧
      ∀ x, (h'.Avail x → h.Avail x) ∧
        (a ≤ x → x < a + pageSize → h.Avail x ∧ ¬ h'.Avail x) := by
  obtain ⟨R, live, pages, frags, hinv⟩ := hin
  obtain ⟨h₀, -⟩ | ⟨hsmall, -, -⟩ | ⟨-, p, z', ha, hp, rfl⟩ := kmalloc_cases hr
  · cases h₀
  · exact absurd hsmall hlarge
  · obtain rfl := Option.some.inj hp
    obtain ⟨hinv', hgrows, -⟩ := hinv.allocPages ha
    generalize getOrder (kmallocSize size) = k at hinv'
    replace hinv' : HeapInv R { h with zone := z' } (larges (.large p k :: live))
        (smalls (.large p k :: live)) pages frags := hinv'
    have hrange := hinv'.mem_range_large (b := (p, k)) List.mem_cons_self
    have hmod := hinv'.placed.pageAddress_mod hrange.1 hrange.2
    have heq := hinv'.placed.pageAddress_eq hrange.1 hrange.2
    have hfits := hinv'.placed.fits
    have hplace : h.zone.SamePlace z' := hgrows.place
    -- what is available before is what is available afterwards, and the block
    have hcover : ∀ x, availCover h x = availCover { h with zone := z' } x +
        if z'.BlockHas (p, k) x then 1 else 0 := by
      intro x
      have h₁ := hinv.accounted x
      have h₂ : liveCover z' (.large p k :: live) x + availCover { h with zone := z' } x =
          if (z'.usedPages : ℤ) ≤ z'.pageOf x ∧ z'.pageOf x < z'.spannedPages then 1 else 0 :=
        hinv'.accounted x
      have hlive : liveCover z' (.large p k :: live) x =
          liveCover h.zone live x + if z'.BlockHas (p, k) x then 1 else 0 := by
        rw [← hplace.liveCover_eq]
        unfold liveCover
        rw [List.countP_cons]
        simp
      rw [if_congr (hplace.managed_iff x) rfl rfl] at h₂
      omega
    refine ⟨⟨R, .large p k :: live, pages, frags, hinv'⟩, hmod, ?_,
      fun x => ⟨fun hx => ?_, fun h₁ h₂ => ?_⟩⟩
    · simp only at *
      unfold pageSize at *
      omega
    · rw [avail_iff] at hx ⊢
      rw [hcover]
      omega
    · have hhas : z'.BlockHas (p, k) x := by
        have : 1 ≤ 2 ^ k := Nat.one_le_two_pow
        exact ⟨h₁, h₂.trans_le (by gcongr; exact Nat.le_mul_of_pos_left _ this)⟩
      have hx := hcover x
      have h₁ := hinv.accounted x
      rw [if_pos hhas] at hx
      rw [avail_iff, avail_iff]
      have : availCover h x ≤ 1 := by
        split at h₁ <;> omega
      omega

/-- The heap right after `kmalloc_init`. -/
theorem heapInv_kmallocInit {R : ℤ → Prop} {mem : ℤ → Page} {z : Zone} (h : InitialZone mem z)
    (cells : ℕ → ℤ) (hfree : ∀ b, R b → ¬ (z.page b).LooksFree)
    (hflag : ∀ p : ℤ, 0 ≤ p → p < z.spannedPages → pageSlob (z.page p) = false) :
    HeapInv R (kmallocInit z cells).heap [] [] [] fun _ => [] where
  buddy :=
    { tiles := by
        rw [List.map_nil, List.append_nil, List.append_nil]
        exact h.tiles
      nrFree := h.nrFree
      marks := fun b hb hl => absurd hl (hfree b hb) }
  placed := ⟨h.aligned, h.nonzero, h.fits⟩
  large := by simp
  page := by simp
  small := by simp
  listed := by simp [Heap.partials, listedPages, kmallocInit]
  nodup := List.nodup_nil
  flags p h₀ h₁ := by
    have := hflag p h₀ h₁
    simp [kmallocInit, this, Heap.partials, listedPages]

/-- The flag and the mark of every descriptor are clear if they are clear where
`page_alloc_init` does not write. -/
theorem InitialZone.page_clear {mem : ℤ → Page} {z : Zone} (h : InitialZone mem z) {P : Page → Prop}
    (hzero : ∀ i : ℕ, P { flags := 0, index := i, mapcount := 0, priv := 0 }) {b : ℤ}
    (hmem : b < 0 ∨ (z.managedPages : ℤ) ≤ b → P (mem b)) : P (z.page b) := by
  rw [h.page]
  split
  · exact hzero _
  · exact hmem (by omega)

/-- The heap over the zone `page_alloc_init` sets up, when the descriptors it leaves alone are
clear. -/
theorem heapInv_pageAllocInit {mem : ℤ → Page} {addr size : ℕ} {z : Zone} (cells : ℕ → ℤ)
    (hz : pageAllocInit mem addr size = some z) (hfit : addr + size ≤ 2 ^ 32)
    (hpage : HasPage addr size)
    (hstale : ∀ i : ℕ, z.managedPages ≤ i → i < z.spannedPages → ¬ (mem i).LooksFree)
    (hflag : ∀ i : ℕ, z.managedPages ≤ i → i < z.spannedPages → pageSlob (mem i) = false) :
    HeapInv z.Within (kmallocInit z cells).heap [] [] [] fun _ => [] := by
  have hzone := initialZone_pageAllocInit hz hfit hpage
  refine heapInv_kmallocInit hzone cells (fun b hb => hzone.not_looksFree hstale hb) ?_
  intro p h₀ h₁
  refine hzone.page_clear (P := fun g => pageSlob g = false) (fun _ => ?_) fun hp => ?_
  · exact Bitops.testBit_zero _
  · obtain ⟨i, rfl⟩ := Int.eq_ofNat_of_zero_le h₀
    exact hflag i (by omega) (by omega)

end YakOS
