import Mathlib.Algebra.BigOperators.Group.Finset.Basic
import Mathlib.Algebra.BigOperators.Intervals
import YakOS.Mm.Partition
import YakOS.Mm.SlobPage

/-!
# The invariant of the heap

The two levels of the heap together.  Every page of the zone is in a free block of
the page allocator, in a large block handed out, or a slob page; and the bytes of a
slob page are in its free fragments or in the small blocks handed out.  A page is on
one of the lists of `slob.c`, and has `PG_slob_free` set, exactly when it has a free
fragment.

## Main definitions

* `Zone.Placed`, `InPage` — the zone in the address space and the bytes of a page.
* `PageInv` — one slob page.
* `HeapInv` — the heap, given the blocks handed out and the slob pages with their
  fragments.

## Main results

* `HeapInv.change`, `HeapInv.reframe` — one page changes; the page allocator works.
* `HeapInv.slobPageAlloc`, `HeapInv.slobFree` — taking a block from a page and giving
  it back.
-/

namespace YakOS

open Buddy

/-- The zone lies in the address space, at the start of a page and not at zero. -/
structure Zone.Placed (z : Zone) : Prop where
  aligned : z.memmapPages = z.zoneStartPfn * pageSize
  nonzero : 0 < z.memmapPages
  fits : z.memmapPages + z.spannedPages * pageSize ≤ 2 ^ 32

/-- The byte `x` lies in the page `p`. -/
def InPage (z : Zone) (p : ℤ) (x : ℕ) : Prop :=
  pageAddress z p ≤ x ∧ x < pageAddress z p + pageSize

section Pages

variable {z : Zone} {p q : ℤ} {x : ℕ}

theorem Zone.Placed.pageAddress_eq (h : z.Placed) (hp : 0 ≤ p) (hp' : p < z.spannedPages) :
    (pageAddress z p : ℤ) = z.memmapPages + p * pageSize := by
  obtain ⟨n, rfl⟩ := Int.eq_ofNat_of_zero_le hp
  rw [YakOS.pageAddress_eq h.fits (by omega)]
  push_cast
  ring

theorem Zone.Placed.pageAddress_mod (h : z.Placed) (hp : 0 ≤ p) (hp' : p < z.spannedPages) :
    pageAddress z p % pageSize = 0 := by
  have h₁ := h.pageAddress_eq hp hp'
  have h₂ := h.aligned
  unfold pageSize at *
  omega

/-- Different pages have no byte in common. -/
theorem Zone.Placed.page_unique (h : z.Placed) (hp : 0 ≤ p ∧ p < z.spannedPages)
    (hq : 0 ≤ q ∧ q < z.spannedPages) (hxp : InPage z p x) (hxq : InPage z q x) : p = q := by
  have h₁ := h.pageAddress_eq hp.1 hp.2
  have h₂ := h.pageAddress_eq hq.1 hq.2
  unfold InPage at *
  unfold pageSize at *
  omega

theorem Zone.Placed.of_frame {keep : ℤ → Prop} {z' : Zone} (h : z.Placed)
    (hf : Zone.Frame keep z z') : z'.Placed := by
  refine ⟨?_, ?_, ?_⟩
  · rw [hf.memmapPages, hf.zoneStartPfn]
    exact h.aligned
  · rw [hf.memmapPages]
    exact h.nonzero
  · rw [hf.memmapPages, hf.spannedPages]
    exact h.fits

theorem Zone.Frame.pageAddress {keep : ℤ → Prop} {z' : Zone} (hf : Zone.Frame keep z z')
    (p : ℤ) : pageAddress z' p = pageAddress z p := by
  unfold YakOS.pageAddress
  rw [hf.memmapPages]

/-- The bytes of a block or fragment of a page lie in the page. -/
theorem inPage_of_has {b u : ℕ} (hin : pageAddress z p ≤ b ∧ b + slobUnit * u ≤ pageAddress z p + pageSize)
    (hx : Frag.Has (b, u) x) : InPage z p x := by
  simp only [Frag.Has] at hx
  unfold InPage
  omega

end Pages

/-- The pages on the three lists. -/
def listedPages (l : SlobClass → List ℤ) : List ℤ := l .small ++ l .medium ++ l .large

/-- The pages with free fragments. -/
def Heap.partials (h : Heap) : List ℤ := listedPages h.freeSlob

/-- The invariant of a slob page: its fragments and the small blocks tile it. -/
structure PageInv (h : Heap) (smalls : List Frag) (p : ℤ) (fs : List Frag) : Prop where
  priv : (h.zone.page p).priv = 0
  chain : Chain h.units (h.zone.page p).index fs (pageAddress h.zone p + pageSize)
  wf : FragsWf (pageAddress h.zone p) fs
  units : (h.zone.page p).mapcount = fragUnits fs
  tile : ∀ x, InPage h.zone p x → fragCover fs x + fragCover smalls x = 1

/-- The invariant of the heap while the blocks `larges` and `smalls` are handed out. -/
structure HeapInv (R : ℤ → Prop) (h : Heap) (larges : List Block) (smalls : List Frag)
    (pages : List ℤ) (frags : ℤ → List Frag) : Prop where
  buddy : BuddyInv R h.zone.usedPages h.zone.spannedPages h.zone
    (larges ++ pages.map fun p => (p, 0))
  placed : h.zone.Placed
  large : ∀ b ∈ larges, b.2 < maxOrder ∧ (h.zone.page b.1).priv = b.2
  page : ∀ p ∈ pages, PageInv h smalls p (frags p)
  small : ∀ b ∈ smalls, (∃ p ∈ pages, BlockWf (pageAddress h.zone p) b.1 b.2) ∧ h.units b.1 = b.2
  listed : ∀ p, p ∈ h.partials ↔ p ∈ pages ∧ frags p ≠ []
  nodup : h.partials.Nodup
  flags : ∀ p : ℤ, 0 ≤ p → p < h.zone.spannedPages →
    (pageSlob (h.zone.page p) = true ↔ p ∈ h.partials)

/-- A page keeps its invariant when its descriptor, its cells and the small blocks on
it stay. -/
theorem PageInv.congr {h h' : Heap} {S S' : List Frag} {p : ℤ} {fs : List Frag}
    (hinv : PageInv h S p fs) (haddr : pageAddress h'.zone p = pageAddress h.zone p)
    (hpage : h'.zone.page p = h.zone.page p)
    (hcells : ∀ x, InPage h.zone p x → h'.units x = h.units x)
    (hcover : ∀ x, InPage h.zone p x → fragCover S' x = fragCover S x) : PageInv h' S' p fs where
  priv := by
    rw [hpage]
    exact hinv.priv
  chain := by
    rw [hpage, haddr]
    apply hinv.chain.congr
    intro f hf
    have hin := hinv.wf.inside f hf
    have hal := hinv.wf.aligned f hf
    unfold slobUnit at *
    exact ⟨hcells _ ⟨by omega, by omega⟩, hcells _ ⟨by omega, by omega⟩⟩
  wf := by
    rw [haddr]
    exact hinv.wf
  units := by
    rw [hpage]
    exact hinv.units
  tile x hx := by
    have hx' : InPage h.zone p x := by
      unfold InPage at *
      rwa [haddr] at hx
    rw [hcover x hx']
    exact hinv.tile x hx'

/-- The invariant of a page whose descriptor is written, read off the new descriptor. -/
theorem pageInv_modifyPage {h : Heap} {S : List Frag} {p : ℤ} {fs : List Frag} {f : Page → Page}
    {m : ℕ → ℤ} {l : SlobClass → List ℤ} (hpriv : (f (h.zone.page p)).priv = 0)
    (hchain : Chain m (f (h.zone.page p)).index fs (pageAddress h.zone p + pageSize))
    (hwf : FragsWf (pageAddress h.zone p) fs)
    (hunits : (f (h.zone.page p)).mapcount = fragUnits fs)
    (htile : ∀ x, InPage h.zone p x → fragCover fs x + fragCover S x = 1) :
    PageInv { h with zone := h.zone.modifyPage p f, units := m, freeSlob := l } S p fs where
  priv := by
    rw [Zone.modifyPage_self]
    exact hpriv
  chain := by
    rw [Zone.modifyPage_self]
    exact hchain
  wf := hwf
  units := by
    rw [Zone.modifyPage_self]
    exact hunits
  tile := htile

namespace HeapInv

variable {R : ℤ → Prop} {h h' : Heap} {L : List Block} {S S' : List Frag} {pages : List ℤ}
  {frags : ℤ → List Frag} {p q : ℤ}

theorem mem_range (hinv : HeapInv R h L S pages frags) (hp : p ∈ pages) :
    0 ≤ p ∧ p < h.zone.spannedPages := by
  have hmem : (p, 0) ∈ h.zone.freeBlocks ++ (L ++ pages.map fun p => (p, 0)) := by simp [hp]
  have := hinv.buddy.tiles.mem_range hmem (Block.has_head _)
  simp only at this
  omega

theorem pages_nodup (hinv : HeapInv R h L S pages frags) : pages.Nodup := by
  have hnd := hinv.buddy.tiles.nodup
  have hsub : (pages.map fun p => ((p, 0) : Block)).Sublist
      (h.zone.freeBlocks ++ (L ++ pages.map fun p => (p, 0))) :=
    (List.sublist_append_right _ _).trans (List.sublist_append_right _ _)
  exact List.Nodup.of_map _ (hnd.sublist hsub)

/-- A page that is neither `p` nor has a byte in common with it. -/
theorem not_inPage (hinv : HeapInv R h L S pages frags) (hp : 0 ≤ p ∧ p < h.zone.spannedPages)
    (hq : q ∈ pages) (hne : q ≠ p) {x : ℕ} (hx : InPage h.zone q x) : ¬ InPage h.zone p x :=
  fun hxp => hne (hinv.placed.page_unique (hinv.mem_range hq) hp hx hxp)

/-- **One page changes.**  The page `p` may have been a slob page or a large block and
may become one or the other; everything that is not about it stays. -/
theorem change (hinv : HeapInv R h L S pages frags) (hp : 0 ≤ p ∧ p < h.zone.spannedPages)
    {f : Page → Page} {fs : List Frag} {L' : List Block} {pages' : List ℤ}
    (hzone : h'.zone = h.zone.modifyPage p f)
    (hperm : (L ++ pages.map fun p => ((p, 0) : Block)).Perm (L' ++ pages'.map fun p => (p, 0)))
    (hlooks : ¬ (f (h.zone.page p)).LooksFree)
    (hlarge : ∀ b ∈ L', b.2 < maxOrder ∧ (h'.zone.page b.1).priv = b.2)
    (hpages : ∀ q, q ≠ p → (q ∈ pages' ↔ q ∈ pages)) (hpage : p ∈ pages' → PageInv h' S' p fs)
    (hcells : ∀ x, ¬ InPage h.zone p x → h'.units x = h.units x)
    (hcover : ∀ x, ¬ InPage h.zone p x → fragCover S' x = fragCover S x)
    (hsmall : ∀ b ∈ S', (∃ q ∈ pages', BlockWf (pageAddress h.zone q) b.1 b.2) ∧
      h'.units b.1 = b.2)
    (hlist : ∀ q, q ∈ h'.partials ↔ if q = p then p ∈ pages' ∧ fs ≠ [] else q ∈ h.partials)
    (hnodup : h'.partials.Nodup)
    (hflag : pageSlob (f (h.zone.page p)) = true ↔ p ∈ pages' ∧ fs ≠ []) :
    HeapInv R h' L' S' pages' (Function.update frags p fs) := by
  -- only the descriptor of `p` changes
  have hother : ∀ q, q ≠ p → h'.zone.page q = h.zone.page q := fun q hq => by
    rw [hzone, Zone.modifyPage_of_ne _ _ hq]
  have haddr : ∀ q, pageAddress h'.zone q = pageAddress h.zone q := fun q => by
    rw [hzone]
    rfl
  refine ⟨?_, ?_, hlarge, ?_, ?_, ?_, hnodup, ?_⟩
  · rw [hzone]
    exact (hinv.buddy.perm hperm).modifyPage hlooks
  · rw [hzone]
    exact ⟨hinv.placed.aligned, hinv.placed.nonzero, hinv.placed.fits⟩
  · intro q hq
    by_cases hqp : q = p
    · subst hqp
      rw [Function.update_self]
      exact hpage hq
    · rw [Function.update_of_ne hqp]
      have hq' := (hpages q hqp).mp hq
      refine (hinv.page q hq').congr (haddr q) (hother q hqp) (fun x hx => ?_) fun x hx => ?_
      · exact hcells x (hinv.not_inPage hp hq' hqp hx)
      · exact hcover x (hinv.not_inPage hp hq' hqp hx)
  · intro b hb
    obtain ⟨⟨q, hq, hw⟩, hu⟩ := hsmall b hb
    exact ⟨⟨q, hq, by rwa [haddr]⟩, hu⟩
  · intro q
    rw [hlist q]
    by_cases hqp : q = p
    · subst hqp
      rw [if_pos rfl, Function.update_self]
    · rw [if_neg hqp, hinv.listed q, Function.update_of_ne hqp, hpages q hqp]
  · intro q h₀ h₁
    rw [hlist q]
    by_cases hqp : q = p
    · subst hqp
      rw [hzone, Zone.modifyPage_self, if_pos rfl]
      exact hflag
    · rw [hother q hqp, if_neg hqp]
      refine hinv.flags q h₀ ?_
      rw [hzone] at h₁
      exact h₁

/-- **The page allocator works.**  The descriptors of the slob pages stay. -/
theorem reframe (hinv : HeapInv R h L S pages frags) {z' : Zone} {L' : List Block}
    {keep : ℤ → Prop} {back : List (ℤ × ℕ)} (hf : Zone.Frame keep h.zone z')
    (hkeep : ∀ p ∈ pages, keep p)
    (hbuddy : BuddyInv R h.zone.usedPages h.zone.spannedPages z'
      (L' ++ pages.map fun p => (p, 0)))
    (hlarge : ∀ b ∈ L', b.2 < maxOrder ∧ (z'.page b.1).priv = b.2) :
    HeapInv R { h with zone := z', handedBack := back } L' S pages frags where
  buddy := by
    have hused : z'.usedPages = h.zone.usedPages := by unfold Zone.usedPages; rw [hf.spannedPages]
    show BuddyInv R z'.usedPages z'.spannedPages z' _
    rw [hused, hf.spannedPages]
    exact hbuddy
  placed := hinv.placed.of_frame hf
  large := hlarge
  page p hp := (hinv.page p hp).congr (hf.pageAddress p) (hf.page p (hkeep p hp))
    (fun _ _ => rfl) fun _ _ => rfl
  small b hb := by
    obtain ⟨⟨p, hp, hw⟩, hu⟩ := hinv.small b hb
    exact ⟨⟨p, hp, by rwa [hf.pageAddress]⟩, hu⟩
  listed := hinv.listed
  nodup := hinv.nodup
  flags p h₀ h₁ := by
    show pageSlob (z'.page p) = true ↔ _
    unfold pageSlob
    rw [hf.flags p]
    refine hinv.flags p h₀ ?_
    have h₂ : p < (z'.spannedPages : ℤ) := h₁
    rwa [hf.spannedPages] at h₂

end HeapInv

/-! ### Taking a block from a page -/

/-- Unlinking a page from the list it is on. -/
theorem listedPages_erase {l : SlobClass → List ℤ} (hnd : (listedPages l).Nodup) (p : ℤ) :
    (∀ q, q ∈ listedPages (fun c => (l c).erase p) ↔ q ∈ listedPages l ∧ q ≠ p) ∧
      (listedPages fun c => (l c).erase p).Nodup := by
  have hsub : (listedPages fun c => (l c).erase p).Sublist (listedPages l) :=
    (List.erase_sublist.append List.erase_sublist).append List.erase_sublist
  refine ⟨fun q => ?_, hnd.sublist hsub⟩
  unfold listedPages at *
  rw [List.nodup_append, List.nodup_append] at hnd
  obtain ⟨⟨hs, hm, -⟩, hl, -⟩ := hnd
  simp only [List.mem_append, hs.mem_erase_iff, hm.mem_erase_iff, hl.mem_erase_iff]
  tauto

/-- Linking a page into one of the lists. -/
theorem listedPages_cons (l : SlobClass → List ℤ) (c : SlobClass) (p : ℤ) :
    (listedPages fun d => if d = c then p :: l d else l d).Perm (p :: listedPages l) := by
  unfold listedPages
  cases c with
  | small => simp
  | medium =>
    simp only [reduceCtorEq, if_false, if_true, List.append_assoc, List.cons_append]
    exact List.perm_middle
  | large =>
    simp only [reduceCtorEq, if_false, if_true]
    exact List.perm_middle

section Operations

variable {R : ℤ → Prop} {h : Heap} {L : List Block} {S : List Frag} {pages : List ℤ}
  {frags : ℤ → List Frag} {p : ℤ}

/-- A small block has no byte in a free fragment. -/
theorem HeapInv.small_not_has (hinv : HeapInv R h L S pages frags) (hp : p ∈ pages)
    {b f : Frag} (hb : b ∈ S) (hf : f ∈ frags p) {x : ℕ} (hx : b.Has x) : ¬ f.Has x := by
  intro hfx
  have hin : InPage h.zone p x := inPage_of_has ((hinv.page p hp).wf.inside f hf) hfx
  have htile := (hinv.page p hp).tile x hin
  have h₁ : 0 < fragCover (frags p) x := fragCover_pos.mpr ⟨f, hf, hfx⟩
  have h₂ : 0 < fragCover S x := fragCover_pos.mpr ⟨b, hb, hx⟩
  omega

theorem HeapInv.small_has (hinv : HeapInv R h L S pages frags) {b : Frag} (hb : b ∈ S) :
    b.Has b.1 := by
  obtain ⟨⟨q, -, hw⟩, -⟩ := hinv.small b hb
  have := hw.aligned.2.2
  unfold Frag.Has slobUnit
  omega

theorem HeapInv.pageSlob_iff (hinv : HeapInv R h L S pages frags) (hp : p ∈ pages) :
    pageSlob (h.zone.page p) = true ↔ frags p ≠ [] := by
  obtain ⟨h₀, h₁⟩ := hinv.mem_range hp
  rw [hinv.flags p h₀ h₁, hinv.listed p]
  exact ⟨fun hmem => hmem.2, fun hne => ⟨hp, hne⟩⟩

theorem HeapInv.slobPage (hinv : HeapInv R h L S pages frags) (hp : p ∈ pages) :
    SlobPage h p (pageAddress h.zone p) (frags p) where
  chain _ := (hinv.page p hp).chain
  wf := (hinv.page p hp).wf
  units := (hinv.page p hp).units
  flag := hinv.pageSlob_iff hp

/-- The page leaves its list exactly when its last fragment is used up. -/
theorem HeapInv.lists_take (hinv : HeapInv R h L S pages frags) (hp : p ∈ pages)
    (hpart : p ∈ h.partials) {fs : List Frag} {c : Prop} [Decidable c] (hc : c ↔ fs = []) :
    (∀ q, q ∈ listedPages (fun d => if c then (h.freeSlob d).erase p else h.freeSlob d) ↔
      if q = p then p ∈ pages ∧ fs ≠ [] else q ∈ h.partials) ∧
      (listedPages fun d => if c then (h.freeSlob d).erase p else h.freeSlob d).Nodup := by
  by_cases hz : c
  · obtain ⟨hmem, hnd⟩ := listedPages_erase hinv.nodup p
    simp only [if_pos hz]
    refine ⟨fun q => ?_, hnd⟩
    rw [hmem q, hc.mp hz]
    by_cases hq : q = p
    · simp [hq]
    · simp [hq, Heap.partials]
  · simp only [if_neg hz]
    refine ⟨fun q => ?_, hinv.nodup⟩
    by_cases hq : q = p
    · subst hq
      rw [if_pos rfl]
      exact ⟨fun _ => ⟨hp, fun hnil => hz (hc.mpr hnil)⟩, fun _ => hpart⟩
    · rw [if_neg hq]
      rfl

/-- A page that is on no list is put on one. -/
theorem HeapInv.lists_push (hinv : HeapInv R h L S pages frags) (c : SlobClass)
    (hpart : p ∉ h.partials) :
    (∀ q, q ∈ listedPages (fun d => if d = c then p :: h.freeSlob d else h.freeSlob d) ↔
      q = p ∨ q ∈ h.partials) ∧
      (listedPages fun d => if d = c then p :: h.freeSlob d else h.freeSlob d).Nodup := by
  have hperm := listedPages_cons h.freeSlob c p
  refine ⟨fun q => hperm.mem_iff.trans List.mem_cons, hperm.nodup_iff.mpr ?_⟩
  exact List.nodup_cons.mpr ⟨hpart, hinv.nodup⟩

/-- **Taking a block** of `u` units from the fragment `(a, n)` of the page `p`. -/
theorem HeapInv.take (hinv : HeapInv R h L S pages frags) (hp : p ∈ pages)
    {pre post : List Frag} {a n u : ℕ} (hfs : frags p = pre ++ (a, n) :: post) (hpos : 0 < u)
    (hu : u ≤ n) (h4 : u % 4 = 0) :
    HeapInv R (slobTake h p u (pre.getLast?.map Prod.fst) a n) L ((a, u) :: S) pages
      (Function.update frags p (pre ++ fragRest a n u ++ post)) := by
  have hpage := hinv.page p hp
  have hslob := hinv.slobPage hp
  rw [hfs] at hslob
  have hne : pre ++ (a, n) :: post ≠ [] := by simp
  have hwf := hslob.wf
  have hwf' := hwf.take hpos hu h4
  have hpre : ∀ f ∈ pre, h.units f.1 = f.2 := fun f hf =>
    (hslob.chain hne).units_eq f (by simp [hf])
  have hblock := hwf.block hpos hu h4
  have hunits := hslob.mapcount_take hu
  have hzero := hslob.mapcount_take_eq_zero hpos hu h4
  have htake := hslob.take hpos hu h4
  -- what is written lies in the fragments of the page, and so in the page
  have hcells : ∀ x, (∀ f ∈ frags p, ¬ f.Has x) →
      takeCells h.units (pre.getLast?.map Prod.fst) a n u x = h.units x := by
    intro x hx
    rw [hfs] at hx
    exact takeCells_of_not_has hwf hpre hpos hu h4 hx
  have houtside : ∀ f ∈ frags p, ∀ x, ¬ InPage h.zone p x → ¬ f.Has x := fun f hf x hx hfx =>
    hx (inPage_of_has (hpage.wf.inside f hf) hfx)
  rw [slobTake_eq]
  set prev := pre.getLast?.map Prod.fst with hprev
  set link := if n = u then slobNext h.units a else a + slobUnit * u with hlink
  have hnone : prev = none ↔ pre = [] := by simp [hprev]
  have hpart : p ∈ h.partials := (hinv.listed p).mpr ⟨hp, by simp [hfs]⟩
  have hlists := hinv.lists_take hp hpart hzero
  refine hinv.change (hinv.mem_range hp) (f := takePage prev link u) rfl (List.Perm.refl _) ?_ ?_
    (fun _ _ => Iff.rfl) (fun _ => ?_) ?_ ?_ ?_ ?_ ?_ ?_
  · intro hl
    have : (h.zone.page p).mapcount - u = pageBuddyMapcountValue := hl.1
    rw [hunits] at this
    unfold pageBuddyMapcountValue at this
    omega
  · intro b hb
    have hkept : ((h.zone.modifyPage p (takePage prev link u)).page b.1).priv = _ :=
      Zone.modifyPage_priv rfl b.1
    exact ⟨(hinv.large b hb).1, hkept.trans (hinv.large b hb).2⟩
  · refine pageInv_modifyPage hpage.priv ?_ hwf' hunits ?_
    · have hchain := chain_take hwf (hslob.chain hne) hpos hu h4
      simp only [← hnone] at hchain
      exact hchain
    · intro x hx
      have htile := hpage.tile x hx
      rw [hfs, fragCover_take hu] at htile
      rw [fragCover_cons]
      omega
  · intro x hx
    exact hcells x fun f hf => houtside f hf x hx
  · intro x hx
    have hnot : ¬ Frag.Has (a, u) x := fun hax => hx (inPage_of_has hblock.inside hax)
    rw [fragCover_cons, if_neg hnot, Nat.add_zero]
  · intro b hb
    rcases List.mem_cons.mp hb with rfl | hb
    · exact ⟨⟨p, hp, hblock⟩, takeCells_self prev hpos h4⟩
    · refine ⟨(hinv.small b hb).1, ?_⟩
      have hsame := hcells b.1 fun f hf => hinv.small_not_has hp hb hf (hinv.small_has hb)
      exact hsame.trans (hinv.small b hb).2
  · exact hlists.1
  · exact hlists.2
  · have hflag := htake.flag
    rw [slobTake_eq, Zone.modifyPage_self] at hflag
    exact hflag.trans ⟨fun hnil => ⟨hp, hnil⟩, fun hnil => hnil.2⟩

/-! ### Giving a block back -/

/-- Two small blocks have no byte in common. -/
theorem HeapInv.small_disjoint (hinv : HeapInv R h L S pages frags) {b c : Frag} (hb : b ∈ S)
    (hc : c ∈ S.erase b) {x : ℕ} (hx : b.Has x) : ¬ c.Has x := by
  intro hcx
  obtain ⟨⟨q, hq, hw⟩, -⟩ := hinv.small b hb
  have htile := (hinv.page q hq).tile x (inPage_of_has hw.inside hx)
  have hcover : fragCover S x = fragCover (b :: S.erase b) x :=
    (List.perm_cons_erase hb).countP_eq _
  have hpos : 0 < fragCover (S.erase b) x := fragCover_pos.mpr ⟨c, hc, hcx⟩
  rw [hcover, fragCover_cons, if_pos hx] at htile
  omega

/-- **Giving a block back** to a page that stays a slob page: the fragments `fs` have the
bytes of the old ones and of the block, and the page is on a list afterwards. -/
theorem HeapInv.give (hinv : HeapInv R h L S pages frags) (hp : p ∈ pages) {b u : ℕ}
    (hb : (b, u) ∈ S) (hw : BlockWf (pageAddress h.zone p) b u) {fs : List Frag} {m : ℕ → ℤ}
    {f : Page → Page} {l : SlobClass → List ℤ} (hfs : fs ≠ [])
    (hwf : FragsWf (pageAddress h.zone p) fs)
    (hchain : Chain m (f (h.zone.page p)).index fs (pageAddress h.zone p + pageSize))
    (hcover : ∀ x, fragCover fs x = fragCover (frags p) x + if Frag.Has (b, u) x then 1 else 0)
    (hcells : ∀ x, (∀ f ∈ frags p, ¬ f.Has x) → ¬ Frag.Has (b, u) x → m x = h.units x)
    (hpriv : (f (h.zone.page p)).priv = (h.zone.page p).priv)
    (hunits : (f (h.zone.page p)).mapcount = fragUnits fs)
    (hflag : pageSlob (f (h.zone.page p)) = true)
    (hl : ∀ q, q ∈ listedPages l ↔ q = p ∨ q ∈ h.partials) (hnd : (listedPages l).Nodup) :
    HeapInv R { h with zone := h.zone.modifyPage p f, units := m, freeSlob := l } L
      (S.erase (b, u)) pages (Function.update frags p fs) := by
  have hpage := hinv.page p hp
  refine hinv.change (hinv.mem_range hp) (f := f) rfl (List.Perm.refl _) ?_ ?_
    (fun _ _ => Iff.rfl) (fun _ => ?_) ?_ ?_ ?_ (fun q => ?_) hnd ?_
  · intro hl
    have := hl.1
    rw [hunits] at this
    unfold pageBuddyMapcountValue at this
    omega
  · intro c hc
    have hkept := Zone.modifyPage_priv hpriv c.1
    exact ⟨(hinv.large c hc).1, hkept.trans (hinv.large c hc).2⟩
  · refine pageInv_modifyPage (hpriv.trans hpage.priv) hchain hwf hunits ?_
    intro x hx
    have htile := hpage.tile x hx
    rw [fragCover_erase hb] at htile
    rw [hcover x]
    omega
  · intro x hx
    refine hcells x (fun f hf hfx => hx (inPage_of_has (hpage.wf.inside f hf) hfx)) ?_
    intro hbx
    exact hx (inPage_of_has hw.inside hbx)
  · intro x hx
    have hnot : ¬ Frag.Has (b, u) x := fun hbx => hx (inPage_of_has hw.inside hbx)
    rw [fragCover_erase hb, if_neg hnot, Nat.add_zero]
  · intro c hc
    have hcS := List.mem_of_mem_erase hc
    refine ⟨(hinv.small c hcS).1, ?_⟩
    have hsame : m c.1 = h.units c.1 :=
      hcells c.1 (fun f hf => hinv.small_not_has hp hcS hf (hinv.small_has hcS)) fun hbx =>
        hinv.small_disjoint hb hc hbx (hinv.small_has hcS)
    exact hsame.trans (hinv.small c hcS).2
  · refine (hl q).trans ?_
    by_cases hq : q = p
    · simp [hq, hp, hfs]
    · simp [hq]
  · exact ⟨fun _ => ⟨hp, hfs⟩, fun _ => hflag⟩

/-- A fragment of a page has as many bytes there as it has. -/
theorem sum_fragCover {B : ℕ} {fs : List Frag}
    (hin : ∀ f ∈ fs, B ≤ f.1 ∧ f.1 + slobUnit * f.2 ≤ B + pageSize) :
    ∑ x ∈ Finset.Ico B (B + pageSize), fragCover fs x = slobUnit * fragUnits fs := by
  induction fs with
  | nil => simp [fragUnits]
  | cons f fs ih =>
    have hf := hin f (by simp)
    have hfilter : (Finset.Ico B (B + pageSize)).filter f.Has =
        Finset.Ico f.1 (f.1 + slobUnit * f.2) := by
      ext x
      simp only [Finset.mem_filter, Finset.mem_Ico, Frag.Has]
      omega
    have hbytes : ∑ x ∈ Finset.Ico B (B + pageSize), (if f.Has x then 1 else 0) =
        slobUnit * f.2 := by
      rw [← Finset.card_filter, hfilter, Nat.card_Ico, Nat.add_sub_cancel_left]
    simp only [fragCover_cons, Finset.sum_add_distrib, hbytes,
      ih fun g hg => hin g (List.mem_cons_of_mem _ hg)]
    simp only [fragUnits, List.map_cons, List.sum_cons]
    ring

/-- The last block of a page: if it and the free fragments fill the page, no other small
block lies there. -/
theorem HeapInv.alone (hinv : HeapInv R h L S pages frags) (hp : p ∈ pages) {b u : ℕ}
    (hb : (b, u) ∈ S) (hw : BlockWf (pageAddress h.zone p) b u)
    (hfull : slobUnit * (fragUnits (frags p) + u) = pageSize) {c : Frag} (hc : c ∈ S.erase (b, u)) :
    ∃ q ∈ pages.erase p, BlockWf (pageAddress h.zone q) c.1 c.2 := by
  obtain ⟨⟨q, hq, hwc⟩, -⟩ := hinv.small c (List.mem_of_mem_erase hc)
  refine ⟨q, ?_, hwc⟩
  rw [hinv.pages_nodup.mem_erase_iff]
  refine ⟨?_, hq⟩
  intro hqp
  rw [hqp] at hwc
  have hle : ∑ x ∈ Finset.Ico (pageAddress h.zone p) (pageAddress h.zone p + pageSize),
      fragCover ((b, u) :: c :: frags p) x ≤
      ∑ x ∈ Finset.Ico (pageAddress h.zone p) (pageAddress h.zone p + pageSize), 1 := by
    apply Finset.sum_le_sum
    intro x hx
    rw [Finset.mem_Ico] at hx
    have htile := (hinv.page p hp).tile x hx
    rw [fragCover_erase hb, fragCover_erase hc] at htile
    simp only [fragCover_cons]
    omega
  rw [sum_fragCover, ← Finset.card_eq_sum_ones, Nat.card_Ico, Nat.add_sub_cancel_left] at hle
  · have hpos := hwc.aligned.2.2
    simp only [fragUnits, List.map_cons, List.sum_cons] at hle hfull
    unfold slobUnit at *
    omega
  · intro f hf
    rcases List.mem_cons.mp hf with rfl | hf
    · exact hw.inside
    · rcases List.mem_cons.mp hf with rfl | hf
      · exact hwc.inside
      · exact (hinv.page p hp).wf.inside f hf

/-- The descriptor of a slob page about to be handed back. -/
def releasePage (g : Page) : Page :=
  { g with flags := Bitops.clearBit pgSlobFree g.flags, mapcount := -1 }

/-- **Emptying a page**: it is a slob page no more. -/
theorem HeapInv.release (hinv : HeapInv R h L S pages frags) (hp : p ∈ pages) {b u : ℕ}
    (hb : (b, u) ∈ S) (hw : BlockWf (pageAddress h.zone p) b u)
    (hfull : slobUnit * (fragUnits (frags p) + u) = pageSize) :
    HeapInv R { h with
        zone := h.zone.modifyPage p releasePage
        freeSlob := fun c => (h.freeSlob c).erase p } ((p, 0) :: L) (S.erase (b, u))
      (pages.erase p) (Function.update frags p []) := by
  have hpage := hinv.page p hp
  have hlists := listedPages_erase hinv.nodup p
  refine hinv.change (hinv.mem_range hp) (f := releasePage) rfl ?_ ?_ ?_ (fun q hq => ?_)
    (fun hmem => absurd hmem hinv.pages_nodup.not_mem_erase) (fun _ _ => rfl) ?_ ?_ ?_ hlists.2 ?_
  · have hperm := (List.perm_cons_erase hp).map fun p => ((p, 0) : Block)
    exact (hperm.append_left L).trans List.perm_middle
  · exact fun hl => absurd hl.1 (by simp [releasePage, pageBuddyMapcountValue])
  · intro c hc
    have hkept : ((h.zone.modifyPage p releasePage).page c.1).priv = _ :=
      Zone.modifyPage_priv rfl c.1
    refine ⟨?_, hkept.trans ?_⟩
    · rcases List.mem_cons.mp hc with rfl | hc
      · exact Nat.succ_pos _
      · exact (hinv.large c hc).1
    · rcases List.mem_cons.mp hc with rfl | hc
      · exact hpage.priv
      · exact (hinv.large c hc).2
  · rw [hinv.pages_nodup.mem_erase_iff]
    exact ⟨fun hmem => hmem.2, fun hmem => ⟨hq, hmem⟩⟩
  · intro x hx
    have hnot : ¬ Frag.Has (b, u) x := fun hbx => hx (inPage_of_has hw.inside hbx)
    rw [fragCover_erase hb, if_neg hnot, Nat.add_zero]
  · intro c hc
    exact ⟨hinv.alone hp hb hw hfull hc, (hinv.small c (List.mem_of_mem_erase hc)).2⟩
  · intro q
    rw [show (q ∈ Heap.partials _) = (q ∈ listedPages fun c => (h.freeSlob c).erase p) from rfl,
      hlists.1 q]
    by_cases hq : q = p
    · simp [hq]
    · simp [hq, Heap.partials]
  · unfold pageSlob releasePage
    rw [Bitops.testBit_clearBit (by decide) (by decide)]
    simp

/-- The descriptor of a new slob page at address `b`. -/
def adoptPage (b : ℕ) (g : Page) : Page :=
  { g with
    mapcount := slobUnitsOf pageSize
    index := b
    flags := Bitops.setBit pgSlobFree g.flags }

/-- **A new slob page**: one fragment as large as the page. -/
theorem HeapInv.adopt (hinv : HeapInv R h ((p, 0) :: L) S pages frags) (c : SlobClass) :
    HeapInv R { h with
        zone := h.zone.modifyPage p (adoptPage (pageAddress h.zone p))
        units := setSlob h.units (pageAddress h.zone p) (slobUnitsOf pageSize)
          (pageAddress h.zone p + pageSize)
        freeSlob := fun d => if d = c then p :: h.freeSlob d else h.freeSlob d } L S (p :: pages)
      (Function.update frags p [(pageAddress h.zone p, slobUnitsOf pageSize)]) := by
  have hmem : (p, 0) ∈ h.zone.freeBlocks ++ ((p, 0) :: L ++ pages.map fun p => (p, 0)) := by simp
  have hrange : 0 ≤ p ∧ p < h.zone.spannedPages := by
    have := hinv.buddy.tiles.mem_range hmem (Block.has_head _)
    simp only at this
    omega
  -- the block is held, so its page is no slob page yet
  have hnotin : p ∉ pages := by
    intro hp
    have hnd := hinv.buddy.tiles.nodup
    rw [List.nodup_append] at hnd
    have := (List.nodup_cons.mp hnd.2.1).1
    simp [hp] at this
  have hpart : p ∉ h.partials := fun hp => hnotin ((hinv.listed p).mp hp).1
  have hbase := hinv.placed.pageAddress_mod hrange.1 hrange.2
  set b := pageAddress h.zone p with hb
  have hsize : slobUnitsOf pageSize = 2048 := rfl
  have hone : (1 : ℤ) < (slobUnitsOf pageSize : ℕ) := by
    rw [hsize]
    decide
  have hcells : ∀ x, ¬ InPage h.zone p x →
      setSlob h.units b (slobUnitsOf pageSize) (b + pageSize) x = h.units x := by
    intro x hx
    unfold InPage pageSize at hx
    refine setSlob_of_ne _ hone ?_ ?_
    · omega
    · unfold slobUnit
      omega
  -- the small blocks lie in the slob pages
  have hsmall : ∀ s ∈ S, ∀ x, InPage h.zone p x → ¬ s.Has x := by
    intro s hs x hx hsx
    obtain ⟨⟨q, hq, hw⟩, -⟩ := hinv.small s hs
    have hne : q ≠ p := fun e => hnotin (e ▸ hq)
    exact hinv.not_inPage hrange hq hne (inPage_of_has hw.inside hsx) hx
  have hlists := hinv.lists_push c hpart
  refine hinv.change hrange (f := adoptPage b) rfl ?_ ?_ ?_ (fun q hq => ?_) (fun _ => ?_) hcells
    (fun _ _ => rfl) ?_ ?_ hlists.2 ?_
  · exact List.perm_middle.symm
  · exact fun hl => absurd hl.1 (by simp [adoptPage, pageBuddyMapcountValue, slobUnitsOf, pageSize,
      slobUnit])
  · intro s hs
    have hs' := hinv.large s (List.mem_cons_of_mem _ hs)
    have hkept : ((h.zone.modifyPage p (adoptPage b)).page s.1).priv = _ :=
      Zone.modifyPage_priv rfl s.1
    exact ⟨hs'.1, hkept.trans hs'.2⟩
  · simp [hq]
  · have heven : (b + pageSize) % 2 = 0 := by
      unfold pageSize at *
      omega
    refine pageInv_modifyPage (hinv.large (p, 0) (by simp)).2
      (chain_singleton h.units (by decide) heven) (fragsWf_page hbase) ?_ ?_
    · rw [fragUnits, List.map_singleton, List.sum_singleton]
      rfl
    · intro x hx
      have hx' : InPage h.zone p x := hx
      have hzero : fragCover S x = 0 := by
        by_contra hne
        obtain ⟨s, hs, hsx⟩ := fragCover_pos.mp (Nat.pos_of_ne_zero hne)
        exact hsmall s hs x hx' hsx
      have hhas : Frag.Has (b, slobUnitsOf pageSize) x := by
        unfold Frag.Has
        rw [slobUnit_mul_page]
        exact hx'
      rw [hzero, fragCover_cons, fragCover_nil, if_pos hhas]
  · intro s hs
    obtain ⟨⟨q, hq, hw⟩, hu⟩ := hinv.small s hs
    refine ⟨⟨q, List.mem_cons_of_mem _ hq, hw⟩, ?_⟩
    have hsx := hinv.small_has hs
    exact (hcells s.1 fun hx => hsmall s hs s.1 hx hsx).trans hu
  · intro q
    rw [show (q ∈ Heap.partials _) = (q ∈ listedPages fun d =>
      if d = c then p :: h.freeSlob d else h.freeSlob d) from rfl, hlists.1 q]
    by_cases hq : q = p
    · simp [hq]
    · simp [hq]
  · unfold pageSlob adoptPage
    dsimp only
    rw [Bitops.testBit_setBit (by decide) (by decide)]
    simp

end Operations

end YakOS
