import YakOS.Mm.HeapInv

/-!
# `kmalloc` and `kfree` keep the invariant

The operations of the heap, from the search through the lists up to `kmalloc` and
`kfree`.  An allocation turns free bytes into a block, whatever the state of the
heap.  Giving a small block back needs the dispatch of `kfree` to be right; giving
the last one of a page back hands the page to the page allocator with an `index`
that is an address, and what the merge loop then looks at is not known to lie in the
zone.

## Main definitions

* `Grows` — what an operation that hands no page back leaves alone.
* `KBlock` — a block handed out; `smalls`, `larges` sort them by kind.
* `KBlock.Dispatched`, `KBlock.Leaves` — `kfree` recognises the block; the block is not
  the last one of its page.

## Main results

* `HeapInv.slobAlloc`, `HeapInv.kmalloc` — allocation.
* `HeapInv.slobFree_stays`, `HeapInv.slobFree_empties` — the two ends of `slob_free`.
* `HeapInv.kfree_small`, `HeapInv.kfree_small_stays`, `HeapInv.kfree_large` — `kfree`.
-/

namespace YakOS

open Buddy

/-! ### The operations keep the invariant -/

/-- The zone stays where it is. -/
structure Zone.SamePlace (z z' : Zone) : Prop where
  memmapPages : z'.memmapPages = z.memmapPages
  spannedPages : z'.spannedPages = z.spannedPages

theorem Zone.SamePlace.refl (z : Zone) : z.SamePlace z := ⟨rfl, rfl⟩

theorem Zone.SamePlace.trans {z z' z'' : Zone} (g : z.SamePlace z') (g' : z'.SamePlace z'') :
    z.SamePlace z'' :=
  ⟨g'.memmapPages.trans g.memmapPages, g'.spannedPages.trans g.spannedPages⟩

/-- What an operation that hands no page back leaves alone: slob pages stay slob pages,
and the `index` of any other page is not written. -/
structure Grows (h h' : Heap) (pages pages' : List ℤ) : Prop where
  sub : ∀ q ∈ pages, q ∈ pages'
  index : ∀ q, q ∉ pages' → (h'.zone.page q).index = (h.zone.page q).index
  place : h.zone.SamePlace h'.zone
  handed : h'.handedBack = h.handedBack

theorem Grows.refl (h : Heap) (pages : List ℤ) : Grows h h pages pages :=
  ⟨fun _ hq => hq, fun _ _ => rfl, Zone.SamePlace.refl _, rfl⟩

theorem Grows.trans {h h' h'' : Heap} {pages pages' pages'' : List ℤ}
    (g : Grows h h' pages pages') (g' : Grows h' h'' pages' pages'') :
    Grows h h'' pages pages'' where
  sub q hq := g'.sub q (g.sub q hq)
  index q hq := (g'.index q hq).trans (g.index q fun hq' => hq (g'.sub q hq'))
  place := g.place.trans g'.place
  handed := g'.handed.trans g.handed

/-- Writing the descriptor of a slob page, the cells and the lists. -/
theorem Grows.modifyPage {h : Heap} {pages pages' : List ℤ} {p : ℤ} (hp : p ∈ pages')
    (hsub : ∀ q ∈ pages, q ∈ pages') (f : Page → Page) (m : ℕ → ℤ) (l : SlobClass → List ℤ) :
    Grows h { h with zone := h.zone.modifyPage p f, units := m, freeSlob := l } pages pages' where
  sub := hsub
  index q hq := by
    have hqp : q ≠ p := fun e => hq (e ▸ hp)
    rw [Zone.modifyPage_of_ne _ _ hqp]
  place := ⟨rfl, rfl⟩
  handed := rfl

section Operations

variable {R : ℤ → Prop} {h h' : Heap} {L L' : List Block} {S S' : List Frag} {pages : List ℤ}
  {frags : ℤ → List Frag} {p : ℤ}

/-- The order of the blocks handed out and of the lists does not matter. -/
theorem HeapInv.perm (hinv : HeapInv R h L S pages frags) (hL : L.Perm L') (hS : S.Perm S') :
    HeapInv R h L' S' pages frags where
  buddy := hinv.buddy.perm (hL.append_right _)
  placed := hinv.placed
  large b hb := hinv.large b (hL.mem_iff.mpr hb)
  page q hq := (hinv.page q hq).congr rfl rfl (fun _ _ => rfl) fun _ _ => (hS.countP_eq _).symm
  small b hb := hinv.small b (hS.mem_iff.mpr hb)
  listed := hinv.listed
  nodup := hinv.nodup
  flags := hinv.flags

theorem HeapInv.relist (hinv : HeapInv R h L S pages frags) {l : SlobClass → List ℤ}
    (hl : ∀ c, (l c).Perm (h.freeSlob c)) :
    HeapInv R { h with freeSlob := l } L S pages frags := by
  have hperm : (listedPages l).Perm h.partials := ((hl _).append (hl _)).append (hl _)
  exact
    { hinv with
      page := fun q hq => (hinv.page q hq).congr rfl rfl (fun _ _ => rfl) fun _ _ => rfl
      listed := fun q => (hperm.mem_iff).trans (hinv.listed q)
      nodup := hperm.nodup_iff.mpr hinv.nodup
      flags := fun q h₀ h₁ => (hinv.flags q h₀ h₁).trans hperm.mem_iff.symm }

/-- `slob_page_alloc` on a page that is on one of the lists. -/
theorem HeapInv.slobPageAlloc (hinv : HeapInv R h L S pages frags) (hp : p ∈ h.partials)
    {size r : ℕ} (hpos : 0 < slobUnitsOf size) (h4 : slobUnitsOf size % 4 = 0)
    (hr : slobPageAlloc h p size archSlobMinalign = some (r, h')) :
    ∃ a frags', r = a + archSlobMinalign ∧
      HeapInv R h' L ((a, slobUnitsOf size) :: S) pages frags' ∧ Grows h h' pages pages := by
  obtain ⟨hpages, hne⟩ := (hinv.listed p).mp hp
  have hpage := hinv.page p hpages
  rcases slobPageAlloc_eq size hpage.wf hpage.chain hne with hfound | hnone
  · obtain ⟨pre, a, n, post, hfs, -, hn, heq⟩ := hfound
    rw [heq] at hr
    obtain ⟨rfl, rfl⟩ : a + archSlobMinalign = r ∧ slobTake h p _ _ a n = h' := by simpa using hr
    refine ⟨a, _, rfl, hinv.take hpages hfs hpos hn h4, ?_⟩
    rw [slobTake_eq]
    exact Grows.modifyPage hpages (fun _ hq => hq) _ _ _
  · rw [hnone.2] at hr
    cases hr

/-- The search through a list. -/
theorem HeapInv.slobScan (hinv : HeapInv R h L S pages frags) {size r : ℕ} {c : SlobClass}
    (hpos : 0 < slobUnitsOf size) (h4 : slobUnitsOf size % 4 = 0) {before after : List ℤ}
    (hafter : ∀ q ∈ after, q ∈ h.partials)
    (hr : slobScan h c size archSlobMinalign before after = some (r, h')) :
    ∃ a frags', r = a + archSlobMinalign ∧
      HeapInv R h' L ((a, slobUnitsOf size) :: S) pages frags' ∧ Grows h h' pages pages := by
  induction after generalizing before with
  | nil => cases hr
  | cons sp after ih =>
    have hrest : ∀ q ∈ after, q ∈ h.partials := fun q hq => hafter q (List.mem_cons_of_mem _ hq)
    unfold YakOS.slobScan at hr
    split at hr
    · exact ih hrest hr
    · split at hr
      · exact ih hrest hr
      · rename_i b h₁ halloc
        obtain ⟨a, frags', hb, hinv', hgrows⟩ :=
          hinv.slobPageAlloc (hafter sp (by simp)) hpos h4 halloc
        dsimp only at hr
        obtain ⟨rfl, rfl⟩ := Prod.mk.inj (Option.some.inj hr)
        refine ⟨a, frags', hb, hinv'.relist fun d => ?_, ?_⟩
        · -- moving the head of the list turns it around
          by_cases hd : d = c
          · subst hd
            rw [if_pos rfl]
            split
            · exact List.perm_append_comm.trans (List.Perm.of_eq (List.take_append_drop _ _))
            · exact List.Perm.refl _
          · rw [if_neg hd]
        · exact ⟨hgrows.sub, hgrows.index, hgrows.place, hgrows.handed⟩

/-- `alloc_pages`: a large block for the moment. -/
theorem HeapInv.allocPages (hinv : HeapInv R h L S pages frags) {size : ℕ} {z' : Zone}
    (ha : allocPages h.zone size = some (p, z')) :
    HeapInv R { h with zone := z' } ((p, getOrder size) :: L) S pages frags ∧
      Grows h { h with zone := z' } pages pages ∧ (z'.page p).priv = getOrder size := by
  obtain ⟨k, -, hle, hk, hp, rfl⟩ := allocPages_eq_some ha
  obtain ⟨hbuddy, hpage, hframe⟩ := buddyInv_rmqueueTake hinv.buddy hle hk hp
  have htiles := (Tiles.perm List.perm_middle).mp (hinv.buddy.take hk hp).tiles
  -- what is handed out does not lie in the free block that was split
  have hkeep : ∀ b ∈ L ++ pages.map (fun p => ((p, 0) : Block)), ¬ Block.Has (p, k) b.1 :=
    fun b hb hhas => htiles.disjoint_of_cons (List.mem_append_right _ hb) hhas (Block.has_head b)
  refine ⟨hinv.reframe hframe (fun q hq => ?_) hbuddy fun b hb => ?_,
    ⟨fun _ hq => hq, fun q _ => hframe.index q, ⟨hframe.memmapPages, hframe.spannedPages⟩, rfl⟩, by rw [hpage]⟩
  · exact hkeep (q, 0) (by simp [hq])
  · rcases List.mem_cons.mp hb with rfl | hb
    · exact ⟨hle.trans_lt hk, by rw [hpage]⟩
    · rw [hframe.page b.1 (hkeep b (by simp [hb]))]
      exact hinv.large b hb

theorem HeapInv.mem_range_large (hinv : HeapInv R h L S pages frags) {b : Block} (hb : b ∈ L) :
    0 ≤ b.1 ∧ b.1 < h.zone.spannedPages := by
  have hmem : b ∈ h.zone.freeBlocks ++ (L ++ pages.map fun p => (p, 0)) := by simp [hb]
  have := hinv.buddy.tiles.mem_range hmem (Block.has_head b)
  omega

/-- The address of a large block leads to its page. -/
theorem HeapInv.virtToPage_large (hinv : HeapInv R h L S pages frags) {b : Block} (hb : b ∈ L) :
    virtToPage h.zone (pageAddress h.zone b.1) = some b.1 := by
  obtain ⟨h₀, h₁⟩ := hinv.mem_range_large hb
  exact virtToPage_pageAddress hinv.placed.aligned hinv.placed.fits h₀ h₁

/-- The result of an allocation of a small block. -/
def SmallResult (R : ℤ → Prop) (h : Heap) (L : List Block) (S : List Frag) (pages : List ℤ)
    (u : ℕ) (r : Option ℕ × Heap) : Prop :=
  ∃ pages' frags', Grows h r.2 pages pages' ∧
    match r.1 with
    | none => HeapInv R r.2 L S pages' frags'
    | some addr => ∃ a, addr = a + archSlobMinalign ∧ HeapInv R r.2 L ((a, u) :: S) pages' frags'

/-- The heap after `slob_alloc` has made the page `p` a slob page. -/
def adoptHeap (h : Heap) (p : ℤ) (c : SlobClass) : Heap :=
  { h with
    zone := h.zone.modifyPage p (adoptPage (pageAddress h.zone p))
    units := setSlob h.units (pageAddress h.zone p) (slobUnitsOf pageSize)
      (pageAddress h.zone p + pageSize)
    freeSlob := fun d => if d = c then p :: h.freeSlob d else h.freeSlob d }

theorem slobNewPage_eq {h : Heap} {size align : ℕ} {p : ℤ} {z' : Zone}
    (ha : allocPages h.zone (pageSize - 1) = some (p, z'))
    (hp : virtToPage z' (pageAddress z' p) = some p) :
    slobNewPage h size align =
      let h₁ := adoptHeap { h with zone := z' } p (slobClass size)
      ((slobPageAlloc h₁ p size align).map Prod.fst,
        ((slobPageAlloc h₁ p size align).map Prod.snd).getD h₁) := by
  have hzone : z'.modifyPage p (adoptPage (pageAddress z' p)) =
      (z'.modifyPage p fun g =>
        { g with mapcount := slobUnitsOf pageSize, index := pageAddress z' p }).modifyPage p
        fun g => { g with flags := Bitops.setBit pgSlobFree g.flags } := by
    rw [Zone.modifyPage_modifyPage]
    rfl
  unfold slobNewPage slobNewPages adoptHeap
  simp only [ha, Option.map_some, hp, hzone]
  split
  · rename_i hnone
    erw [hnone]
    rfl
  · rename_i hsome
    erw [hsome]
    rfl

theorem Grows.adopt (h : Heap) (pages : List ℤ) (p : ℤ) (c : SlobClass) :
    Grows h (adoptHeap h p c) pages (p :: pages) :=
  Grows.modifyPage List.mem_cons_self (fun _ hq => List.mem_cons_of_mem _ hq) _ _ _

/-- A new page for a small block. -/
theorem HeapInv.slobNewPage (hinv : HeapInv R h L S pages frags) {size : ℕ}
    (hpos : 0 < slobUnitsOf size) (h4 : slobUnitsOf size % 4 = 0) :
    SmallResult R h L S pages (slobUnitsOf size) (slobNewPage h size archSlobMinalign) := by
  cases ha : YakOS.allocPages h.zone (pageSize - 1) with
  | none =>
    have hnone : YakOS.slobNewPage h size archSlobMinalign = (none, h) := by
      simp [YakOS.slobNewPage, slobNewPages, ha]
    rw [hnone]
    exact ⟨pages, frags, Grows.refl h pages, hinv⟩
  | some r =>
    obtain ⟨p, z'⟩ := r
    obtain ⟨hinv₁, hgrows₁, -⟩ := hinv.allocPages ha
    rw [show getOrder (pageSize - 1) = 0 by decide] at hinv₁
    have hadopt := hinv₁.adopt (slobClass size)
    have hgrows₂ := hgrows₁.trans (Grows.adopt { h with zone := z' } pages p (slobClass size))
    have hmem : p ∈ (adoptHeap { h with zone := z' } p (slobClass size)).partials :=
      (hadopt.listed p).mpr ⟨by simp, by simp⟩
    rw [slobNewPage_eq ha (hinv₁.virtToPage_large (b := (p, 0)) (by simp))]
    cases hb : YakOS.slobPageAlloc (adoptHeap { h with zone := z' } p (slobClass size)) p size
        archSlobMinalign with
    | none =>
      simp only [hb]
      exact ⟨p :: pages, _, hgrows₂, hadopt⟩
    | some r =>
      obtain ⟨a, frags', hr, hinv', hgrows'⟩ := hadopt.slobPageAlloc hmem hpos h4 hb
      simp only [hb]
      exact ⟨p :: pages, frags', hgrows₂.trans hgrows', a, hr, hinv'⟩

/-- `slob_alloc`. -/
theorem HeapInv.slobAlloc (hinv : HeapInv R h L S pages frags) {size : ℕ}
    (hpos : 0 < slobUnitsOf size) (h4 : slobUnitsOf size % 4 = 0) :
    SmallResult R h L S pages (slobUnitsOf size) (slobAlloc h size archSlobMinalign) := by
  unfold YakOS.slobAlloc
  have hlisted : ∀ q ∈ h.freeSlob (slobClass size), q ∈ h.partials := by
    intro q hq
    unfold Heap.partials listedPages
    cases hc : slobClass size <;> simp_all
  split
  · rename_i b h' hscan
    obtain ⟨a, frags', hr, hinv', hgrows⟩ := hinv.slobScan hpos h4 hlisted hscan
    exact ⟨pages, frags', hgrows, a, hr, hinv'⟩
  · exact hinv.slobNewPage hpos h4

end Operations

/-! ### Blocks -/

/-- A block handed out by `kmalloc`: its header and the units recorded there, or its
first page and its order. -/
inductive KBlock
  | small (header units : ℕ)
  | large (page : ℤ) (order : ℕ)
  deriving DecidableEq, Repr

namespace KBlock

/-- The fragment that is a small block. -/
def frag? : KBlock → Option Frag
  | small a u => some (a, u)
  | large _ _ => none

/-- The pages that are a large block. -/
def block? : KBlock → Option Block
  | small _ _ => none
  | large p k => some (p, k)

/-- The pointer the caller has. -/
def pointer (z : Zone) : KBlock → ℕ
  | small a _ => a + archSlobMinalign
  | large p _ => pageAddress z p

end KBlock

/-- The small blocks among those handed out. -/
def smalls (live : List KBlock) : List Frag := live.filterMap KBlock.frag?

/-- The large blocks among those handed out. -/
def larges (live : List KBlock) : List Block := live.filterMap KBlock.block?

/-- The block behind the pointer that `kmalloc(size)` has returned: a small one has the
units its header records, a large one the order its descriptor records. -/
def blockAt (h : Heap) (size addr : ℕ) : KBlock :=
  if kmallocSize size < pageSize then
    .small (addr - archSlobMinalign) (slobUnits h.units (addr - archSlobMinalign)).toNat
  else
    let p := (virtToPage h.zone addr).getD 0
    .large p (h.zone.page p).priv

/-- A small request is a positive number of eight bytes. -/
theorem kmallocSize_units {size : ℕ} (h₀ : kmallocSize size ≠ 0) :
    0 < slobUnitsOf (kmallocSize size) ∧ slobUnitsOf (kmallocSize size) % 4 = 0 := by
  have h8 : kmallocSize size % 8 = 0 := by
    unfold kmallocSize archSlobMinalign
    omega
  unfold slobUnitsOf slobUnit
  omega

section

variable {R : ℤ → Prop} {h h' : Heap} {live : List KBlock} {pages : List ℤ}
  {frags : ℤ → List Frag} {size : ℕ}

/-- `kmalloc` of a small block. -/
theorem HeapInv.kmalloc_small (hinv : HeapInv R h (larges live) (smalls live) pages frags)
    (hsmall : kmallocSize size < pageSize) (h₀ : kmallocSize size ≠ 0) {r : Option ℕ}
    (hr : YakOS.slobAlloc h (kmallocSize size) archSlobMinalign = (r, h')) :
    ∃ pages' frags', Grows h h' pages pages' ∧
      HeapInv R h' (larges (r.toList.map (blockAt h' size) ++ live))
        (smalls (r.toList.map (blockAt h' size) ++ live)) pages' frags' := by
  obtain ⟨hpos, h4⟩ := kmallocSize_units h₀
  obtain ⟨pages', frags', hgrows, hres⟩ := hinv.slobAlloc hpos h4
  rw [hr] at hgrows hres
  refine ⟨pages', frags', hgrows, ?_⟩
  cases r with
  | none => exact hres
  | some addr =>
    obtain ⟨a, rfl, hinv'⟩ := hres
    -- the header of the block records its size
    have hunits := (hinv'.small _ List.mem_cons_self).2
    have hblock : blockAt h' size (a + archSlobMinalign) =
        .small a (slobUnitsOf (kmallocSize size)) := by
      unfold blockAt
      rw [if_pos hsmall, Nat.add_sub_cancel, slobUnits_of_eq h'.units hunits hpos,
        Int.toNat_natCast]
    rw [Option.toList_some, List.map_singleton, hblock]
    exact hinv'

/-- `kmalloc` of a large block. -/
theorem HeapInv.kmalloc_large (hinv : HeapInv R h (larges live) (smalls live) pages frags)
    (hlarge : ¬ kmallocSize size < pageSize) {z' : Zone} {p : ℤ}
    (ha : YakOS.allocPages h.zone (kmallocSize size) = some (p, z')) :
    Grows h { h with zone := z' } pages pages ∧
      HeapInv R { h with zone := z' }
        (larges (blockAt { h with zone := z' } size (pageAddress z' p) :: live))
        (smalls (blockAt { h with zone := z' } size (pageAddress z' p) :: live)) pages frags := by
  obtain ⟨hinv', hgrows, hpriv⟩ := hinv.allocPages ha
  refine ⟨hgrows, ?_⟩
  have hvirt := hinv'.virtToPage_large List.mem_cons_self
  generalize getOrder (kmallocSize size) = k at *
  have hblock : blockAt { h with zone := z' } size (pageAddress z' p) = .large p k := by
    unfold blockAt
    simp only at hvirt
    rw [if_neg hlarge]
    simp only [hvirt, Option.getD_some, hpriv]
  rw [hblock]
  exact hinv'

/-- What `kmalloc` can do. -/
theorem kmalloc_cases {r : Option ℕ} (hr : kmalloc h size = (r, h')) :
    (r = none ∧ h' = h) ∨
    (kmallocSize size < pageSize ∧ kmallocSize size ≠ 0 ∧
      slobAlloc h (kmallocSize size) archSlobMinalign = (r, h')) ∨
    (¬ kmallocSize size < pageSize ∧ ∃ p z', allocPages h.zone (kmallocSize size) = some (p, z') ∧
      r = some (pageAddress z' p) ∧ h' = { h with zone := z' }) := by
  have hstay : (none, h) = (r, h') → r = none ∧ h' = h := fun e =>
    ⟨(congrArg Prod.fst e).symm, (congrArg Prod.snd e).symm⟩
  rw [kmalloc] at hr
  generalize kmallocSize size = n at *
  split at hr
  · exact Or.inl (hstay hr)
  · split at hr
    · rename_i hsmall
      split at hr
      · exact Or.inl (hstay hr)
      · rename_i h₀
        exact Or.inr (Or.inl ⟨hsmall, h₀, hr⟩)
    · rename_i hlarge
      split at hr
      · exact Or.inl (hstay hr)
      · rename_i b h'' hnew
        obtain ⟨⟨p, z'⟩, ha, hb⟩ := Option.map_eq_some_iff.mp hnew
        obtain ⟨rfl, rfl⟩ := Prod.mk.inj hr
        obtain ⟨rfl, rfl⟩ := Prod.mk.inj hb
        exact Or.inr (Or.inr ⟨hlarge, p, z', ha, rfl, rfl⟩)

/-- **`kmalloc`** hands out a block that was free. -/
theorem HeapInv.kmalloc {r : Option ℕ}
    (hinv : HeapInv R h (larges live) (smalls live) pages frags)
    (hr : YakOS.kmalloc h size = (r, h')) :
    ∃ pages' frags', Grows h h' pages pages' ∧
      HeapInv R h' (larges (r.toList.map (blockAt h' size) ++ live))
        (smalls (r.toList.map (blockAt h' size) ++ live)) pages' frags' := by
  obtain ⟨rfl, rfl⟩ | ⟨hsmall, h₀, ha⟩ | ⟨hlarge, p, z', ha, rfl, rfl⟩ := kmalloc_cases hr
  · exact ⟨pages, frags, Grows.refl _ _, hinv⟩
  · exact hinv.kmalloc_small hsmall h₀ ha
  · exact ⟨pages, frags, hinv.kmalloc_large hlarge ha⟩

end

/-! ### Giving a small block back -/

section SlobFree

variable {R : ℤ → Prop} {h : Heap} {L : List Block} {S : List Frag} {pages : List ℤ}
  {frags : ℤ → List Frag} {p : ℤ} {b u : ℕ}

theorem HeapInv.virtToPage_small (hinv : HeapInv R h L S pages frags) (hp : p ∈ pages)
    (hw : BlockWf (pageAddress h.zone p) b u) : virtToPage h.zone b = some p := by
  obtain ⟨h₀, h₁⟩ := hinv.mem_range hp
  have hin := hw.inside
  have hpos := hw.aligned.2.2
  unfold slobUnit at hin
  exact virtToPage_eq hinv.placed.aligned hinv.placed.fits h₀ h₁ hin.1 (by omega)

/-- A small block lies before or after every fragment of its page. -/
theorem HeapInv.small_apart (hinv : HeapInv R h L S pages frags) (hp : p ∈ pages)
    (hb : (b, u) ∈ S) (hw : BlockWf (pageAddress h.zone p) b u) {f : Frag} (hf : f ∈ frags p) :
    f.1 + slobUnit * f.2 ≤ b ∨ b + slobUnit * u ≤ f.1 :=
  Frag.apart (f := (b, u)) hw.aligned.2.2 ((hinv.page p hp).wf.aligned f hf).2.2
    fun _ hx => hinv.small_not_has hp hb hf hx

/-- **`slob_free`** of a block that is not the last one of its page. -/
theorem HeapInv.slobFree_stays (hinv : HeapInv R h L S pages frags) (hp : p ∈ pages)
    (hb : (b, u) ∈ S) (hw : BlockWf (pageAddress h.zone p) b u)
    (hmore : fragUnits (frags p) + u ≠ slobUnitsOf pageSize) :
    ∃ fs, HeapInv R (YakOS.slobFree h b (slobUnit * u)) L (S.erase (b, u)) pages
        (Function.update frags p fs) ∧
      Grows h (YakOS.slobFree h b (slobUnit * u)) pages pages := by
  have hunits : (h.zone.page p).mapcount + (u : ℤ) ≠ slobUnitsOf pageSize := by
    rw [(hinv.page p hp).units]
    exact_mod_cast hmore
  obtain ⟨fs, f, m, l, heq, hgive, hlists⟩ := (hinv.slobPage hp).slobFree hw
    (hinv.virtToPage_small hp hw) (fun g hg => hinv.small_apart hp hb hw hg) hunits
  have hl : (∀ q, q ∈ listedPages l ↔ q = p ∨ q ∈ h.partials) ∧ (listedPages l).Nodup := by
    rcases hlists with ⟨hne, rfl⟩ | ⟨hfull, c, rfl⟩
    · have hpart : p ∈ h.partials := (hinv.listed p).mpr ⟨hp, hne⟩
      exact ⟨fun q => ⟨Or.inr, fun hq => hq.elim (fun e => e ▸ hpart) id⟩, hinv.nodup⟩
    · exact hinv.lists_push c fun hmem => ((hinv.listed p).mp hmem).2 hfull
  rw [heq]
  refine ⟨fs, ?_, Grows.modifyPage hp (fun _ hq => hq) f m l⟩
  exact hinv.give hp hb hw hgive.ne_nil hgive.wf hgive.chain hgive.cover hgive.cells hgive.priv
    hgive.units hgive.flag hl.1 hl.2

/-! ### Giving pages back -/

/-- **`free_pages`** of a block of pages. -/
theorem HeapInv.freePages (hinv : HeapInv R h L S pages frags) {k : ℕ} (hp : (p, k) ∈ L) {a : ℕ}
    (ha : virtToPage h.zone a = some p) (ha₀ : a ≠ 0)
    (hR : ∀ n : ℕ, MergeRange h.zone.usedPages h.zone.spannedPages (n + (p - (h.zone.page p).index)) →
      R (n + (p - (h.zone.page p).index))) :
    HeapInv R (h.freePages a) (L.erase (p, k)) S pages frags ∧
      (∀ q, ((h.freePages a).zone.page q).index = (h.zone.page q).index) ∧
      h.zone.SamePlace (h.freePages a).zone ∧
      (h.freePages a).handedBack = h.handedBack ++ [(p, (h.zone.page p).index)] := by
  obtain ⟨hk, hpriv⟩ := hinv.large _ hp
  have hheap : h.freePages a =
      { h with
        zone := freeOnePage h.zone p k
        handedBack := h.handedBack ++ [(p, (h.zone.page p).index)] } := by
    unfold Heap.freePages YakOS.freePages
    simp only [if_neg ha₀, ha, hpriv, Option.map_some, Option.toList_some]
  have hperm : (L ++ pages.map fun p => ((p, 0) : Block)).Perm
      ((p, k) :: (L.erase (p, k) ++ pages.map fun p => (p, 0))) :=
    (List.perm_cons_erase hp).append_right _
  obtain ⟨hbuddy, hframe⟩ := buddyInv_freeOnePage (hinv.buddy.perm hperm) hk hR
  have hkeep := fun b hb => (hinv.buddy.perm hperm).held_apart (c := b) hb
  rw [hheap]
  refine ⟨hinv.reframe hframe (fun q hq => ?_) hbuddy fun b hb => ?_, hframe.index,
    ⟨hframe.memmapPages, hframe.spannedPages⟩, rfl⟩
  · exact hkeep (q, 0) (by simp [hq])
  · rw [hframe.page b.1 (hkeep b (by simp [hb]))]
    exact hinv.large b (List.mem_of_mem_erase hb)

/-- **`slob_free`** of the last block of its page. -/
theorem HeapInv.slobFree_empties (hinv : HeapInv R h L S pages frags) (hp : p ∈ pages)
    (hb : (b, u) ∈ S) (hw : BlockWf (pageAddress h.zone p) b u) (hne : frags p ≠ [])
    (hlast : fragUnits (frags p) + u = slobUnitsOf pageSize)
    (hR : ∀ n : ℕ, MergeRange h.zone.usedPages h.zone.spannedPages (n + (p - (h.zone.page p).index)) →
      R (n + (p - (h.zone.page p).index))) :
    HeapInv R (YakOS.slobFree h b (slobUnit * u)) L (S.erase (b, u)) (pages.erase p)
        (Function.update frags p []) ∧
      h.zone.SamePlace (YakOS.slobFree h b (slobUnit * u)).zone := by
  have hunits : (h.zone.page p).mapcount + (u : ℤ) = slobUnitsOf pageSize := by
    rw [(hinv.page p hp).units]
    exact_mod_cast hlast
  have hfull : slobUnit * (fragUnits (frags p) + u) = pageSize := by
    rw [hlast, slobUnit_mul_page]
  have hb₀ : b ≠ 0 := by
    have h₁ := hinv.placed.nonzero
    have h₂ := hw.inside.1
    have h₃ := hinv.placed.pageAddress_eq (hinv.mem_range hp).1 (hinv.mem_range hp).2
    have h₄ := (hinv.mem_range hp).1
    unfold pageSize at h₃
    omega
  have hheap : YakOS.slobFree h b (slobUnit * u) =
      Heap.freePages { h with
        zone := h.zone.modifyPage p releasePage
        freeSlob := fun c => (h.freeSlob c).erase p } b := by
    unfold YakOS.slobFree
    simp only [hinv.virtToPage_small hp hw, slobUnitsOf_mul, if_pos hunits,
      (hinv.pageSlob_iff hp).mpr hne, if_true, Heap.clearSlobPageFree, Heap.modifyPage,
      Zone.modifyPage_modifyPage]
    rfl
  have hrel := hinv.release hp hb hw hfull
  have hindex : ((h.zone.modifyPage p releasePage).page p).index = (h.zone.page p).index := by
    rw [Zone.modifyPage_self]
    rfl
  rw [hheap]
  obtain ⟨hfree, -, hplace, -⟩ := hrel.freePages (p := p) (k := 0) (a := b) List.mem_cons_self
    (hinv.virtToPage_small hp hw) hb₀ (by simp only [hindex]; exact hR)
  rw [List.erase_cons_head] at hfree
  exact ⟨hfree, ⟨hplace.memmapPages, hplace.spannedPages⟩⟩

end SlobFree

/-! ### `kfree` -/

/-- `kfree` takes the block for what it is: the page of the pointer to a small block has
`PG_slob_free` set. -/
def KBlock.Dispatched (h : Heap) : KBlock → Prop
  | small a _ =>
    (virtToPage h.zone (a + archSlobMinalign)).any (fun p => pageSlob (h.zone.page p)) = true
  | large _ _ => True

/-- The block is not the last one of a slob page. -/
def KBlock.Leaves (h : Heap) : KBlock → Prop
  | small a u =>
    (virtToPage h.zone a).all
      (fun p => decide ((h.zone.page p).mapcount + u ≠ slobUnitsOf pageSize)) = true
  | large _ _ => True

instance (h : Heap) : ∀ b : KBlock, Decidable (b.Dispatched h)
  | .small _ _ => inferInstanceAs (Decidable (_ = true))
  | .large _ _ => isTrue trivial

instance (h : Heap) : ∀ b : KBlock, Decidable (b.Leaves h)
  | .small _ _ => inferInstanceAs (Decidable (_ = true))
  | .large _ _ => isTrue trivial

theorem smalls_perm_small {live : List KBlock} {a u : ℕ} (hb : .small a u ∈ live) :
    ((smalls live).erase (a, u)).Perm (smalls (live.erase (.small a u))) := by
  have hperm := ((List.perm_cons_erase hb).filterMap KBlock.frag?).erase (a, u)
  exact hperm.trans (List.Perm.of_eq (List.erase_cons_head _ _))

theorem larges_perm_small {live : List KBlock} {a u : ℕ} (hb : .small a u ∈ live) :
    (larges live).Perm (larges (live.erase (.small a u))) :=
  (List.perm_cons_erase hb).filterMap KBlock.block?

theorem smalls_perm_large {live : List KBlock} {p : ℤ} {k : ℕ} (hb : .large p k ∈ live) :
    (smalls live).Perm (smalls (live.erase (.large p k))) :=
  (List.perm_cons_erase hb).filterMap KBlock.frag?

theorem larges_perm_large {live : List KBlock} {p : ℤ} {k : ℕ} (hb : .large p k ∈ live) :
    ((larges live).erase (p, k)).Perm (larges (live.erase (.large p k))) := by
  have hperm := ((List.perm_cons_erase hb).filterMap KBlock.block?).erase (p, k)
  exact hperm.trans (List.Perm.of_eq (List.erase_cons_head _ _))

theorem mem_smalls {live : List KBlock} {a u : ℕ} :
    (a, u) ∈ smalls live ↔ .small a u ∈ live := by
  unfold smalls
  rw [List.mem_filterMap]
  constructor
  · rintro ⟨b, hb, hfrag⟩
    cases b with
    | small a' u' =>
      obtain ⟨rfl, rfl⟩ := Prod.mk.inj (Option.some.inj hfrag)
      exact hb
    | large _ _ => cases hfrag
  · exact fun hb => ⟨_, hb, rfl⟩

theorem mem_larges {live : List KBlock} {p : ℤ} {k : ℕ} :
    (p, k) ∈ larges live ↔ .large p k ∈ live := by
  unfold larges
  rw [List.mem_filterMap]
  constructor
  · rintro ⟨b, hb, hblock⟩
    cases b with
    | small _ _ => cases hblock
    | large p' k' =>
      obtain ⟨rfl, rfl⟩ := Prod.mk.inj (Option.some.inj hblock)
      exact hb
  · exact fun hb => ⟨_, hb, rfl⟩

section Kfree

variable {R : ℤ → Prop} {h : Heap} {live : List KBlock} {pages : List ℤ}
  {frags : ℤ → List Frag}

/-- A small block that is dispatched well reaches `slob_free` with its own size. -/
theorem HeapInv.kfree_eq_slobFree (hinv : HeapInv R h (larges live) (smalls live) pages frags)
    {a u : ℕ} (hb : .small a u ∈ live) (hd : (KBlock.small a u).Dispatched h) :
    kfree h (a + archSlobMinalign) = YakOS.slobFree h a (slobUnit * u) := by
  have hunits := (hinv.small _ (mem_smalls.mpr hb)).2
  obtain ⟨p, hp, hflag⟩ := (Option.any_eq_true _ _).mp hd
  unfold kfree
  have hne : a + archSlobMinalign ≠ 0 := by
    unfold archSlobMinalign
    omega
  have hsize : ((u : ℤ) * (slobUnit : ℕ)).toNat = slobUnit * u := by
    unfold slobUnit
    omega
  rw [if_neg hne, hp]
  simp only [hflag, if_true, Nat.add_sub_cancel, hunits, hsize]

/-- `kfree` of a small block that is not the last one of its page. -/
theorem HeapInv.kfree_small_stays
    (hinv : HeapInv R h (larges live) (smalls live) pages frags) {a u : ℕ}
    (hb : .small a u ∈ live) (hd : (KBlock.small a u).Dispatched h)
    (hl : (KBlock.small a u).Leaves h) :
    ∃ frags', HeapInv R (kfree h (a + archSlobMinalign)) (larges (live.erase (.small a u)))
        (smalls (live.erase (.small a u))) pages frags' ∧
      Grows h (kfree h (a + archSlobMinalign)) pages pages := by
  have hmem := mem_smalls.mpr hb
  obtain ⟨⟨p, hp, hw⟩, -⟩ := hinv.small _ hmem
  have hmore : fragUnits (frags p) + u ≠ slobUnitsOf pageSize := by
    simp only [KBlock.Leaves] at hl
    have hvirt := hinv.virtToPage_small hp hw
    simp only at hvirt
    rw [hvirt, Option.all_some, decide_eq_true_eq, (hinv.page p hp).units] at hl
    exact_mod_cast hl
  obtain ⟨fs, hinv', hgrows⟩ := hinv.slobFree_stays hp hmem hw hmore
  rw [hinv.kfree_eq_slobFree hb hd]
  exact ⟨_, hinv'.perm (larges_perm_small hb) (smalls_perm_small hb), hgrows⟩

/-- `kfree` of a small block, with nothing to fear from the descriptors around the zone. -/
theorem HeapInv.kfree_small (hinv : HeapInv R h (larges live) (smalls live) pages frags)
    (hR : ∀ b, MergeRange h.zone.usedPages h.zone.spannedPages b → R b) {a u : ℕ}
    (hb : .small a u ∈ live) (hd : (KBlock.small a u).Dispatched h) :
    ∃ pages' frags', HeapInv R (kfree h (a + archSlobMinalign))
        (larges (live.erase (.small a u))) (smalls (live.erase (.small a u))) pages' frags' ∧
      h.zone.SamePlace (kfree h (a + archSlobMinalign)).zone := by
  have hmem := mem_smalls.mpr hb
  obtain ⟨⟨p, hp, hw⟩, -⟩ := hinv.small _ hmem
  by_cases hlast : fragUnits (frags p) + u = slobUnitsOf pageSize
  · -- a block as large as the page would have its pointer there and find the flag clear
    have hne : frags p ≠ [] := by
      intro hnil
      have hu : u = slobUnitsOf pageSize := by
        rw [hnil] at hlast
        simpa [fragUnits] using hlast
      obtain ⟨q, hq, hflag⟩ := (Option.any_eq_true _ _).mp hd
      have hin := hw.inside
      rw [hu, slobUnit_mul_page] at hin
      obtain ⟨h₀, h₁⟩ := hinv.mem_range hp
      have hvirt := virtToPage_eq hinv.placed.aligned hinv.placed.fits h₀ h₁
        (a := a + archSlobMinalign) (by omega)
        (by unfold archSlobMinalign pageSize at *; omega)
      rw [hvirt] at hq
      obtain rfl := Option.some.inj hq
      exact (hinv.pageSlob_iff hp).mp hflag hnil
    rw [hinv.kfree_eq_slobFree hb hd]
    obtain ⟨hinv', hplace⟩ := hinv.slobFree_empties hp hmem hw hne hlast fun n hn => hR _ hn
    exact ⟨_, _, hinv'.perm (larges_perm_small hb) (smalls_perm_small hb), hplace⟩
  · obtain ⟨fs, hinv', hgrows⟩ := hinv.slobFree_stays hp hmem hw hlast
    rw [hinv.kfree_eq_slobFree hb hd]
    exact ⟨_, _, hinv'.perm (larges_perm_small hb) (smalls_perm_small hb), hgrows.place⟩

/-- A large block is no slob page. -/
theorem HeapInv.large_not_partial (hinv : HeapInv R h (larges live) (smalls live) pages frags)
    {p : ℤ} {k : ℕ} (hb : .large p k ∈ live) : p ∉ pages := by
  intro hp
  have hmem : (p, k) ∈ larges live := mem_larges.mpr hb
  have hperm : (h.zone.freeBlocks ++ (larges live ++ pages.map fun p => ((p, 0) : Block))).Perm
      ((p, k) :: (h.zone.freeBlocks ++ ((larges live).erase (p, k) ++ pages.map fun p => (p, 0)))) :=
    (((List.perm_cons_erase hmem).append_right _).append_left _).trans List.perm_middle
  have htiles := (Tiles.perm hperm).mp hinv.buddy.tiles
  have hpage : ((p, 0) : Block) ∈ h.zone.freeBlocks ++
      ((larges live).erase (p, k) ++ pages.map fun p => (p, 0)) := by simp [hp]
  exact htiles.disjoint_of_cons hpage (Block.has_head (p, k)) (Block.has_head (p, 0))

/-- `kfree` of a large block. -/
theorem HeapInv.kfree_large (hinv : HeapInv R h (larges live) (smalls live) pages frags)
    {p : ℤ} {k : ℕ} (hb : .large p k ∈ live)
    (hR : ∀ n : ℕ, MergeRange h.zone.usedPages h.zone.spannedPages (n + (p - (h.zone.page p).index)) →
      R (n + (p - (h.zone.page p).index))) :
    HeapInv R (kfree h (pageAddress h.zone p)) (larges (live.erase (.large p k)))
        (smalls (live.erase (.large p k))) pages frags ∧
      (∀ q, ((kfree h (pageAddress h.zone p)).zone.page q).index = (h.zone.page q).index) ∧
      h.zone.SamePlace (kfree h (pageAddress h.zone p)).zone ∧
      (kfree h (pageAddress h.zone p)).handedBack =
        h.handedBack ++ [(p, (h.zone.page p).index)] := by
  have hmem := mem_larges.mpr hb
  obtain ⟨h₀, h₁⟩ := hinv.mem_range_large hmem
  have hvirt := hinv.virtToPage_large hmem
  have haddr := hinv.placed.pageAddress_eq h₀ h₁
  have hnz := hinv.placed.nonzero
  simp only at h₀ h₁ hvirt haddr
  have hne : pageAddress h.zone p ≠ 0 := by
    unfold pageSize at haddr
    omega
  have hflag : pageSlob (h.zone.page p) = false := by
    rw [Bool.eq_false_iff]
    intro hflag
    exact hinv.large_not_partial hb ((hinv.listed p).mp ((hinv.flags p h₀ h₁).mp hflag)).1
  have hfree : kfree h (pageAddress h.zone p) = h.freePages (pageAddress h.zone p) := by
    unfold kfree
    rw [if_neg hne, hvirt]
    simp only [hflag, Bool.false_eq_true, if_false]
  rw [hfree]
  obtain ⟨hinv', hindex, hspan, hback⟩ := hinv.freePages hmem hvirt hne hR
  exact ⟨hinv'.perm (larges_perm_large hb) (smalls_perm_large hb), hindex, hspan, hback⟩

end Kfree

end YakOS
