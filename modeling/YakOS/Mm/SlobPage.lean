import YakOS.Lib.Run
import YakOS.Mm.Freelist

/-!
# One slob page

What `slob_page_alloc` and `slob_free` do to the page they work on, whatever the rest
of the heap looks like: they keep its list of free fragments sorted, coalesced and
in step with the number of free units, take from the first fragment that is large
enough, and give back exactly the units of a block.

## Main definitions

* `SlobPage` — the page at an address has these free fragments.
* `GivenBack` — what `slob_free` writes when it does not empty the page.
* `pageFrags`, `FreelistWf` — the fragments read off the page, and that they are well formed.
* `PageState`, `pageStep` — runs of allocations and releases on one page.

## Main results

* `SlobPage.take`, `SlobPage.slobFree` — one operation.
* `slob_page_runs` — **the list stays well formed in every run, and each operation does to
  it what it should.**
-/

namespace YakOS

/-- The descriptor after `slob_page_alloc` has taken `u` units. -/
def takePage (prev : Option ℕ) (link u : ℕ) (g : Page) : Page :=
  { g with
    index := if prev = none then link else g.index
    mapcount := g.mapcount - u
    flags := if g.mapcount - u = 0 then Bitops.clearBit pgSlobFree g.flags else g.flags }

theorem slobTake_eq (h : Heap) (sp : ℤ) (prev : Option ℕ) (a n u : ℕ) :
    slobTake h sp u prev a n =
      { zone := h.zone.modifyPage sp
          (takePage prev (if n = u then slobNext h.units a else a + slobUnit * u) u)
        units := takeCells h.units prev a n u
        freeSlob := fun c =>
          if (h.zone.page sp).mapcount - u = 0 then (h.freeSlob c).erase sp else h.freeSlob c
        handedBack := h.handedBack } := by
  unfold slobTake takeCells linkPrev
  simp only [Nat.cast_inj, Int.toNat_natCast]
  -- all branches write the same fields; only the page's own descriptor is compared
  cases prev <;> by_cases hn : n = u <;> by_cases hz : (h.zone.page sp).mapcount - u = 0 <;>
    simp only [hn, hz, if_true, if_false, Heap.modifyPage, Zone.modifyPage_modifyPage,
      Zone.modifyPage_self, Heap.clearSlobPageFree, Option.elim_none, Option.elim_some,
      Heap.mk.injEq, and_true] <;>
    exact Zone.modifyPage_congr (by simp [takePage, hz])

theorem fragUnits_eq_zero {B : ℕ} {fs : List Frag} (h : FragsWf B fs) :
    fragUnits fs = 0 ↔ fs = [] := by
  cases fs with
  | nil => simp [fragUnits]
  | cons f fs =>
    have := (h.aligned f (by simp)).2.2
    simp only [fragUnits, List.map_cons, List.sum_cons, reduceCtorEq, iff_false]
    omega

theorem slobUnitsOf_mul (u : ℕ) : slobUnitsOf (slobUnit * u) = u := by
  unfold slobUnitsOf slobUnit
  omega

/-- The page at `B` with the descriptor `sp` has the free fragments `fs`.  The head of the
list is not read when there are none. -/
structure SlobPage (h : Heap) (sp : ℤ) (B : ℕ) (fs : List Frag) : Prop where
  chain : fs ≠ [] → Chain h.units (h.zone.page sp).index fs (B + pageSize)
  wf : FragsWf B fs
  units : (h.zone.page sp).mapcount = fragUnits fs
  flag : pageSlob (h.zone.page sp) = true ↔ fs ≠ []

section OnePage

variable {h : Heap} {sp : ℤ} {B : ℕ} {fs : List Frag}

/-! ### Taking a block -/

/-- The block in front of a fragment with room enough. -/
theorem FragsWf.block {pre post : List Frag} {a n u : ℕ} (hwf : FragsWf B (pre ++ (a, n) :: post))
    (hpos : 0 < u) (hu : u ≤ n) (h4 : u % 4 = 0) : BlockWf B a u := by
  obtain ⟨hin, hal⟩ := hwf.mid
  refine ⟨?_, hal.1, h4, hpos⟩
  unfold slobUnit at *
  omega

theorem SlobPage.mapcount_take {pre post : List Frag} {a n u : ℕ}
    (hp : SlobPage h sp B (pre ++ (a, n) :: post)) (hu : u ≤ n) :
    (h.zone.page sp).mapcount - u = fragUnits (pre ++ fragRest a n u ++ post) := by
  have htake : fragUnits (pre ++ (a, n) :: post) =
      fragUnits (pre ++ fragRest a n u ++ post) + u := fragUnits_take hu
  rw [hp.units, htake]
  push_cast
  omega

/-- The page has no free units left exactly when it has no fragments left. -/
theorem SlobPage.mapcount_take_eq_zero {pre post : List Frag} {a n u : ℕ}
    (hp : SlobPage h sp B (pre ++ (a, n) :: post)) (hpos : 0 < u) (hu : u ≤ n) (h4 : u % 4 = 0) :
    (h.zone.page sp).mapcount - u = 0 ↔ pre ++ fragRest a n u ++ post = [] := by
  rw [hp.mapcount_take hu, Nat.cast_eq_zero]
  exact fragUnits_eq_zero (hp.wf.take hpos hu h4)

/-- `slob_page_alloc` takes `u` units from the fragment `(a, n)`. -/
theorem SlobPage.take {pre post : List Frag} {a n u : ℕ}
    (hp : SlobPage h sp B (pre ++ (a, n) :: post)) (hpos : 0 < u) (hu : u ≤ n) (h4 : u % 4 = 0) :
    SlobPage (slobTake h sp u (pre.getLast?.map Prod.fst) a n) sp B
      (pre ++ fragRest a n u ++ post) := by
  have hne : pre ++ (a, n) :: post ≠ [] := by simp
  have hzero := hp.mapcount_take_eq_zero hpos hu h4
  have hnone : pre.getLast?.map Prod.fst = none ↔ pre = [] := by simp
  rw [slobTake_eq]
  refine ⟨?_, hp.wf.take hpos hu h4, ?_, ?_⟩
  · intro _
    have hchain := chain_take hp.wf (hp.chain hne) hpos hu h4
    simp only [← hnone] at hchain
    rw [Zone.modifyPage_self]
    exact hchain
  · rw [Zone.modifyPage_self]
    exact hp.mapcount_take hu
  · rw [Zone.modifyPage_self]
    unfold pageSlob takePage
    dsimp only
    by_cases hz : (h.zone.page sp).mapcount - u = 0
    · rw [if_pos hz, Bitops.testBit_clearBit (by decide) (by decide)]
      simp [hzero.mp hz]
    · rw [if_neg hz]
      have hflag := hp.flag.mpr hne
      unfold pageSlob at hflag
      simp only [hflag, true_iff]
      exact fun hnil => hz (hzero.mpr hnil)

/-! ### Giving a block back -/

/-- `slob_free` of the block `(b, u)` has written the descriptor with `f` and the cells `m`,
and the page has the fragments `fs'` afterwards. -/
structure GivenBack (h : Heap) (sp : ℤ) (B : ℕ) (fs : List Frag) (b u : ℕ) (fs' : List Frag)
    (f : Page → Page) (m : ℕ → ℤ) : Prop where
  ne_nil : fs' ≠ []
  wf : FragsWf B fs'
  chain : Chain m (f (h.zone.page sp)).index fs' (B + pageSize)
  units : (f (h.zone.page sp)).mapcount = fragUnits fs'
  flag : pageSlob (f (h.zone.page sp)) = true
  priv : (f (h.zone.page sp)).priv = (h.zone.page sp).priv
  cover : ∀ x, fragCover fs' x = fragCover fs x + if Frag.Has (b, u) x then 1 else 0
  cells : ∀ x, (∀ g ∈ fs, ¬ g.Has x) → ¬ Frag.Has (b, u) x → m x = h.units x

theorem GivenBack.slobPage {b u : ℕ} {fs' : List Frag} {f : Page → Page} {m : ℕ → ℤ}
    (hg : GivenBack h sp B fs b u fs' f m) (l : SlobClass → List ℤ) :
    SlobPage { h with zone := h.zone.modifyPage sp f, units := m, freeSlob := l } sp B fs' where
  chain _ := by
    rw [Zone.modifyPage_self]
    exact hg.chain
  wf := hg.wf
  units := by
    rw [Zone.modifyPage_self]
    exact hg.units
  flag := by
    rw [Zone.modifyPage_self]
    exact ⟨fun _ => hg.ne_nil, fun _ => hg.flag⟩

variable {b u : ℕ}

/-- The first block given back to a full page becomes its only fragment. -/
theorem SlobPage.giveFull (hp : SlobPage h sp B []) (hw : BlockWf B b u) :
    GivenBack h sp B [] b u [(b, u)]
      (fun g => { g with mapcount := u, index := b, flags := Bitops.setBit pgSlobFree g.flags })
      (setSlob h.units b u (B + pageSize)) where
  ne_nil := List.cons_ne_nil _ _
  wf := ⟨hp.wf.base, by simpa using hw.inside, by simpa using hw.aligned,
    List.pairwise_singleton _ _⟩
  chain := by
    have hal := hw.aligned
    have hbase := hp.wf.base
    refine chain_singleton h.units (by omega) ?_
    unfold pageSize at *
    omega
  units := by simp [fragUnits]
  flag := by
    unfold pageSlob
    rw [Bitops.testBit_setBit (by decide) (by decide)]
    simp
  priv := rfl
  cover x := by rw [fragCover_cons]
  cells x _ hx := by
    have hal := hw.aligned
    unfold Frag.Has slobUnit at hx
    exact setSlob_of_ne _ (by omega) (by simp only at hx; omega)
      (by unfold slobUnit; simp only at hx; omega)

/-- A block before the first fragment becomes the head of the list. -/
theorem SlobPage.giveBefore {f₀ : Frag} {gs : List Frag} (hp : SlobPage h sp B (f₀ :: gs))
    (hw : BlockWf B b u)
    (hapart : ∀ f ∈ f₀ :: gs, f.1 + slobUnit * f.2 ≤ b ∨ b + slobUnit * u ≤ f.1)
    (hlt : b < f₀.1) :
    GivenBack h sp B (f₀ :: gs) b u (joinFrag b u (f₀ :: gs))
      (fun g => { g with mapcount := g.mapcount + u, index := b })
      (joinCells h.units b u (h.zone.page sp).index (f₀ :: gs)) := by
  have hafter : ∀ f ∈ f₀ :: gs, b + slobUnit * u ≤ f.1 := by
    intro f hf
    have hle : f₀.1 ≤ f.1 := by
      rcases List.mem_cons.mp hf with rfl | hf
      · exact le_rfl
      · have := (List.pairwise_cons.mp hp.wf.apart).1 f hf
        omega
    have := hapart f hf
    omega
  refine ⟨joinFrag_ne_nil, hp.wf.joinFrag hw hafter, ?_, ?_, hp.flag.mpr (by simp), rfl,
    fragCover_joinFrag, fun x _ hx => ?_⟩
  · exact chain_joinCells hp.wf hw hafter (hp.chain (by simp))
  · simp only [hp.units, fragUnits_joinFrag]
    push_cast
    rfl
  · refine joinCells_of_not_has hw (fun _ _ => ?_) hx
    unfold slobUnits
    split <;> omega

/-- Any other block goes behind the last fragment before it. -/
theorem SlobPage.giveBehind {f₀ : Frag} {gs : List Frag} (hp : SlobPage h sp B (f₀ :: gs))
    (hw : BlockWf B b u)
    (hapart : ∀ f ∈ f₀ :: gs, f.1 + slobUnit * f.2 ≤ b ∨ b + slobUnit * u ≤ f.1)
    (hge : ¬ b < f₀.1) :
    ∃ fs', GivenBack h sp B (f₀ :: gs) b u fs' (fun g => { g with mapcount := g.mapcount + u })
      (slobFreeAfter h.units (slobFreeFind h.units b pageSize (h.zone.page sp).index) b u) := by
  have hflag := hp.flag.mpr (List.cons_ne_nil _ _)
  have hunits := hp.units
  have hwf := hp.wf
  have hchain := hp.chain (List.cons_ne_nil _ _)
  have hlen := hwf.length_le
  have hb₀ : f₀.1 < b := by
    have h₁ := hapart f₀ (by simp)
    have h₂ := hwf.aligned f₀ (by simp)
    have h₃ := hw.aligned
    unfold slobUnit at *
    omega
  have hlast : b < B + pageSize := by
    have h₁ := hw.inside
    have h₂ := hw.aligned
    unfold slobUnit at *
    omega
  -- the walk ends at the last fragment before the block
  obtain ⟨l₀, a₀, n₀, l₂, hsplit, hlt, hge₂, hfind⟩ :=
    slobFreeFind_eq hwf hchain hb₀ hlast hlen
  rw [hsplit] at hwf hchain hapart hunits ⊢
  have hl : a₀ + slobUnit * n₀ ≤ b := by
    have := hapart (a₀, n₀) (by simp)
    simp only at this
    omega
  have hr : ∀ g ∈ l₂, b + slobUnit * u ≤ g.1 := by
    intro g hg
    have h₁ := hapart g (by simp [hg])
    have h₂ := hge₂ g hg
    have h₃ := (hwf.aligned g (by simp [hg])).2.2
    unfold slobUnit at *
    omega
  obtain ⟨hwf', hchain', hcells⟩ := slobFreeAfter_spec hwf hchain hw hl hr
  rw [hfind]
  refine ⟨l₀ ++ joinFrag a₀ n₀ (joinFrag b u l₂), ?_, hwf', hchain', ?_, hflag, rfl,
    fun x => ?_, hcells⟩
  · exact fun hnil => joinFrag_ne_nil (List.append_eq_nil_iff.mp hnil).2
  · have h₁ : fragUnits (joinFrag a₀ n₀ (joinFrag b u l₂)) = _ := fragUnits_joinFrag
    have h₂ : fragUnits (joinFrag b u l₂) = _ := fragUnits_joinFrag
    simp only [fragUnits, List.map_append, List.sum_append, List.map_cons, List.sum_cons] at *
    omega
  · simp only [fragCover_append, fragCover_joinFrag, fragCover_cons]
    omega

/-- **`slob_free`** of a block that does not empty the page: the page gets the units of the
block back, and is put on a list if it was full. -/
theorem SlobPage.slobFree (hp : SlobPage h sp B fs) (hw : BlockWf B b u)
    (hv : virtToPage h.zone b = some sp)
    (hapart : ∀ f ∈ fs, f.1 + slobUnit * f.2 ≤ b ∨ b + slobUnit * u ≤ f.1)
    (hmore : (h.zone.page sp).mapcount + (u : ℤ) ≠ slobUnitsOf pageSize) :
    ∃ fs' f m l, slobFree h b (slobUnit * u) =
        { h with zone := h.zone.modifyPage sp f, units := m, freeSlob := l } ∧
      GivenBack h sp B fs b u fs' f m ∧
      (fs ≠ [] ∧ l = h.freeSlob ∨
        fs = [] ∧ ∃ c, l = fun d => if d = c then sp :: h.freeSlob d else h.freeSlob d) := by
  unfold YakOS.slobFree
  simp only [hv, slobUnitsOf_mul, if_neg hmore]
  cases fs with
  -- the page was full: the block is its only fragment, and it goes on a list
  | nil =>
    have hflag : pageSlob (h.zone.page sp) = false := by
      rw [Bool.eq_false_iff]
      exact fun ht => hp.flag.mp ht rfl
    have hstop : pageBase (b + pageSize) = B + pageSize := by
      have hbase := hp.wf.base
      have hin := hw.inside
      have hpos := hw.aligned.2.2
      unfold pageBase
      unfold pageSize slobUnit at *
      omega
    simp only [hflag, if_true, Heap.modifyPage, Heap.setSlobPageFree,
      Zone.modifyPage_modifyPage, hstop]
    exact ⟨_, _, _, _, rfl, hp.giveFull hw, Or.inr ⟨trivial, _, rfl⟩⟩
  | cons f₀ gs =>
    have hne : f₀ :: gs ≠ [] := List.cons_ne_nil _ _
    have hflag : pageSlob (h.zone.page sp) = true := hp.flag.mpr hne
    have hfirst : (h.zone.page sp).index = f₀.1 := (hp.chain hne).head
    simp only [hflag, Bool.true_eq_false, if_false, Heap.modifyPage]
    split
    · rename_i hlt
      rw [Zone.modifyPage_modifyPage, slobFreeBefore_eq hne]
      exact ⟨_, _, _, _, rfl, hp.giveBefore hw hapart (hfirst ▸ hlt), Or.inl ⟨hne, rfl⟩⟩
    · rename_i hge
      obtain ⟨fs', hgive⟩ := hp.giveBehind hw hapart (hfirst ▸ hge)
      exact ⟨fs', _, _, _, rfl, hgive, Or.inl ⟨hne, rfl⟩⟩

end OnePage

/-! ### Runs on one page -/

/-- The free fragments of the page with the descriptor `sp`, read off its cells. -/
def pageFrags (h : Heap) (sp : ℤ) : List Frag :=
  if (h.zone.page sp).mapcount = 0 then []
  else fragWalk h.units pageSize (h.zone.page sp).index

/-- The list of free fragments is well formed: it runs through the fragments of the page in
the order of their addresses, no two of them adjacent, and ends at the end of the page;
addresses and sizes are multiples of eight bytes; and the descriptor has the number of
free units, and `PG_slob_free` set when there are any. -/
def FreelistWf (h : Heap) (sp : ℤ) (B : ℕ) : Prop := SlobPage h sp B (pageFrags h sp)

theorem SlobPage.pageFrags_eq {h : Heap} {sp : ℤ} {B : ℕ} {fs : List Frag}
    (hp : SlobPage h sp B fs) : pageFrags h sp = fs := by
  have hzero : (h.zone.page sp).mapcount = 0 ↔ fs = [] := by
    rw [hp.units, Nat.cast_eq_zero]
    exact fragUnits_eq_zero hp.wf
  unfold pageFrags
  by_cases hnil : fs = []
  · rw [if_pos (hzero.mpr hnil), hnil]
  · rw [if_neg fun hz => hnil (hzero.mp hz)]
    exact fragWalk_eq hp.wf (hp.chain hnil) hnil hp.wf.length_le

theorem SlobPage.freelistWf {h : Heap} {sp : ℤ} {B : ℕ} {fs : List Frag}
    (hp : SlobPage h sp B fs) : FreelistWf h sp B := by
  unfold FreelistWf
  rw [hp.pageFrags_eq]
  exact hp

/-- `sp` is the descriptor of the page at `B`. -/
def Describes (z : Zone) (sp : ℤ) (B : ℕ) : Prop :=
  ∀ x, B ≤ x → x < B + pageSize → virtToPage z x = some sp

/-- A heap and the blocks obtained from one page: their headers and units. -/
structure PageState where
  heap : Heap
  blocks : List Frag

/-- A call on one page. -/
inductive PageEvent
  | alloc (size : ℕ)
  | free (block : Frag)
  deriving DecidableEq, Repr

/-- `slob_page_alloc(sp, size, 8)` when the page has units enough, as `slob_alloc` checks
first, and `slob_free` of a block obtained that does not empty the page. -/
def pageStep (sp : ℤ) (s : PageState) : PageEvent → Option PageState
  | .alloc size =>
    if size ≠ 0 ∧ size % 8 = 0 ∧ size < pageSize ∧
        (slobUnitsOf size : ℤ) ≤ (s.heap.zone.page sp).mapcount then
      match slobPageAlloc s.heap sp size archSlobMinalign with
      | none => some s
      | some (r, h) => some ⟨h, (r - archSlobMinalign, slobUnitsOf size) :: s.blocks⟩
    else none
  | .free b =>
    if b ∈ s.blocks ∧ (s.heap.zone.page sp).mapcount + (b.2 : ℤ) ≠ slobUnitsOf pageSize then
      some ⟨slobFree s.heap b.1 (slobUnit * b.2), s.blocks.erase b⟩
    else none

/-- What a call does to the free fragments.  `slob_page_alloc` returns `NULL` exactly when no
fragment is large enough, and takes the block from the front of the one with the lowest
address otherwise; `slob_free` gives the bytes of the block back, none of which was free. -/
def FreelistStep (sp : ℤ) (s : PageState) (e : PageEvent) (s' : PageState) : Prop :=
  match e with
  | .alloc size =>
    ((slobPageAlloc s.heap sp size archSlobMinalign = none ↔
      ∀ f ∈ pageFrags s.heap sp, f.2 < slobUnitsOf size) ∧
    (slobPageAlloc s.heap sp size archSlobMinalign = none → s' = s) ∧
    ∀ r h, slobPageAlloc s.heap sp size archSlobMinalign = some (r, h) → s'.heap = h ∧
      ∃ f ∈ pageFrags s.heap sp, r = f.1 + archSlobMinalign ∧ slobUnitsOf size ≤ f.2 ∧
        (∀ g ∈ pageFrags s.heap sp, g.1 < f.1 → g.2 < slobUnitsOf size) ∧
        ∀ x, fragCover (pageFrags s.heap sp) x = fragCover (pageFrags h sp) x +
          if Frag.Has (f.1, slobUnitsOf size) x then 1 else 0)
  | .free b =>
    ∀ x, fragCover (pageFrags s'.heap sp) x =
      fragCover (pageFrags s.heap sp) x + if b.Has x then 1 else 0

/-- The blocks obtained lie in the page, apart from each other and from the fragments. -/
structure PageRunInv (sp : ℤ) (B : ℕ) (s : PageState) : Prop where
  describes : Describes s.heap.zone sp B
  page : SlobPage s.heap sp B (pageFrags s.heap sp)
  block : ∀ b ∈ s.blocks, BlockWf B b.1 b.2
  apart : ∀ x, fragCover (pageFrags s.heap sp) x + fragCover s.blocks x ≤ 1

section Runs

variable {sp : ℤ} {B : ℕ} {s s' : PageState}

/-- One call of `slob_page_alloc`. -/
theorem PageRunInv.alloc {size : ℕ} (hinv : PageRunInv sp B s)
    (hs : pageStep sp s (.alloc size) = some s') :
    PageRunInv sp B s' ∧ FreelistStep sp s (.alloc size) s' := by
  have hpage := hinv.page
  unfold pageStep at hs
  dsimp only at hs
  split at hs
  · rename_i hen
    obtain ⟨h₀, h8, -, hroom⟩ := hen
    have hpos : 0 < slobUnitsOf size ∧ slobUnitsOf size % 4 = 0 := by
      unfold slobUnitsOf slobUnit
      omega
    -- a page with units enough has a fragment to start from
    have hne : pageFrags s.heap sp ≠ [] := by
      intro hnil
      have hunits := hpage.units
      rw [hnil] at hunits
      simp [fragUnits] at hunits
      omega
    rcases slobPageAlloc_eq size hpage.wf (hpage.chain hne) hne with hfound | hnone
    · obtain ⟨pre, a, n, post, hfs, hpre, hn, heq⟩ := hfound
      rw [hfs] at hpage
      have htake := hpage.take hpos.1 hn hpos.2
      have hcover : ∀ x, fragCover (pageFrags s.heap sp) x = fragCover (pageFrags
          (slobTake s.heap sp (slobUnitsOf size) (pre.getLast?.map Prod.fst) a n) sp) x +
            if Frag.Has (a, slobUnitsOf size) x then 1 else 0 := by
        intro x
        rw [htake.pageFrags_eq, hfs]
        exact fragCover_take hn x
      simp only [heq, Nat.add_sub_cancel, Option.some.injEq] at hs
      subst hs
      refine ⟨⟨?_, htake.freelistWf, fun b hb => ?_, fun x => ?_⟩, ?_, ?_, fun r h hr => ?_⟩
      · rw [slobTake_eq]
        exact hinv.describes
      · rcases List.mem_cons.mp hb with rfl | hb
        · exact hpage.wf.block hpos.1 hn hpos.2
        · exact hinv.block b hb
      · have h₁ := hinv.apart x
        have h₂ := hcover x
        rw [fragCover_cons]
        dsimp only at h₂ ⊢
        omega
      · rw [heq]
        refine ⟨fun hcon => absurd hcon (Option.some_ne_none _), ?_⟩
        intro hall
        have := hall (a, n) (by simp [hfs])
        simp only at this
        omega
      · rw [heq]
        exact fun hcon => absurd hcon (Option.some_ne_none _)
      · rw [heq] at hr
        obtain ⟨rfl, rfl⟩ := Prod.mk.inj (Option.some.inj hr)
        refine ⟨rfl, (a, n), by simp [hfs], rfl, hn, fun g hg hlt => ?_, hcover⟩
        -- the fragments with lower addresses are those passed
        rw [hfs] at hg
        rcases List.mem_append.mp hg with hg | hg
        · exact hpre g hg
        · rcases List.mem_cons.mp hg with rfl | hg
          · exact absurd hlt (lt_irrefl _)
          · have := hpage.wf.after hg
            simp only at hlt
            omega
    · simp only [hnone.2, Option.some.injEq] at hs
      subst hs
      refine ⟨hinv, ⟨fun _ => hnone.1, fun _ => hnone.2⟩, fun _ => rfl, ?_⟩
      intro r h hr
      rw [hnone.2] at hr
      cases hr
  · cases hs

/-- One call of `slob_free`. -/
theorem PageRunInv.free {b : Frag} (hinv : PageRunInv sp B s)
    (hs : pageStep sp s (.free b) = some s') :
    PageRunInv sp B s' ∧ FreelistStep sp s (.free b) s' := by
  unfold pageStep at hs
  dsimp only at hs
  split at hs
  · rename_i hen
    obtain ⟨hb, hmore⟩ := hen
    have hw := hinv.block b hb
    have hnot : ∀ f ∈ pageFrags s.heap sp, ∀ x, b.Has x → ¬ f.Has x := by
      intro f hf x hx hfx
      have h₁ := hinv.apart x
      have h₂ : 0 < fragCover (pageFrags s.heap sp) x := fragCover_pos.mpr ⟨f, hf, hfx⟩
      have h₃ : 0 < fragCover s.blocks x := fragCover_pos.mpr ⟨b, hb, hx⟩
      omega
    have hv : virtToPage s.heap.zone b.1 = some sp := by
      have hin := hw.inside
      have hal := hw.aligned
      refine hinv.describes b.1 hin.1 ?_
      unfold slobUnit at hin
      omega
    obtain ⟨fs', f, m, l, heq, hgive, -⟩ := hinv.page.slobFree hw hv
      (fun f hf => Frag.apart hw.aligned.2.2 (hinv.page.wf.aligned f hf).2.2 (hnot f hf)) hmore
    have hpage := hgive.slobPage l
    rw [← heq] at hpage
    -- the block goes from the blocks to the fragments
    have hcover : ∀ x, fragCover (pageFrags (slobFree s.heap b.1 (slobUnit * b.2)) sp) x =
        fragCover (pageFrags s.heap sp) x + if b.Has x then 1 else 0 := by
      intro x
      rw [hpage.pageFrags_eq]
      exact hgive.cover x
    obtain rfl := Option.some.inj hs
    refine ⟨⟨?_, hpage.freelistWf, fun c hc => ?_, fun x => ?_⟩, hcover⟩
    · rw [heq]
      exact hinv.describes
    · exact hinv.block c (List.mem_of_mem_erase hc)
    · have h₁ := hinv.apart x
      have h₂ := fragCover_erase hb x
      have h₃ := hcover x
      dsimp only
      omega
  · cases hs

theorem PageRunInv.step {e : PageEvent} (hinv : PageRunInv sp B s)
    (hs : pageStep sp s e = some s') : PageRunInv sp B s' ∧ FreelistStep sp s e s' := by
  cases e with
  | alloc size => exact hinv.alloc hs
  | free b => exact hinv.free hs

/-- **Runs on a slob page.**  From a well-formed list of free fragments, every run of
`slob_page_alloc` and of `slob_free` of the blocks obtained keeps it well formed, and each
call does to the free fragments what it should. -/
theorem slob_page_runs {h : Heap} {sp : ℤ} {B : ℕ} (hwf : FreelistWf h sp B)
    (hsp : Describes h.zone sp B) (es : List PageEvent) :
    Run.Always (pageStep sp) (fun s => FreelistWf s.heap sp B) ⟨h, []⟩ es ∧
      Run.Steps (pageStep sp) (FreelistStep sp) ⟨h, []⟩ es := by
  have hinit : PageRunInv sp B ⟨h, []⟩ :=
    ⟨hsp, hwf, fun b hb => absurd hb List.not_mem_nil, fun x => hwf.wf.fragCover_le_one x⟩
  have hrun : Run.Always (pageStep sp) (PageRunInv sp B) ⟨h, []⟩ es :=
    Run.always_of_guarded (C := fun _ _ => True) (fun s e s' hinv _ hs => (hinv.step hs).1) hinit
      (Run.guarded_of_forall (fun _ _ => trivial) _ es)
  exact ⟨hrun.mono fun s hinv => hinv.page,
    hrun.steps fun s e s' hinv _ hs => (hinv.step hs).2⟩

/-- A heap of one page at `0x1000`, all of it one free fragment. -/
def freshPage : Heap where
  zone :=
    { memmapPages := 4096
      zoneStartPfn := 1
      spannedPages := 1
      managedPages := 1
      freeArea := fun _ => default
      page := fun _ => { flags := 1, index := 4096, mapcount := 2048, priv := 0 } }
  units := setSlob (fun _ => 0) 4096 2048 8192
  freeSlob := fun _ => [0]
  handedBack := []

theorem slob_page_runs_freshPage :
    (FreelistWf freshPage 0 4096 ∧ Describes freshPage.zone 0 4096) ∧
    (Run.exec (pageStep 0) ⟨freshPage, []⟩
      [.alloc 16, .alloc 8, .alloc 8, .free (4112, 4), .free (4096, 8)]).isSome ∧
    ∀ es, Run.Always (pageStep 0) (fun s => FreelistWf s.heap 0 4096) ⟨freshPage, []⟩ es ∧
      Run.Steps (pageStep 0) (FreelistStep 0) ⟨freshPage, []⟩ es := by
  have hpage : SlobPage freshPage 0 4096 [(4096, slobUnitsOf pageSize)] :=
    ⟨fun _ => chain_singleton (fun _ => 0) (by decide) (by decide), fragsWf_page (by decide), rfl,
      by decide⟩
  have hsp : Describes freshPage.zone 0 4096 := fun x hlo hhi =>
    virtToPage_eq (by decide) (by decide) (by decide) (by decide) hlo hhi
  exact ⟨⟨hpage.freelistWf, hsp⟩, by decide +kernel, slob_page_runs hpage.freelistWf hsp⟩

end Runs

end YakOS
