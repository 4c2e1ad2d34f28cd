import Mathlib.Algebra.BigOperators.Group.List.Basic
import YakOS.Mm.Slob

/-!
# The fragments of a slob page

The free fragments of a page as a list of addresses and sizes, what it means that
the cells and the page's `freelist` hold that list, and what `slob_page_alloc` and
`slob_free` do to it.

## Main definitions

* `Frag`, `Frag.Has`, `fragCover` — fragments and the bytes they stand for.
* `Chain` — the list threaded through the cells.
* `FragsWf` — the fragments lie in one page, in the order of their addresses, with
  a gap between any two of them.
* `fragRest` — what is left of a fragment after taking units from its front.

## Main results

* `slobPageAlloc_eq` — the loop finds the first fragment with room enough.
* `chain_take`, `FragsWf.take`, `fragCover_take` — the fragments after taking units.
* `chain_joinCells`, `slobFreeFind_eq`, `slobFreeAfter_spec` — the fragments after
  giving a block back.
-/

namespace YakOS

/-- A fragment: its address and its size in units. -/
abbrev Frag : Type := ℕ × ℕ

/-- The byte `x` lies in the fragment. -/
def Frag.Has (f : Frag) (x : ℕ) : Prop := f.1 ≤ x ∧ x < f.1 + slobUnit * f.2

instance (f : Frag) (x : ℕ) : Decidable (f.Has x) := inferInstanceAs (Decidable (_ ∧ _))

/-- The number of fragments that have the byte `x`. -/
def fragCover (fs : List Frag) (x : ℕ) : ℕ := fs.countP fun f => decide (f.Has x)

/-- The units of all the fragments. -/
def fragUnits (fs : List Frag) : ℕ := (fs.map Prod.snd).sum

theorem fragCover_cons (f : Frag) (fs : List Frag) (x : ℕ) :
    fragCover (f :: fs) x = fragCover fs x + if f.Has x then 1 else 0 := by
  unfold fragCover
  rw [List.countP_cons]
  simp

theorem fragCover_append (fs gs : List Frag) (x : ℕ) :
    fragCover (fs ++ gs) x = fragCover fs x + fragCover gs x := List.countP_append

@[simp] theorem fragCover_nil (x : ℕ) : fragCover [] x = 0 := rfl

theorem fragCover_pos {fs : List Frag} {x : ℕ} : 0 < fragCover fs x ↔ ∃ f ∈ fs, f.Has x := by
  unfold fragCover
  rw [List.countP_pos_iff]
  simp

theorem fragCover_erase {fs : List Frag} {b : Frag} (hb : b ∈ fs) (x : ℕ) :
    fragCover fs x = fragCover (fs.erase b) x + if b.Has x then 1 else 0 := by
  rw [← fragCover_cons]
  exact (List.perm_cons_erase hb).countP_eq _

/-- Two fragments with no byte in common lie one after the other. -/
theorem Frag.apart {f g : Frag} (hf : 0 < f.2) (hg : 0 < g.2) (h : ∀ x, f.Has x → ¬ g.Has x) :
    g.1 + slobUnit * g.2 ≤ f.1 ∨ f.1 + slobUnit * f.2 ≤ g.1 := by
  have h₁ := h f.1
  have h₂ := h g.1
  unfold Frag.Has slobUnit at *
  omega

/-- Two adjacent fragments have the bytes of one. -/
theorem fragHas_add (a n k : ℕ) (x : ℕ) :
    (if Frag.Has (a, n + k) x then 1 else 0) =
      (if Frag.Has (a, n) x then 1 else 0) +
        if Frag.Has (a + slobUnit * n, k) x then 1 else 0 := by
  have hiff : Frag.Has (a, n + k) x ↔ Frag.Has (a, n) x ∨ Frag.Has (a + slobUnit * n, k) x := by
    simp only [Frag.Has, slobUnit]
    omega
  have hnot : ¬ (Frag.Has (a, n) x ∧ Frag.Has (a + slobUnit * n, k) x) := by
    simp only [Frag.Has]
    omega
  by_cases h₁ : Frag.Has (a, n) x
  · have h₂ : ¬ Frag.Has (a + slobUnit * n, k) x := fun h₂ => hnot ⟨h₁, h₂⟩
    simp [hiff, h₁, h₂]
  · simp [hiff, h₁]

/-! ### Cells -/

section Cells

variable (m : ℕ → ℤ) {s x next : ℕ} {n : ℤ}

theorem setSlob_self (hn : 1 < n) (next : ℕ) : setSlob m s n next s = n := by
  simp [setSlob, setCell, hn, slobUnit]

theorem setSlob_of_ne (hn : 1 < n) (h₁ : x ≠ s) (h₂ : x ≠ s + slobUnit) :
    setSlob m s n next x = m x := by
  simp [setSlob, setCell, hn, h₁, h₂]

/-- `slob_next` reads the link that `set_slob` wrote. -/
theorem slobNext_setSlob (hn : 1 < n) (heven : next % 2 = 0) :
    slobNext (setSlob m s n next) s = next := by
  have hcell : setSlob m s n next (s + slobUnit) = ((next : ℤ) - pageBase s) / slobUnit := by
    simp [setSlob, setCell, hn]
  unfold slobNext
  rw [setSlob_self m hn, if_neg (by omega), hcell]
  have hbase : pageBase s % 2 = 0 := by
    unfold pageBase pageSize
    omega
  unfold slobUnit
  dsimp only
  omega

theorem slobNext_setSlob_of_ne (hn : 1 < n) (h₁ : x ≠ s) (h₂ : x ≠ s + slobUnit)
    (h₃ : x + slobUnit ≠ s) : slobNext (setSlob m s n next) x = slobNext m x := by
  have h₄ : x + slobUnit ≠ s + slobUnit := by omega
  unfold slobNext
  rw [setSlob_of_ne m hn h₁ h₂, setSlob_of_ne m hn h₃ h₄]

theorem slobUnits_of_eq {k : ℕ} (h : m s = k) (hk : 0 < k) : slobUnits m s = k := by
  unfold slobUnits
  rw [h, if_pos (by omega)]

end Cells

/-! ### The list threaded through the cells -/

/-- The cells hold the fragments `fs` in a list that starts at the first address and
ends with a link to the second. -/
def Chain (m : ℕ → ℤ) : ℕ → List Frag → ℕ → Prop
  | cur, [], stop => cur = stop
  | cur, f :: fs, stop => cur = f.1 ∧ m f.1 = f.2 ∧ Chain m (slobNext m f.1) fs stop

section Chain

variable {m m' : ℕ → ℤ} {cur stop : ℕ} {fs gs : List Frag} {f : Frag}

@[simp] theorem chain_nil : Chain m cur [] stop ↔ cur = stop := Iff.rfl

theorem chain_cons :
    Chain m cur (f :: fs) stop ↔ cur = f.1 ∧ m f.1 = f.2 ∧ Chain m (slobNext m f.1) fs stop :=
  Iff.rfl

/-- Only the two cells at the start of each fragment matter. -/
theorem Chain.congr (h : Chain m cur fs stop)
    (hm : ∀ f ∈ fs, m' f.1 = m f.1 ∧ m' (f.1 + slobUnit) = m (f.1 + slobUnit)) :
    Chain m' cur fs stop := by
  induction fs generalizing cur with
  | nil => exact h
  | cons f fs ih =>
    obtain ⟨hcur, hf, hrest⟩ := h
    obtain ⟨h₁, h₂⟩ := hm f (by simp)
    refine ⟨hcur, h₁.trans hf, ?_⟩
    have hnext : slobNext m' f.1 = slobNext m f.1 := by
      unfold slobNext
      rw [h₁, h₂]
    rw [hnext]
    exact ih hrest fun g hg => hm g (List.mem_cons_of_mem _ hg)

theorem chain_append :
    Chain m cur (fs ++ gs) stop ↔ ∃ mid, Chain m cur fs mid ∧ Chain m mid gs stop := by
  induction fs generalizing cur with
  | nil => simp
  | cons f fs ih =>
    simp only [List.cons_append, chain_cons, ih]
    constructor
    · intro h
      obtain ⟨hcur, hf, mid, h₁, h₂⟩ := h
      exact ⟨mid, ⟨hcur, hf, h₁⟩, h₂⟩
    · intro h
      obtain ⟨mid, ⟨hcur, hf, h₁⟩, h₂⟩ := h
      exact ⟨hcur, hf, mid, h₁, h₂⟩

/-- Writing a fragment that is not in the list; all of them are aligned. -/
theorem Chain.setSlob {s next : ℕ} {n : ℤ} (h : Chain m cur fs stop) (hn : 1 < n)
    (hs : s % 8 = 0) (hfs : ∀ f ∈ fs, f.1 % 8 = 0 ∧ f.1 ≠ s) :
    Chain (setSlob m s n next) cur fs stop := by
  apply h.congr
  intro f hf
  obtain ⟨h₁, h₂⟩ := hfs f hf
  constructor
  · exact setSlob_of_ne m hn h₂ (by unfold slobUnit; omega)
  · exact setSlob_of_ne m hn (by unfold slobUnit; omega) (by unfold slobUnit; omega)

/-- A nonempty list starts at its first fragment. -/
theorem Chain.head (h : Chain m cur (f :: fs) stop) : cur = f.1 := h.1

end Chain

/-! ### Well-formed lists of fragments -/

/-- The fragments lie in the page at `B`, aligned to eight bytes, in the order of their
addresses and with a gap between any two of them. -/
structure FragsWf (B : ℕ) (fs : List Frag) : Prop where
  base : B % pageSize = 0
  inside : ∀ f ∈ fs, B ≤ f.1 ∧ f.1 + slobUnit * f.2 ≤ B + pageSize
  aligned : ∀ f ∈ fs, f.1 % 8 = 0 ∧ f.2 % 4 = 0 ∧ 0 < f.2
  apart : fs.Pairwise fun f g => f.1 + slobUnit * f.2 < g.1

namespace FragsWf

variable {B : ℕ} {fs pre post : List Frag} {a n u : ℕ}

theorem sublist (h : FragsWf B fs) {gs : List Frag} (hs : gs.Sublist fs) : FragsWf B gs where
  base := h.base
  inside f hf := h.inside f (hs.subset hf)
  aligned f hf := h.aligned f (hs.subset hf)
  apart := h.apart.sublist hs

/-- A fragment before or after another one ends before it starts or starts after it
ends. -/
theorem before (h : FragsWf B (pre ++ (a, n) :: post)) {f : Frag} (hf : f ∈ pre) :
    f.1 + slobUnit * f.2 < a :=
  (List.pairwise_append.mp h.apart).2.2 f hf (a, n) (by simp)

theorem after (h : FragsWf B (pre ++ (a, n) :: post)) {f : Frag} (hf : f ∈ post) :
    a + slobUnit * n < f.1 :=
  (List.pairwise_cons.mp (List.pairwise_append.mp h.apart).2.1).1 f hf

/-- No other fragment begins inside a fragment. -/
theorem ne_of_inside (h : FragsWf B (pre ++ (a, n) :: post)) {x : ℕ} (hax : a ≤ x)
    (hxn : x < a + slobUnit * n) {f : Frag} (hf : f ∈ pre ++ post) : f.1 % 8 = 0 ∧ f.1 ≠ x := by
  have hsub : f ∈ pre ++ (a, n) :: post := by
    simp only [List.mem_append, List.mem_cons] at hf ⊢
    tauto
  refine ⟨(h.aligned f hsub).1, ?_⟩
  rcases List.mem_append.mp hf with hf | hf
  · have := h.before hf
    omega
  · have := h.after hf
    omega

theorem mid (h : FragsWf B (pre ++ (a, n) :: post)) :
    (B ≤ a ∧ a + slobUnit * n ≤ B + pageSize) ∧ a % 8 = 0 ∧ n % 4 = 0 ∧ 0 < n :=
  ⟨h.inside (a, n) (by simp), h.aligned (a, n) (by simp)⟩

/-- Every byte is in one fragment at most. -/
theorem fragCover_le_one (h : FragsWf B fs) (x : ℕ) : fragCover fs x ≤ 1 := by
  induction fs with
  | nil => simp
  | cons f fs ih =>
    rw [fragCover_cons]
    split
    · rename_i hf
      have hnone : ¬ 0 < fragCover fs x := by
        intro hpos
        obtain ⟨g, hg, hgx⟩ := fragCover_pos.mp hpos
        have hgap := (List.pairwise_cons.mp h.apart).1 g hg
        unfold Frag.Has at *
        omega
      omega
    · exact ih (h.sublist (List.sublist_cons_self _ _))

end FragsWf

/-- A list of the page at `B` starts at an even address. -/
theorem Chain.even {B : ℕ} {m : ℕ → ℤ} {cur : ℕ} {fs : List Frag}
    (hc : Chain m cur fs (B + pageSize)) (h : FragsWf B fs) : cur % 2 = 0 := by
  cases fs with
  | nil =>
    have hbase := h.base
    rw [chain_nil] at hc
    unfold pageSize at *
    omega
  | cons f fs =>
    have hal := h.aligned f (by simp)
    rw [hc.head]
    omega

/-- A list of one fragment. -/
theorem chain_singleton (m : ℕ → ℤ) {b n stop : ℕ} (hn : 1 < n) (heven : stop % 2 = 0) :
    Chain (setSlob m b n stop) b [(b, n)] stop := by
  have hn' : (1 : ℤ) < n := by omega
  rw [chain_cons, chain_nil]
  exact ⟨rfl, setSlob_self m hn' stop, slobNext_setSlob m hn' heven⟩

theorem slobUnit_mul_page : slobUnit * slobUnitsOf pageSize = pageSize := rfl

/-- The fragment that is all of a page. -/
theorem fragsWf_page {B : ℕ} (hB : B % pageSize = 0) :
    FragsWf B [(B, slobUnitsOf pageSize)] := by
  have h8 : B % 8 = 0 := by
    unfold pageSize at hB
    omega
  have h4 : slobUnitsOf pageSize % 4 = 0 ∧ 0 < slobUnitsOf pageSize := by decide
  refine ⟨hB, ?_, ?_, List.pairwise_singleton _ _⟩
  · intro f hf
    rw [List.mem_singleton.mp hf, slobUnit_mul_page]
    exact ⟨le_rfl, le_rfl⟩
  · intro f hf
    rw [List.mem_singleton.mp hf]
    exact ⟨h8, h4⟩

/-! ### Taking units from the front of a fragment -/

/-- What is left of the fragment `(a, n)` after taking `u` units from its front. -/
def fragRest (a n u : ℕ) : List Frag := if n = u then [] else [(a + slobUnit * u, n - u)]

/-- Let the fragment `prev`, if there is one, be followed by `link`. -/
def linkPrev (m : ℕ → ℤ) (prev : Option ℕ) (link : ℕ) : ℕ → ℤ :=
  prev.elim m fun p => setSlob m p (slobUnits m p) link

/-- The cells after `slob_page_alloc` has taken `u` units from the fragment `(a, n)`. -/
def takeCells (m : ℕ → ℤ) (prev : Option ℕ) (a n u : ℕ) : ℕ → ℤ :=
  let next := slobNext m a
  let rest := a + slobUnit * u
  let m₁ := linkPrev m prev (if n = u then next else rest)
  let m₂ := if n = u then m₁ else setSlob m₁ rest ((n : ℤ) - u) next
  setSlob m₂ a u rest

section Take

variable {B start : ℕ} {m : ℕ → ℤ} {pre post : List Frag} {a n u : ℕ}

theorem mem_fragRest {f : Frag} (h : f ∈ fragRest a n u) :
    n ≠ u ∧ f = (a + slobUnit * u, n - u) := by
  unfold fragRest at h
  split at h
  · cases h
  · rename_i hne
    exact ⟨hne, by simpa using h⟩

theorem fragCover_take (hu : u ≤ n) (x : ℕ) :
    fragCover (pre ++ (a, n) :: post) x =
      fragCover (pre ++ fragRest a n u ++ post) x + if Frag.Has (a, u) x then 1 else 0 := by
  have hadd := fragHas_add a u (n - u) x
  rw [Nat.add_sub_cancel' hu] at hadd
  unfold fragRest
  by_cases heq : n = u
  · subst heq
    simp only [if_true, List.append_nil, fragCover_append, fragCover_cons]
    omega
  · simp only [if_neg heq, fragCover_append, fragCover_cons, fragCover_nil, hadd]
    omega

theorem fragUnits_take (hu : u ≤ n) :
    fragUnits (pre ++ (a, n) :: post) = fragUnits (pre ++ fragRest a n u ++ post) + u := by
  simp only [fragUnits, List.map_append, List.sum_append, List.map_cons, List.sum_cons, fragRest]
  split
  · simp
    omega
  · simp
    omega

theorem FragsWf.take (h : FragsWf B (pre ++ (a, n) :: post)) (hpos : 0 < u) (hu : u ≤ n)
    (h4 : u % 4 = 0) : FragsWf B (pre ++ fragRest a n u ++ post) := by
  obtain ⟨⟨h₁, h₂⟩, h₃, h₅, -⟩ := h.mid
  -- what is left of the fragment is its end
  have hrest : ∀ f ∈ fragRest a n u, a < f.1 ∧ f.1 + slobUnit * f.2 = a + slobUnit * n ∧
      f.1 % 8 = 0 ∧ f.2 % 4 = 0 ∧ 0 < f.2 := by
    intro f hf
    obtain ⟨hne, rfl⟩ := mem_fragRest hf
    unfold slobUnit at *
    refine ⟨?_, ?_, ?_, ?_, ?_⟩ <;> simp only <;> omega
  have hpre := (List.pairwise_append.mp h.apart).1
  have hpost := (List.pairwise_cons.mp (List.pairwise_append.mp h.apart).2.1).2
  have hcross := (List.pairwise_append.mp h.apart).2.2
  refine ⟨h.base, ?_, ?_, ?_⟩
  · intro f hf
    rw [List.append_assoc, List.mem_append, List.mem_append] at hf
    rcases hf with hf | hf | hf
    · exact h.inside f (by simp [hf])
    · have := hrest f hf
      omega
    · exact h.inside f (by simp [hf])
  · intro f hf
    rw [List.append_assoc, List.mem_append, List.mem_append] at hf
    rcases hf with hf | hf | hf
    · exact h.aligned f (by simp [hf])
    · exact (hrest f hf).2.2
    · exact h.aligned f (by simp [hf])
  · rw [List.append_assoc, List.pairwise_append, List.pairwise_append]
    refine ⟨hpre, ⟨?_, hpost, fun f hf g hg => ?_⟩, fun f hf g hg => ?_⟩
    · unfold fragRest
      split <;> simp
    · have := hrest f hf
      have := h.after hg
      omega
    · rcases List.mem_append.mp hg with hg | hg
      · have := hrest g hg
        have := h.before hf
        omega
      · exact hcross f hf g (List.mem_cons_of_mem _ hg)

/-- Rewriting the link of a fragment keeps its size. -/
theorem linkPrev_concat {link : ℕ} (l : List Frag) {f : Frag} (hf : m f.1 = f.2) (hpos : 0 < f.2) :
    linkPrev m ((l ++ [f]).getLast?.map Prod.fst) link = setSlob m f.1 f.2 link := by
  rw [List.getLast?_concat]
  show setSlob m f.1 (slobUnits m f.1) link = _
  rw [slobUnits_of_eq m hf hpos]

/-- The link of the last fragment of `pre` is rewritten. -/
theorem chain_linkPrev {mid link : ℕ} (h : FragsWf B pre) (hc : Chain m start pre mid)
    (heven : link % 2 = 0) :
    Chain (linkPrev m (pre.getLast?.map Prod.fst) link) (if pre = [] then link else start) pre
      link := by
  rcases List.eq_nil_or_concat pre with rfl | ⟨l, f, rfl⟩
  · simp
  · rw [List.concat_eq_append] at *
    obtain ⟨mid', hl, hmid', hf, -⟩ := chain_append.mp hc
    have hal := h.aligned f (by simp)
    have hn : (1 : ℤ) < f.2 := by omega
    rw [linkPrev_concat l hf hal.2.2, if_neg (by simp), chain_append]
    refine ⟨mid', hl.setSlob hn hal.1 fun g hg => ?_, hmid', setSlob_self m hn link, ?_⟩
    · have hbefore := (List.pairwise_append.mp h.apart).2.2 g hg f (by simp)
      exact ⟨(h.aligned g (by simp [hg])).1, by omega⟩
    · exact slobNext_setSlob m hn heven

theorem Chain.linkPrev {cur stop link : ℕ} {gs : List Frag} (hc : Chain m cur gs stop)
    (h : FragsWf B (pre ++ gs)) (hpre : ∀ f ∈ pre, m f.1 = f.2) :
    Chain (linkPrev m (pre.getLast?.map Prod.fst) link) cur gs stop := by
  rcases List.eq_nil_or_concat pre with rfl | ⟨l, f, rfl⟩
  · exact hc
  · rw [List.concat_eq_append] at *
    have hal := h.aligned f (by simp)
    rw [linkPrev_concat l (hpre f (by simp)) hal.2.2]
    refine hc.setSlob (by omega) hal.1 fun g hg => ⟨(h.aligned g (by simp [hg])).1, ?_⟩
    have := (List.pairwise_append.mp h.apart).2.2 f (by simp) g hg
    omega

theorem Chain.units_eq {cur stop : ℕ} {gs : List Frag} (hc : Chain m cur gs stop) :
    ∀ f ∈ gs, m f.1 = f.2 := by
  induction gs generalizing cur with
  | nil => simp
  | cons g gs ih =>
    intro f hf
    rcases List.mem_cons.mp hf with rfl | hf
    · exact hc.2.1
    · exact ih hc.2.2 f hf

/-- The list after taking units: `start` is the head the page had, and the page gets
a new one if there is no fragment before. -/
theorem chain_take (h : FragsWf B (pre ++ (a, n) :: post))
    (hc : Chain m start (pre ++ (a, n) :: post) (B + pageSize)) (hpos : 0 < u) (hu : u ≤ n)
    (h4 : u % 4 = 0) :
    Chain (takeCells m (pre.getLast?.map Prod.fst) a n u)
      (if pre = [] then (if n = u then slobNext m a else a + slobUnit * u) else start)
      (pre ++ fragRest a n u ++ post) (B + pageSize) := by
  obtain ⟨mid, hpre, -, -, hpost⟩ := chain_append.mp hc
  obtain ⟨-, ha8, hn4, -⟩ := h.mid
  have hsub : (pre ++ post).Sublist (pre ++ (a, n) :: post) :=
    (List.sublist_cons_self _ _).append_left pre
  have hwf := h.sublist hsub
  have hnext : slobNext m a % 2 = 0 := hpost.even (hwf.sublist (List.sublist_append_right _ _))
  have hpart := h.sublist (List.sublist_append_left pre _)
  have hu1 : (1 : ℤ) < u := by omega
  set link := if n = u then slobNext m a else a + slobUnit * u with hlink
  have hlink2 : link % 2 = 0 := by
    rw [hlink]
    unfold slobUnit
    split <;> omega
  have h₁ := chain_linkPrev hpart hpre hlink2
  have h₂ : Chain (linkPrev m (pre.getLast?.map Prod.fst) link) (slobNext m a) post
      (B + pageSize) := hpost.linkPrev hwf hpre.units_eq
  have hother : ∀ f ∈ pre ++ post, f.1 % 8 = 0 ∧ f.1 ≠ a := fun f hf =>
    h.ne_of_inside (Nat.le_refl a) (by unfold slobUnit; omega) hf
  rw [List.append_assoc, chain_append]
  unfold takeCells
  dsimp only
  rw [← hlink]
  by_cases heq : n = u
  · rw [if_pos heq] at hlink ⊢
    have hrest : fragRest a n u = [] := if_pos heq
    rw [hrest]
    refine ⟨link, h₁.setSlob hu1 ha8 fun f hf => hother f (by simp [hf]), ?_⟩
    have h₃ : Chain (setSlob _ a u (a + slobUnit * u)) _ post _ :=
      h₂.setSlob hu1 ha8 fun f hf => hother f (by simp [hf])
    rw [hlink] at h₃ ⊢
    exact h₃
  · rw [if_neg heq] at hlink ⊢
    have hrest : fragRest a n u = [(a + slobUnit * u, n - u)] := if_neg heq
    have hr8 : (a + slobUnit * u) % 8 = 0 := by
      unfold slobUnit
      omega
    have hsize : (1 : ℤ) < (n : ℤ) - u := by omega
    -- the rest of the fragment is behind `pre` and before `post`
    have hneq : ∀ f ∈ pre ++ post, f.1 % 8 = 0 ∧ f.1 ≠ a + slobUnit * u := fun f hf =>
      h.ne_of_inside (Nat.le_add_right a _) (by unfold slobUnit; omega) hf
    have hne : a + slobUnit * u ≠ a := by
      unfold slobUnit
      omega
    have hne' : a + slobUnit * u ≠ a + slobUnit := by
      unfold slobUnit
      omega
    rw [hrest]
    refine ⟨link, ?_, ?_⟩
    · exact (h₁.setSlob hsize hr8 fun f hf => hneq f (by simp [hf])).setSlob hu1 ha8
        fun f hf => hother f (by simp [hf])
    · rw [List.singleton_append, chain_cons]
      refine ⟨hlink, ?_, ?_⟩
      · show setSlob _ a u _ (a + slobUnit * u) = ((n - u : ℕ) : ℤ)
        rw [setSlob_of_ne _ hu1 hne hne', setSlob_self _ hsize]
        omega
      · show Chain _ (slobNext _ (a + slobUnit * u)) post _
        have hsame : slobNext (setSlob (setSlob (linkPrev m (pre.getLast?.map Prod.fst) link)
            (a + slobUnit * u) ((n : ℤ) - u) (slobNext m a)) a u (a + slobUnit * u))
            (a + slobUnit * u) = slobNext m a := by
          rw [slobNext_setSlob_of_ne _ hu1 hne hne' (by unfold slobUnit; omega)]
          exact slobNext_setSlob _ hsize hnext
        rw [hsame]
        exact (h₂.setSlob hsize hr8 fun f hf => hneq f (by simp [hf])).setSlob hu1 ha8
          fun f hf => hother f (by simp [hf])

/-- The size of the block taken is recorded in its first cell. -/
theorem takeCells_self (prev : Option ℕ) (hpos : 0 < u) (h4 : u % 4 = 0) :
    takeCells m prev a n u a = u := by
  unfold takeCells
  exact setSlob_self _ (by omega) _

/-- The cells are written inside the free fragments only. -/
theorem takeCells_of_not_has (h : FragsWf B (pre ++ (a, n) :: post))
    (hpre : ∀ f ∈ pre, m f.1 = f.2) (hpos : 0 < u) (hu : u ≤ n) (h4 : u % 4 = 0) {x : ℕ}
    (hx : ∀ f ∈ pre ++ (a, n) :: post, ¬ Frag.Has f x) :
    takeCells m (pre.getLast?.map Prod.fst) a n u x = m x := by
  obtain ⟨-, -, hn4, -⟩ := h.mid
  have ha : ¬ (a ≤ x ∧ x < a + slobUnit * n) := hx (a, n) (by simp)
  have hlink : ∀ link, linkPrev m (pre.getLast?.map Prod.fst) link x = m x := by
    intro link
    rcases List.eq_nil_or_concat pre with rfl | ⟨l, f, rfl⟩
    · rfl
    · rw [List.concat_eq_append] at *
      have hal := h.aligned f (by simp)
      have hf : ¬ (f.1 ≤ x ∧ x < f.1 + slobUnit * f.2) := hx f (by simp)
      rw [linkPrev_concat l (hpre f (by simp)) hal.2.2]
      unfold slobUnit at hf
      exact setSlob_of_ne m (by omega) (by omega) (by unfold slobUnit; omega)
  unfold takeCells
  unfold slobUnit at *
  rw [setSlob_of_ne _ (by omega) (by omega) (by unfold slobUnit; omega)]
  split
  · exact hlink _
  · rw [setSlob_of_ne _ (by omega) (by omega) (by unfold slobUnit; omega)]
    exact hlink _

end Take

/-- The loop of `slob_page_alloc`, having passed the fragments `pre`, goes on to the
first fragment that has room for `u` units. -/
theorem slobPageAllocLoop_eq {h : Heap} {sp : ℤ} {B start u fuel : ℕ} {pre gs : List Frag}
    (hwf : FragsWf B (pre ++ gs)) (hc : Chain h.units start gs (B + pageSize)) (hgs : gs ≠ [])
    (hfuel : gs.length ≤ fuel) :
    (∃ mid a n post, gs = mid ++ (a, n) :: post ∧ (∀ f ∈ mid, f.2 < u) ∧ u ≤ n ∧
      slobPageAllocLoop h sp u archSlobMinalign fuel (pre.getLast?.map Prod.fst) start =
        some (a + archSlobMinalign,
          slobTake h sp u ((pre ++ mid).getLast?.map Prod.fst) a n)) ∨
    ((∀ f ∈ gs, f.2 < u) ∧
      slobPageAllocLoop h sp u archSlobMinalign fuel (pre.getLast?.map Prod.fst) start = none) := by
  induction gs generalizing pre start fuel with
  | nil => exact absurd rfl hgs
  | cons f gs ih =>
    obtain ⟨hstart, hf, hrest⟩ := hc
    have hal := hwf.aligned f (by simp)
    have hin := hwf.inside f (by simp)
    cases fuel with
    | zero => simp at hfuel
    | succ fuel =>
      have havail : slobUnits h.units start = f.2 := by
        rw [hstart]
        exact slobUnits_of_eq _ hf hal.2.2
      -- fragments are aligned, so no head is ever split off
      have hdelta : (((start + archSlobMinalign - 1) / archSlobMinalign * archSlobMinalign : ℕ) : ℤ)
          - start = 0 := by
        unfold archSlobMinalign
        omega
      unfold slobPageAllocLoop
      dsimp only
      rw [havail, hdelta]
      by_cases hroom : u ≤ f.2
      · left
        refine ⟨[], f.1, f.2, gs, rfl, by simp, hroom, ?_⟩
        rw [if_pos (by simp [archSlobMinalign]; omega), if_pos (by simp), hstart]
        simp
      · have hsmall : f.2 < u := by omega
        rw [if_neg (by simp [archSlobMinalign]; omega)]
        cases gs with
        | nil =>
          right
          have hlast : slobLast h.units start := by
            have hbase := hwf.base
            rw [chain_nil] at hrest
            unfold slobLast
            rw [hstart, hrest]
            unfold pageSize at *
            omega
          rw [if_pos hlast]
          exact ⟨by simpa using hsmall, rfl⟩
        | cons g gs =>
          have hnext : slobNext h.units start = g.1 := by
            rw [hstart]
            exact hrest.head
          have hnot : ¬ slobLast h.units start := by
            have hbase := hwf.base
            have hg := hwf.inside g (by simp)
            have hgal := hwf.aligned g (by simp)
            have hlt := (List.pairwise_cons.mp (List.pairwise_append.mp hwf.apart).2.1).1 g (by simp)
            unfold slobLast
            rw [hnext]
            unfold pageSize slobUnit at *
            omega
          rw [if_neg hnot, hstart]
          have hwf' : FragsWf B ((pre ++ [f]) ++ g :: gs) := by simpa using hwf
          have hlast : (pre ++ [f]).getLast?.map Prod.fst = some f.1 := by simp
          have hlen : (g :: gs).length ≤ fuel := by simpa using hfuel
          rcases ih hwf' hrest (by simp) hlen with hfound | hnone
          · left
            obtain ⟨mid, a, n, post, hgs', hmid, hn, heq⟩ := hfound
            refine ⟨f :: mid, a, n, post, by rw [hgs', List.cons_append], ?_, hn, ?_⟩
            · intro x hx
              rcases List.mem_cons.mp hx with rfl | hx
              · exact hsmall
              · exact hmid x hx
            · rw [hlast] at heq
              rw [heq, List.append_assoc, List.singleton_append]
          · right
            obtain ⟨hall, heq⟩ := hnone
            rw [hlast] at heq
            refine ⟨?_, heq⟩
            intro x hx
            rcases List.mem_cons.mp hx with rfl | hx
            · exact hsmall
            · exact hall x hx

/-- A fragment takes eight bytes at least. -/
theorem FragsWf.length_mul_le {B lo : ℕ} {fs : List Frag} (h : FragsWf B fs)
    (hlo : ∀ f ∈ fs, lo ≤ f.1) (hle : lo ≤ B + pageSize) : lo + 8 * fs.length ≤ B + pageSize := by
  induction fs generalizing lo with
  | nil => simpa using hle
  | cons f fs ih =>
    have hin := h.inside f (by simp)
    have hal := h.aligned f (by simp)
    have hf := hlo f (by simp)
    have hrec := ih (h.sublist (List.sublist_cons_self _ _))
      (fun g hg => ((List.pairwise_cons.mp h.apart).1 g hg).le) hin.2
    rw [List.length_cons]
    unfold slobUnit at *
    omega

theorem FragsWf.length_le {B : ℕ} {fs : List Frag} (h : FragsWf B fs) : fs.length ≤ pageSize := by
  have := h.length_mul_le (fun f hf => (h.inside f hf).1) (Nat.le_add_right B pageSize)
  omega

/-- `slob_page_alloc` takes from the first fragment that has room enough, and returns
`NULL` exactly when there is none. -/
theorem slobPageAlloc_eq {h : Heap} {sp : ℤ} {B : ℕ} {fs : List Frag} (size : ℕ)
    (hwf : FragsWf B fs) (hc : Chain h.units (h.zone.page sp).index fs (B + pageSize))
    (hfs : fs ≠ []) :
    (∃ pre a n post, fs = pre ++ (a, n) :: post ∧ (∀ f ∈ pre, f.2 < slobUnitsOf size) ∧
      slobUnitsOf size ≤ n ∧ slobPageAlloc h sp size archSlobMinalign =
        some (a + archSlobMinalign,
          slobTake h sp (slobUnitsOf size) (pre.getLast?.map Prod.fst) a n)) ∨
    ((∀ f ∈ fs, f.2 < slobUnitsOf size) ∧ slobPageAlloc h sp size archSlobMinalign = none) := by
  have hwf' : FragsWf B ([] ++ fs) := hwf
  exact slobPageAllocLoop_eq hwf' hc hfs hwf.length_le

/-! ### Giving a block back -/

/-- Put a block before a list of fragments, as one with the first if it is adjacent. -/
def joinFrag (b u : ℕ) : List Frag → List Frag
  | [] => [(b, u)]
  | (a, n) :: fs => if b + slobUnit * u = a then (b, u + n) :: fs else (b, u) :: (a, n) :: fs

section Join

variable {B b u : ℕ} {m : ℕ → ℤ} {fs : List Frag}

theorem joinFrag_cons (a n : ℕ) : joinFrag b u ((a, n) :: fs) =
    if b + slobUnit * u = a then (b, u + n) :: fs else (b, u) :: (a, n) :: fs := rfl

theorem fragCover_joinFrag (x : ℕ) :
    fragCover (joinFrag b u fs) x = fragCover fs x + if Frag.Has (b, u) x then 1 else 0 := by
  cases fs with
  | nil => simp [joinFrag, fragCover_cons]
  | cons f fs =>
    obtain ⟨a, n⟩ := f
    rw [joinFrag_cons]
    split
    · rename_i heq
      have hadd := fragHas_add b u n x
      rw [heq] at hadd
      simp only [fragCover_cons, hadd]
      omega
    · simp only [fragCover_cons]

theorem fragUnits_joinFrag : fragUnits (joinFrag b u fs) = fragUnits fs + u := by
  cases fs with
  | nil => simp [joinFrag, fragUnits]
  | cons f fs =>
    obtain ⟨a, n⟩ := f
    rw [joinFrag_cons]
    split
    · simp [fragUnits]
      omega
    · simp [fragUnits]
      omega

theorem joinFrag_ne_nil : joinFrag b u fs ≠ [] := by
  cases fs with
  | nil => simp [joinFrag]
  | cons f fs =>
    obtain ⟨a, n⟩ := f
    rw [joinFrag_cons]
    split <;> simp

theorem le_of_mem_joinFrag (hb : ∀ f ∈ fs, b + slobUnit * u ≤ f.1) :
    ∀ f ∈ joinFrag b u fs, b ≤ f.1 := by
  cases fs with
  | nil => simp [joinFrag]
  | cons f fs =>
    obtain ⟨a, n⟩ := f
    intro g hg
    rw [joinFrag_cons] at hg
    split at hg
    · rcases List.mem_cons.mp hg with rfl | hg
      · exact le_rfl
      · have := hb g (List.mem_cons_of_mem _ hg)
        omega
    · rcases List.mem_cons.mp hg with rfl | hg
      · exact le_rfl
      · have := hb g hg
        omega

/-- A block that may be given back to the page at `B`. -/
structure BlockWf (B b u : ℕ) : Prop where
  inside : B ≤ b ∧ b + slobUnit * u ≤ B + pageSize
  aligned : b % 8 = 0 ∧ u % 4 = 0 ∧ 0 < u

theorem FragsWf.joinFrag (h : FragsWf B fs) (hw : BlockWf B b u)
    (hb : ∀ f ∈ fs, b + slobUnit * u ≤ f.1) : FragsWf B (joinFrag b u fs) := by
  cases fs with
  | nil =>
    refine ⟨h.base, ?_, ?_, by simp [YakOS.joinFrag]⟩
    · simpa [YakOS.joinFrag] using hw.inside
    · simpa [YakOS.joinFrag] using hw.aligned
  | cons f fs =>
    obtain ⟨a, n⟩ := f
    obtain ⟨h₁, h₂⟩ := hw.inside
    obtain ⟨h₃, h₄, h₅⟩ := hw.aligned
    obtain ⟨h₆, h₇⟩ := h.inside (a, n) (by simp)
    obtain ⟨h₈, h₉, h₁₀⟩ := h.aligned (a, n) (by simp)
    have hpair := List.pairwise_cons.mp h.apart
    have hgap := hb (a, n) (by simp)
    unfold slobUnit at *
    simp only at *
    rw [joinFrag_cons]
    unfold slobUnit
    split
    · -- the block ends where the first fragment begins, and takes it in
      rename_i heq
      refine ⟨h.base, ?_, ?_, List.pairwise_cons.mpr ⟨?_, hpair.2⟩⟩
      · intro g hg
        rcases List.mem_cons.mp hg with rfl | hg
        · unfold slobUnit at *
          simp only
          omega
        · exact h.inside g (List.mem_cons_of_mem _ hg)
      · intro g hg
        rcases List.mem_cons.mp hg with rfl | hg
        · simp only
          omega
        · exact h.aligned g (List.mem_cons_of_mem _ hg)
      · intro g hg
        have := hpair.1 g hg
        unfold slobUnit at *
        simp only
        omega
    · -- it becomes a fragment of its own
      rename_i hne
      refine ⟨h.base, ?_, ?_, List.pairwise_cons.mpr ⟨?_, h.apart⟩⟩
      · intro g hg
        rcases List.mem_cons.mp hg with rfl | hg
        · exact hw.inside
        · exact h.inside g hg
      · intro g hg
        rcases List.mem_cons.mp hg with rfl | hg
        · exact hw.aligned
        · exact h.aligned g hg
      · intro g hg
        unfold slobUnit at *
        simp only
        rcases List.mem_cons.mp hg with rfl | hg
        · simp only
          omega
        · have := hpair.1 g hg
          omega

/-- The size and the link that `slob_free` writes into a block it puts before `fs`. -/
def joinCells (m : ℕ → ℤ) (b u next : ℕ) (fs : List Frag) : ℕ → ℤ :=
  if fs ≠ [] ∧ b + slobUnit * u = next then
    setSlob m b ((u : ℤ) + slobUnits m next) (slobNext m next)
  else setSlob m b u next

/-- Writing one fragment puts the block in front of the list. -/
theorem chain_joinCells {next : ℕ} (h : FragsWf B fs) (hw : BlockWf B b u)
    (hb : ∀ f ∈ fs, b + slobUnit * u ≤ f.1) (hc : Chain m next fs (B + pageSize)) :
    Chain (joinCells m b u next fs) b (joinFrag b u fs) (B + pageSize) := by
  obtain ⟨h₃, h₄, h₅⟩ := hw.aligned
  have hu : (1 : ℤ) < u := by omega
  have hne : ∀ f ∈ fs, f.1 % 8 = 0 ∧ f.1 ≠ b := by
    intro f hf
    have := hb f hf
    unfold slobUnit at this
    exact ⟨(h.aligned f hf).1, by omega⟩
  unfold joinCells
  cases fs with
  | nil =>
    rw [if_neg (by simp)]
    refine ⟨rfl, setSlob_self m hu next, ?_⟩
    show slobNext _ b = _
    rw [slobNext_setSlob m hu (hc.even h)]
    exact hc
  | cons f fs =>
    obtain ⟨a, n⟩ := f
    have hal := h.aligned (a, n) (by simp)
    have htail := h.sublist (List.sublist_cons_self _ _)
    obtain rfl : next = a := hc.head
    have hunits : slobUnits m next = n := slobUnits_of_eq m hc.2.1 hal.2.2
    -- one size is written either way: that of both, or that of the block
    by_cases heq : b + slobUnit * u = next
    · have hsize : (1 : ℤ) < (u : ℤ) + n := by omega
      rw [if_pos ⟨by simp, heq⟩, hunits]
      rw [joinFrag_cons, if_pos heq]
      refine ⟨rfl, ?_, ?_⟩
      · rw [setSlob_self m hsize]
        simp
      · show Chain _ (slobNext _ b) fs _
        rw [slobNext_setSlob m hsize (hc.2.2.even htail)]
        exact hc.2.2.setSlob hsize h₃ fun f hf => hne f (List.mem_cons_of_mem _ hf)
    · rw [if_neg fun hcon => heq hcon.2]
      rw [joinFrag_cons, if_neg heq]
      refine ⟨rfl, setSlob_self m hu next, ?_⟩
      show Chain _ (slobNext _ b) _ _
      rw [slobNext_setSlob m hu (hc.even h)]
      exact hc.setSlob hu h₃ hne

/-- The cells written lie in the block. -/
theorem joinCells_of_not_has {next x : ℕ} (hw : BlockWf B b u)
    (hpos : fs ≠ [] → b + slobUnit * u = next → 0 < slobUnits m next)
    (hx : ¬ Frag.Has (b, u) x) : joinCells m b u next fs x = m x := by
  obtain ⟨-, h₄, h₅⟩ := hw.aligned
  unfold Frag.Has slobUnit at hx
  simp only at hx
  unfold joinCells
  split
  · rename_i hcon
    have := hpos hcon.1 hcon.2
    exact setSlob_of_ne m (by omega) (by omega) (by unfold slobUnit; omega)
  · exact setSlob_of_ne m (by omega) (by omega) (by unfold slobUnit; omega)

end Join

/-- The loop of `slob_free` stops at the last fragment before the block. -/
theorem slobFreeFind_eq {m : ℕ → ℤ} {B b start fuel : ℕ} {f : Frag} {gs : List Frag}
    (h : FragsWf B (f :: gs)) (hc : Chain m start (f :: gs) (B + pageSize)) (hf : f.1 < b)
    (hb : b < B + pageSize) (hfuel : (f :: gs).length ≤ fuel) :
    ∃ l₀ a₀ n₀ l₂, f :: gs = l₀ ++ (a₀, n₀) :: l₂ ∧ a₀ < b ∧ (∀ g ∈ l₂, b ≤ g.1) ∧
      slobFreeFind m b fuel start = a₀ := by
  induction gs generalizing f start fuel with
  | nil =>
    cases fuel with
    | zero => simp at hfuel
    | succ fuel =>
      refine ⟨[], f.1, f.2, [], rfl, hf, by simp, ?_⟩
      have hnext : slobNext m start = B + pageSize := by
        rw [hc.1]
        exact hc.2.2
      unfold slobFreeFind
      rw [hnext, if_neg (by omega), hc.1]
  | cons g gs ih =>
    cases fuel with
    | zero => simp at hfuel
    | succ fuel =>
      have hnext : slobNext m start = g.1 := by
        rw [hc.1]
        exact hc.2.2.head
      unfold slobFreeFind
      rw [hnext]
      split
      · rename_i hlt
        have hrest : Chain m g.1 (g :: gs) (B + pageSize) := by
          rw [← hc.2.2.head]
          exact hc.2.2
        obtain ⟨l₀, a₀, n₀, l₂, heq, ha, hl, hfind⟩ :=
          ih (h.sublist (List.sublist_cons_self _ _)) hrest hlt (by simpa using hfuel)
        exact ⟨f :: l₀, a₀, n₀, l₂, by rw [heq, List.cons_append], ha, hl, hfind⟩
      · refine ⟨[], f.1, f.2, g :: gs, rfl, hf, ?_, hc.1⟩
        intro x hx
        rcases List.mem_cons.mp hx with rfl | hx
        · omega
        · have hpair := List.pairwise_cons.mp (List.pairwise_cons.mp h.apart).2
          have := hpair.1 x hx
          omega

section Free

variable {m : ℕ → ℤ} {B b u start : ℕ}

/-- The block goes in front of all fragments. -/
theorem slobFreeBefore_eq {fs : List Frag} (hfs : fs ≠ []) :
    setSlob m b (if b + slobUnit * (u : ℤ).toNat = start then (u : ℤ) + slobUnits m start else u)
        (if b + slobUnit * (u : ℤ).toNat = start then slobNext m start else start) =
      joinCells m b u start fs := by
  unfold joinCells
  rw [Int.toNat_natCast]
  by_cases heq : b + slobUnit * u = start
  · rw [if_pos heq, if_pos heq, if_pos ⟨hfs, heq⟩]
  · rw [if_neg heq, if_neg heq, if_neg fun hcon => heq hcon.2]

variable {l₀ l₂ : List Frag} {a₀ n₀ : ℕ}

/-- `slob_last` says whether a fragment follows. -/
theorem not_slobLast_iff (h : FragsWf B (l₀ ++ (a₀, n₀) :: l₂))
    (hc : Chain m (slobNext m a₀) l₂ (B + pageSize)) : ¬ slobLast m a₀ ↔ l₂ ≠ [] := by
  have hbase := h.base
  unfold slobLast
  cases l₂ with
  | nil =>
    rw [chain_nil] at hc
    rw [hc]
    unfold pageSize at *
    simp
    omega
  | cons g gs =>
    have hg := h.inside g (by simp)
    have hgal := h.aligned g (by simp)
    have hgap := h.after (f := g) (by simp)
    have hin := h.mid
    rw [hc.head]
    unfold pageSize slobUnit at *
    simp
    omega

/-- The fragments before a place and a list from that place on make a list. -/
theorem FragsWf.append (h : FragsWf B (l₀ ++ (a₀, n₀) :: l₂)) {gs : List Frag}
    (hgs : FragsWf B gs) (hle : ∀ g ∈ gs, a₀ ≤ g.1) : FragsWf B (l₀ ++ gs) where
  base := h.base
  inside f hf := by
    rcases List.mem_append.mp hf with hf | hf
    · exact h.inside f (by simp [hf])
    · exact hgs.inside f hf
  aligned f hf := by
    rcases List.mem_append.mp hf with hf | hf
    · exact h.aligned f (by simp [hf])
    · exact hgs.aligned f hf
  apart := by
    rw [List.pairwise_append]
    refine ⟨(List.pairwise_append.mp h.apart).1, hgs.apart, ?_⟩
    intro f hf g hg
    exact (h.before hf).trans_le (hle g hg)

/-- The block goes behind the fragment `(a₀, n₀)`, as one with the fragments before
and after it that are adjacent. -/
theorem slobFreeAfter_spec (h : FragsWf B (l₀ ++ (a₀, n₀) :: l₂))
    (hc : Chain m start (l₀ ++ (a₀, n₀) :: l₂) (B + pageSize)) (hw : BlockWf B b u)
    (hl : a₀ + slobUnit * n₀ ≤ b) (hr : ∀ g ∈ l₂, b + slobUnit * u ≤ g.1) :
    FragsWf B (l₀ ++ joinFrag a₀ n₀ (joinFrag b u l₂)) ∧
      Chain (slobFreeAfter m a₀ b u) start (l₀ ++ joinFrag a₀ n₀ (joinFrag b u l₂))
        (B + pageSize) ∧
      ∀ x, (∀ f ∈ l₀ ++ (a₀, n₀) :: l₂, ¬ Frag.Has f x) → ¬ Frag.Has (b, u) x →
        slobFreeAfter m a₀ b u x = m x := by
  obtain ⟨mid, hc₀, hmid, ha, hc₂⟩ := chain_append.mp hc
  simp only at hmid ha hc₂
  rw [hmid] at hc₀
  obtain ⟨hin, hal⟩ := h.mid
  have hwa : BlockWf B a₀ n₀ := ⟨hin, hal⟩
  have hwf₂ : FragsWf B l₂ := h.sublist ((List.sublist_cons_self _ _).trans
    (List.sublist_append_right _ _))
  have hjoin := hwf₂.joinFrag hw hr
  have hafter : ∀ f ∈ joinFrag b u l₂, a₀ + slobUnit * n₀ ≤ f.1 := fun f hf =>
    hl.trans (le_of_mem_joinFrag hr f hf)
  have hu : (1 : ℤ) < u := by have := hw.aligned; omega
  set next := slobNext m a₀ with hnext
  set m₁ := joinCells m b u next l₂ with hm₁
  have hlast : ¬ slobLast m a₀ ↔ l₂ ≠ [] := not_slobLast_iff h hc₂
  have hpos : l₂ ≠ [] → b + slobUnit * u = next → 0 < slobUnits m next := by
    intro _ _
    unfold slobUnits
    split <;> omega
  -- the first of the two joins writes to the block only
  have hcell : ∀ x, ¬ Frag.Has (b, u) x → m₁ x = m x := fun x hx =>
    joinCells_of_not_has hw hpos hx
  have ha₀ : m₁ a₀ = n₀ := by
    rw [hcell a₀ (by unfold Frag.Has slobUnit at *; simp only; omega), ha]
  have hunits : slobUnits m₁ a₀ = n₀ := slobUnits_of_eq m₁ ha₀ hal.2.2
  -- the code joins the block with what is behind it, and then the fragment before with both
  have heq : slobFreeAfter m a₀ b u = joinCells m₁ a₀ n₀ b (joinFrag b u l₂) := by
    unfold slobFreeAfter
    dsimp only
    rw [← hnext, Int.toNat_natCast]
    simp only [hlast]
    have hm₁' : (if l₂ ≠ [] ∧ b + slobUnit * u = next then
        setSlob m b ((u : ℤ) + slobUnits m next) (slobNext m next) else setSlob m b u next) =
          m₁ := hm₁.symm
    rw [hm₁', hunits, Int.toNat_natCast]
    unfold joinCells
    by_cases hadj : a₀ + slobUnit * n₀ = b
    · rw [if_pos hadj, if_pos ⟨joinFrag_ne_nil, hadj⟩, Int.add_comm]
    · rw [if_neg hadj, if_neg fun hcon => hadj hcon.2]
  have hchain₁ : Chain m₁ b (joinFrag b u l₂) (B + pageSize) := chain_joinCells hwf₂ hw hr hc₂
  have hchain₂ := chain_joinCells hjoin hwa hafter hchain₁
  have hpos₂ : joinFrag b u l₂ ≠ [] → a₀ + slobUnit * n₀ = b → 0 < slobUnits m₁ b := by
    intro _ _
    unfold slobUnits
    split <;> omega
  rw [heq]
  refine ⟨?_, chain_append.mpr ⟨a₀, ?_, hchain₂⟩, fun x hx hxb => ?_⟩
  · exact h.append (hjoin.joinFrag hwa hafter) (le_of_mem_joinFrag hafter)
  · apply hc₀.congr
    intro f hf
    have hf₁ := h.before hf
    have hf₂ := h.aligned f (by simp [hf])
    have hb₈ := hw.aligned.1
    unfold slobUnit at *
    have hout : ∀ x, x < a₀ → joinCells m₁ a₀ n₀ b (joinFrag b u l₂) x = m x := by
      intro x hx
      rw [joinCells_of_not_has hwa hpos₂ (by unfold Frag.Has; simp only; omega),
        hcell x (by unfold Frag.Has; simp only; omega)]
    exact ⟨hout _ (by omega), hout _ (by omega)⟩
  · rw [joinCells_of_not_has hwa hpos₂ (hx _ (by simp)), hcell x hxb]

end Free

/-! ### Reading the fragments off the page -/

/-- The free fragments of a page, from the one at `cur` on. -/
def fragWalk (m : ℕ → ℤ) : ℕ → ℕ → List Frag
  | 0, _ => []
  | fuel + 1, cur =>
    (cur, (slobUnits m cur).toNat) ::
      if slobLast m cur then [] else fragWalk m fuel (slobNext m cur)

/-- The walk reads the fragments off the page. -/
theorem fragWalk_eq {m : ℕ → ℤ} {B cur fuel : ℕ} {fs : List Frag} (hwf : FragsWf B fs)
    (hc : Chain m cur fs (B + pageSize)) (hfs : fs ≠ []) (hfuel : fs.length ≤ fuel) :
    fragWalk m fuel cur = fs := by
  induction fs generalizing cur fuel with
  | nil => exact absurd rfl hfs
  | cons f fs ih =>
    cases fuel with
    | zero => simp at hfuel
    | succ fuel =>
      obtain ⟨hcur, hunits, hrest⟩ := hc
      have hpos := (hwf.aligned f (by simp)).2.2
      have hwf' : FragsWf B ([] ++ (f.1, f.2) :: fs) := hwf
      have hlast : ¬ slobLast m f.1 ↔ fs ≠ [] := not_slobLast_iff hwf' hrest
      unfold fragWalk
      rw [hcur, slobUnits_of_eq m hunits hpos, Int.toNat_natCast]
      congr 1
      by_cases hnil : fs = []
      · rw [if_pos (not_not.mp fun hl => hlast.mp hl hnil), hnil]
      · rw [if_neg (hlast.mpr hnil)]
        exact ih (hwf.sublist (List.sublist_cons_self _ _)) hrest hnil
          (by simpa using hfuel)

end YakOS
