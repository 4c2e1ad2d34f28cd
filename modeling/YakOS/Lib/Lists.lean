import Mathlib.Data.List.Induction
import Mathlib.Data.List.Nodup
import Mathlib.Data.List.Rotate
import Mathlib.Order.Lattice

/-!
# Scans of lists

Facts about the loops that look for the first hit: over the numbers below a bound,
once around a circular list from one of its nodes, and along a list up to the place
where something is put in.

## Main definitions

* `around p l` — the nodes of the circular list `l` met after `p`, up to `p` again.
* `insertAfter p a l` — the list `l` with `a` put behind the first entry that meets `p`,
  or at the end.

## Main results

* `findSome?_range_eq_some_iff`, `findSome?_range_eq_none_iff` — where a scan of the
  numbers below a bound stops.
* `mem_around` — going around a list meets every other node.
* `filter_around_next` — the nodes a filter keeps, from the next of them on.
* `foldl_range_of_last` — what a walk keeps when the last hit decides.
* `foldlM_inv`, `foldlM_ok_iff`, `foldlM_error_iff` — what a walk that may fail keeps, when
  it does not fail, and where it does.
* `pairwise_insertAfter` — when an ordered list is still ordered after a new entry was
  put behind its first smaller one.
-/

namespace Lists

variable {α β : Type*}

/-- A list without repetitions, with one entry taken out. -/
theorem mem_append_of_nodup {x y : α} {l₁ l₂ : List α} (h : (l₁ ++ x :: l₂).Nodup) :
    y ∈ l₁ ++ l₂ ↔ y ≠ x ∧ y ∈ l₁ ++ x :: l₂ := by
  have hx := (List.nodup_cons.mp (List.nodup_middle.mp h)).1
  rw [List.mem_append, List.mem_append, List.mem_cons]
  constructor
  · intro hy
    exact ⟨fun e => hx (List.mem_append.mpr (e ▸ hy)), hy.imp id Or.inr⟩
  · rintro ⟨hne, hy | hy | hy⟩
    · exact Or.inl hy
    · exact absurd hy hne
    · exact Or.inr hy

/-- The last entry of a list in ascending order is the greatest one. -/
theorem getLast?_eq_some_iff_of_pairwise [LinearOrder α] {l : List α} (h : l.Pairwise (· < ·)) {w : α} :
    l.getLast? = some w ↔ w ∈ l ∧ ∀ u ∈ l, u ≤ w := by
  induction l using List.reverseRecOn with
  | nil => simp
  | append_singleton l a _ =>
    have hlt : ∀ u ∈ l, u < a := fun u hu => (List.pairwise_append.mp h).2.2 u hu a (by simp)
    rw [List.getLast?_append, List.getLast?_singleton, Option.some_or, Option.some.injEq]
    constructor
    · rintro rfl
      refine ⟨by simp, ?_⟩
      intro u hu
      rcases List.mem_append.mp hu with hu | hu
      · exact (hlt u hu).le
      · exact (List.mem_singleton.mp hu).le
    · rintro ⟨hw, hmax⟩
      rcases List.mem_append.mp hw with hw | hw
      · exact absurd (hmax a (by simp)) (not_le_of_gt (hlt w hw))
      · exact (List.mem_singleton.mp hw).symm

/-- A walk that keeps the last value it finds. -/
theorem foldl_getD (f : α → Option β) (l : List α) (r : β) :
    l.foldl (fun r a => (f a).getD r) r =
      (((l.filter fun a => (f a).isSome).getLast?).bind f).getD r := by
  induction l using List.reverseRecOn with
  | nil => rfl
  | append_singleton l a ih =>
    rw [List.foldl_append, ih, List.filter_append]
    cases h : f a <;> simp [h]

/-- The places of a list are its first place and those of the rest. -/
theorem forall_split_cons {P : List α → α → List α → Prop} {a : α} {l : List α} :
    (∀ as b bs, a :: l = as ++ b :: bs → P as b bs) ↔
      P [] a l ∧ ∀ as b bs, l = as ++ b :: bs → P (a :: as) b bs := by
  constructor
  · intro h
    exact ⟨h [] a l rfl, fun as b bs hl => h (a :: as) b bs (congrArg (a :: ·) hl)⟩
  · rintro ⟨hfirst, hlater⟩ as b bs hl
    cases as with
    | nil =>
      obtain ⟨rfl, rfl⟩ := List.cons.inj hl
      exact hfirst
    | cons c as =>
      obtain ⟨rfl, htail⟩ := List.cons.inj hl
      exact hlater as b bs htail

theorem exists_split_cons {P : List α → α → List α → Prop} {a : α} {l : List α} :
    (∃ as b bs, a :: l = as ++ b :: bs ∧ P as b bs) ↔
      P [] a l ∨ ∃ as b bs, l = as ++ b :: bs ∧ P (a :: as) b bs := by
  have h := not_congr (forall_split_cons (P := fun as b bs => ¬ P as b bs) (a := a) (l := l))
  simpa only [not_forall, not_and_or, not_not, exists_prop] using h

/-- When an entry meets `p` only if all those before it do, the ones that meet it come first. -/
theorem exists_eq_filter_append {p : α → Bool} {l : List α}
    (h : l.Pairwise fun a b => p b = true → p a = true) :
    ∃ rest, l = l.filter p ++ rest ∧ ∀ b ∈ rest, p b = false := by
  induction l with
  | nil => exact ⟨[], rfl, fun b hb => absurd hb List.not_mem_nil⟩
  | cons a l ih =>
    rw [List.pairwise_cons] at h
    by_cases ha : p a = true
    · obtain ⟨rest, hl, hrest⟩ := ih h.2
      refine ⟨rest, ?_, hrest⟩
      rw [List.filter_cons_of_pos ha, List.cons_append, ← hl]
    · have hmiss : ∀ b ∈ a :: l, p b = false := by
        intro b hb
        apply Bool.eq_false_iff.mpr
        rcases List.mem_cons.mp hb with rfl | hb
        · exact ha
        · exact fun hpb => ha (h.1 b hb hpb)
      refine ⟨a :: l, ?_, hmiss⟩
      rw [List.filter_eq_nil_iff.mpr fun b hb => Bool.eq_false_iff.mp (hmiss b hb), List.nil_append]

/-- A scan of an ordered list stops at the least of the entries it looks for. -/
theorem find?_eq_some_iff_of_pairwise {r : α → α → Prop} (hasymm : ∀ a b, r a b → ¬ r b a) {l : List α}
    (h : l.Pairwise r) {p : α → Bool} {c : α} :
    l.find? p = some c ↔ c ∈ l ∧ p c = true ∧ ∀ d ∈ l, p d = true → d = c ∨ r c d := by
  induction l with
  | nil => simp
  | cons b l ih =>
    obtain ⟨hb, hrest⟩ := List.pairwise_cons.mp h
    rw [List.find?_cons]
    cases hp : p b with
    | true =>
      simp only [Option.some.injEq]
      constructor
      · rintro rfl
        refine ⟨List.mem_cons_self, hp, fun d hd _ => ?_⟩
        rcases List.mem_cons.mp hd with rfl | hd
        · exact Or.inl rfl
        · exact Or.inr (hb d hd)
      · rintro ⟨hc, -, hleast⟩
        rcases hleast b List.mem_cons_self hp with heq | hlt
        · exact heq
        · rcases List.mem_cons.mp hc with rfl | hc
          · rfl
          · exact absurd hlt (hasymm _ _ (hb c hc))
    | false =>
      simp only [ih hrest, List.mem_cons]
      constructor
      · rintro ⟨hc, hpc, hleast⟩
        refine ⟨Or.inr hc, hpc, fun d hd hpd => ?_⟩
        rcases hd with rfl | hd
        · rw [hp] at hpd
          cases hpd
        · exact hleast d hd hpd
      · rintro ⟨hc, hpc, hleast⟩
        refine ⟨?_, hpc, fun d hd => hleast d (Or.inr hd)⟩
        rcases hc with rfl | hc
        · rw [hp] at hpc
          cases hpc
        · exact hc

theorem findSome?_range_eq_none_iff {f : ℕ → Option β} {n : ℕ} :
    (List.range n).findSome? f = none ↔ ∀ i < n, f i = none := by
  simp [List.findSome?_eq_none_iff]

/-- A scan upwards stops at the least hit. -/
theorem findSome?_range_eq_some_iff {f : ℕ → Option β} {n : ℕ} {b : β} :
    (List.range n).findSome? f = some b ↔ ∃ i < n, f i = some b ∧ ∀ j < i, f j = none := by
  induction n generalizing b with
  | zero => simp
  | succ n ih =>
    rw [List.range_succ, List.findSome?_append]
    cases h : (List.range n).findSome? f with
    | some y =>
      -- a hit below `n` decides, since everything before it misses
      obtain ⟨i, hi, hfi, hmiss⟩ := ih.mp h
      constructor
      · intro hy
        obtain rfl : y = b := by simpa using hy
        exact ⟨i, Nat.lt_succ_of_lt hi, hfi, hmiss⟩
      · rintro ⟨j, hj, hfj, hmissj⟩
        rcases Nat.lt_trichotomy i j with hij | rfl | hij
        · rw [hmissj i hij] at hfi
          cases hfi
        · rw [hfi] at hfj
          simpa using hfj
        · rw [hmiss j hij] at hfj
          cases hfj
    | none =>
      rw [findSome?_range_eq_none_iff] at h
      constructor
      · intro hn
        refine ⟨n, Nat.lt_succ_self n, ?_, h⟩
        cases hf : f n with
        | none => simp [hf] at hn
        | some c => simpa [hf] using hn
      · rintro ⟨j, hj, hfj, -⟩
        rcases Nat.lt_succ_iff_lt_or_eq.mp hj with hj | rfl
        · rw [h j hj] at hfj
          cases hfj
        · simp [hfj]

/-! ### The last one to write

A walk over the numbers below a bound that writes at each hit keeps what the last hit wrote. -/

section LastWrite

variable {σ γ : Type*} {step : σ → ℕ → σ}

theorem foldl_range_of_miss (hit : ℕ → Prop) (view : σ → γ)
    (hmiss : ∀ s i, ¬ hit i → view (step s i) = view s) {n : ℕ} (h : ∀ i < n, ¬ hit i) (s : σ) :
    view ((List.range n).foldl step s) = view s := by
  induction n with
  | zero => rfl
  | succ n ih =>
    rw [List.range_succ, List.foldl_append, List.foldl_cons, List.foldl_nil,
      hmiss _ n (h n (Nat.lt_succ_self n))]
    exact ih fun i hi => h i (Nat.lt_succ_of_lt hi)

/-- What every hit establishes and no miss touches holds of the last hit in the end. -/
theorem foldl_range_of_last (hit : ℕ → Prop) (view : σ → γ) (Q : ℕ → γ → Prop)
    (hhit : ∀ s i, hit i → Q i (view (step s i)))
    (hmiss : ∀ s i, ¬ hit i → view (step s i) = view s) {n j : ℕ} (hj : j < n) (h : hit j)
    (hlast : ∀ i, j < i → i < n → ¬ hit i) (s : σ) :
    Q j (view ((List.range n).foldl step s)) := by
  induction n with
  | zero => exact absurd hj (Nat.not_lt_zero j)
  | succ n ih =>
    rw [List.range_succ, List.foldl_append, List.foldl_cons, List.foldl_nil]
    rcases Nat.lt_succ_iff_lt_or_eq.mp hj with hlt | rfl
    · rw [hmiss _ n (hlast n hlt (Nat.lt_succ_self n))]
      exact ih hlt fun i hi hin => hlast i hi (Nat.lt_succ_of_lt hin)
    · exact hhit _ j h

/-- Below a bound there is a last hit, if there is any. -/
theorem exists_last (hit : ℕ → Prop) {n i : ℕ} (hi : i < n) (h : hit i) :
    ∃ j < n, hit j ∧ ∀ k, j < k → k < n → ¬ hit k := by
  induction n with
  | zero => exact absurd hi (Nat.not_lt_zero i)
  | succ n ih =>
    by_cases hn : hit n
    · exact ⟨n, Nat.lt_succ_self n, hn, fun k h1 h2 => absurd h1 (by omega)⟩
    · have hin : i < n := by
        rcases Nat.lt_succ_iff_lt_or_eq.mp hi with hlt | rfl
        · exact hlt
        · exact absurd h hn
      obtain ⟨j, hjn, hj, hlast⟩ := ih hin
      refine ⟨j, Nat.lt_succ_of_lt hjn, hj, ?_⟩
      intro k h1 h2
      rcases Nat.lt_succ_iff_lt_or_eq.mp h2 with hk | rfl
      · exact hlast k h1 hk
      · exact hn

end LastWrite

/-! ### Walks that can fail -/

section Fallible

variable {σ ε : Type*} {f : σ → α → Except ε σ} {I : σ → Prop}

/-- What each entry keeps, a walk to the end keeps. -/
theorem foldlM_inv (hkeep : ∀ s a s', I s → f s a = .ok s' → I s') (l : List α) {s s' : σ} (hs : I s)
    (h : l.foldlM f s = .ok s') : I s' := by
  induction l generalizing s with
  | nil =>
    obtain rfl : s = s' := Except.ok.inj h
    exact hs
  | cons a l ih =>
    rw [List.foldlM_cons] at h
    cases hfa : f s a with
    | error e =>
      rw [hfa] at h
      cases h
    | ok p =>
      rw [hfa] at h
      exact ih (hkeep s a p hs hfa) h

/-- A walk gets to the end exactly when each entry lets it pass, as long as this does not depend
on what the walk has come to. -/
theorem foldlM_ok_iff {P : α → Prop}
    (hstep : ∀ s a, I s → ((∃ s', f s a = .ok s') ↔ P a))
    (hkeep : ∀ s a s', I s → f s a = .ok s' → I s') (l : List α) {s : σ} (hs : I s) :
    (∃ s', l.foldlM f s = .ok s') ↔ ∀ a ∈ l, P a := by
  induction l generalizing s with
  | nil => exact iff_of_true ⟨s, rfl⟩ fun a ha => absurd ha List.not_mem_nil
  | cons a l ih =>
    rw [List.foldlM_cons, List.forall_mem_cons, ← hstep s a hs]
    cases hfa : f s a with
    | error e =>
      have hstop : ¬ ∃ s', Except.error e = (Except.ok s' : Except ε σ) := by
        rintro ⟨s', h⟩
        cases h
      exact iff_of_false hstop fun h => hstop h.1
    | ok p =>
      show (∃ s', l.foldlM f p = .ok s') ↔ _
      rw [ih (hkeep s a p hs hfa)]
      exact (and_iff_right ⟨p, rfl⟩).symm

/-- A walk stops with `e` exactly when an entry does that comes behind entries which let it pass. -/
theorem foldlM_error_iff {P Q : α → Prop} {e : ε}
    (hstep : ∀ s a, I s → ((∃ s', f s a = .ok s') ↔ P a))
    (hstop : ∀ s a, I s → (f s a = .error e ↔ Q a))
    (hkeep : ∀ s a s', I s → f s a = .ok s' → I s') (l : List α) {s : σ} (hs : I s) :
    l.foldlM f s = .error e ↔ ∃ l₁ a l₂, l = l₁ ++ a :: l₂ ∧ (∀ b ∈ l₁, P b) ∧ Q a := by
  induction l generalizing s with
  | nil =>
    refine iff_of_false nofun ?_
    rintro ⟨l₁, a, l₂, h, -⟩
    cases l₁ <;> cases h
  | cons a l ih =>
    have hcons : (∃ l₁ b l₂, a :: l = l₁ ++ b :: l₂ ∧ (∀ b ∈ l₁, P b) ∧ Q b) ↔
        Q a ∨ P a ∧ ∃ l₁ b l₂, l = l₁ ++ b :: l₂ ∧ (∀ b ∈ l₁, P b) ∧ Q b := by
      constructor
      · rintro ⟨l₁, b, l₂, h, hpass, hb⟩
        cases l₁ with
        | nil =>
          obtain ⟨rfl, rfl⟩ := List.cons.inj h
          exact Or.inl hb
        | cons c l₁ =>
          obtain ⟨rfl, rfl⟩ := List.cons.inj h
          rw [List.forall_mem_cons] at hpass
          exact Or.inr ⟨hpass.1, l₁, b, l₂, rfl, hpass.2, hb⟩
      · rintro (ha | ⟨ha, l₁, b, l₂, rfl, hpass, hb⟩)
        · exact ⟨[], a, l, rfl, fun b hb => absurd hb List.not_mem_nil, ha⟩
        · exact ⟨a :: l₁, b, l₂, rfl, List.forall_mem_cons.mpr ⟨ha, hpass⟩, hb⟩
    rw [List.foldlM_cons, hcons, ← hstep s a hs, ← hstop s a hs]
    cases hfa : f s a with
    | error e' =>
      rw [or_iff_left fun h => nomatch h.1]
      rfl
    | ok p =>
      rw [or_iff_right nofun, and_iff_right ⟨p, rfl⟩]
      exact ih (hkeep s a p hs hfa)

end Fallible

/-! ### Putting an entry in -/

/-- The list with `a` put behind the first entry that meets `p`, or at the end. -/
def insertAfter (p : α → Bool) (a : α) : List α → List α
  | [] => [a]
  | b :: l => if p b then b :: a :: l else b :: insertAfter p a l

variable {p : α → Bool} {a : α}

@[simp] theorem mem_insertAfter {x : α} {l : List α} : x ∈ insertAfter p a l ↔ x = a ∨ x ∈ l := by
  induction l with
  | nil => exact List.mem_singleton.trans (or_iff_left List.not_mem_nil).symm
  | cons b l ih =>
    unfold insertAfter
    split
    · rw [List.mem_cons, List.mem_cons, List.mem_cons]
      exact or_left_comm
    · rw [List.mem_cons, ih, List.mem_cons]
      exact or_left_comm

theorem insertAfter_eq_append {l : List α} (h : ∀ b ∈ l, p b = false) :
    insertAfter p a l = l ++ [a] := by
  induction l with
  | nil => rfl
  | cons b l ih =>
    rw [List.forall_mem_cons] at h
    unfold insertAfter
    rw [if_neg (Bool.not_eq_true _ ▸ h.1), ih h.2]
    rfl

/-- The entries before the first one that meets `p` are passed over. -/
theorem insertAfter_append {as l : List α} (h : ∀ b ∈ as, p b = false) :
    insertAfter p a (as ++ l) = as ++ insertAfter p a l := by
  induction as with
  | nil => rfl
  | cons b as ih =>
    rw [List.forall_mem_cons] at h
    rw [List.cons_append, insertAfter, if_neg (Bool.not_eq_true _ ▸ h.1), ih h.2, List.cons_append]

/-- The new entry goes behind the first one that meets `p`. -/
theorem insertAfter_split {as : List α} {b : α} (bs : List α) (h : ∀ c ∈ as, p c = false)
    (hb : p b = true) :
    insertAfter p a (as ++ b :: bs) = as ++ b :: a :: bs := by
  rw [insertAfter_append h, insertAfter, if_pos hb]

theorem exists_insertAfter_eq (p : α → Bool) (a : α) (l : List α) :
    ∃ as bs, insertAfter p a l = as ++ a :: bs ∧ l = as ++ bs := by
  induction l with
  | nil => exact ⟨[], [], rfl, rfl⟩
  | cons b l ih =>
    unfold insertAfter
    split
    · exact ⟨[b], l, rfl, rfl⟩
    · obtain ⟨as, bs, hins, hl⟩ := ih
      exact ⟨b :: as, bs, congrArg (b :: ·) hins, congrArg (b :: ·) hl⟩

/-- The new entry goes into the first part of a list or into the second. -/
theorem insertAfter_append_or (p : α → Bool) (a : α) (l₁ l₂ : List α) :
    insertAfter p a (l₁ ++ l₂) = insertAfter p a l₁ ++ l₂ ∨
      (∀ b ∈ l₁, p b = false) ∧ insertAfter p a (l₁ ++ l₂) = l₁ ++ insertAfter p a l₂ := by
  by_cases h : ∀ b ∈ l₁, p b = false
  · exact Or.inr ⟨h, insertAfter_append h⟩
  · left
    induction l₁ with
    | nil => exact absurd (fun _ hb => absurd hb List.not_mem_nil) h
    | cons b l₁ ih =>
      rw [List.cons_append, insertAfter, insertAfter]
      split
      · rfl
      · next hb =>
        have hrest : ¬ ∀ c ∈ l₁, p c = false := fun hall =>
          h (List.forall_mem_cons.mpr ⟨Bool.eq_false_iff.mpr hb, hall⟩)
        rw [ih hrest, List.cons_append]

theorem head?_insertAfter {l : List α} (h : l ≠ []) : (insertAfter p a l).head? = l.head? := by
  cases l with
  | nil => exact absurd rfl h
  | cons b l =>
    unfold insertAfter
    split <;> rfl

/-- A list cut in two stays so, with the same entry at the cut, when an entry is put in. -/
theorem insertAfter_cut (p : α → Bool) (a : α) (l₁ l₂ : List α) :
    ∃ l₁' l₂', insertAfter p a (l₁ ++ l₂) = l₁' ++ l₂' ∧ l₂'.head? = l₂.head? := by
  rcases insertAfter_append_or p a l₁ l₂ with h | ⟨-, h⟩
  · exact ⟨_, l₂, h, rfl⟩
  · cases l₂ with
    | nil =>
      refine ⟨insertAfter p a (l₁ ++ []), [], (List.append_nil _).symm, rfl⟩
    | cons b l₂ => exact ⟨l₁, _, h, head?_insertAfter (List.cons_ne_nil b l₂)⟩

/-- What is behind an entry of the list stays behind it. -/
theorem insertAfter_around (p : α → Bool) (a : α) (l₁ l₂ l₃ : List α) (c : α) :
    ∃ l₁' l₂' l₃', insertAfter p a (l₁ ++ (l₂ ++ c :: l₃)) = l₁' ++ (l₂' ++ c :: l₃') ∧
      (l₂' ++ c :: l₃').head? = (l₂ ++ c :: l₃).head? ∧ ∀ y ∈ l₃, y ∈ l₃' := by
  rcases insertAfter_append_or p a l₁ (l₂ ++ c :: l₃) with h | ⟨-, h⟩
  · exact ⟨_, l₂, l₃, h, rfl, fun y hy => hy⟩
  have hhead := head?_insertAfter (p := p) (a := a)
    (List.append_ne_nil_of_right_ne_nil l₂ (List.cons_ne_nil c l₃))
  rcases insertAfter_append_or p a l₂ (c :: l₃) with h' | ⟨-, h'⟩
  · rw [h'] at h hhead
    exact ⟨l₁, _, l₃, h, hhead, fun y hy => hy⟩
  · rw [h'] at h hhead
    have hcons : ∃ l₃', insertAfter p a (c :: l₃) = c :: l₃' ∧ ∀ y ∈ l₃, y ∈ l₃' := by
      unfold insertAfter
      split
      · exact ⟨a :: l₃, rfl, fun y hy => List.mem_cons_of_mem a hy⟩
      · exact ⟨_, rfl, fun y hy => mem_insertAfter.mpr (Or.inr hy)⟩
    obtain ⟨l₃', hl₃', hsub⟩ := hcons
    rw [hl₃'] at h hhead
    exact ⟨l₁, l₂, l₃', h, hhead, hsub⟩

/-- Nothing is put between the entries of the first part if none of them but the last meets `p`. -/
theorem insertAfter_append_of_dropLast {l₁ : List α} (l₂ : List α) (hne : l₁ ≠ [])
    (h : ∀ b ∈ l₁.dropLast, p b = false) :
    ∃ l₂', insertAfter p a (l₁ ++ l₂) = l₁ ++ l₂' ∧ ∀ x ∈ l₂', x = a ∨ x ∈ l₂ := by
  have hcut := List.dropLast_append_getLast hne
  generalize l₁.getLast hne = b at hcut
  generalize l₁.dropLast = init at hcut h
  subst hcut
  rw [List.append_assoc, insertAfter_append h, List.singleton_append, insertAfter]
  split
  · exact ⟨a :: l₂, by simp, fun x hx => List.mem_cons.mp hx⟩
  · exact ⟨insertAfter p a l₂, by simp, fun x hx => mem_insertAfter.mp hx⟩

/-- Otherwise the new entry comes to stand before one of them. -/
theorem insertAfter_before_getLast {l₁ : List α} {b : α} (l₂ : List α) (hb : b ∈ l₁.dropLast)
    (hp : p b = true) :
    ∃ as cs y, insertAfter p a (l₁ ++ l₂) = as ++ a :: cs ∧ y ∈ l₁ ∧ y ∈ cs ∧
      (as ++ a :: cs).head? = (l₁ ++ l₂).head? := by
  obtain ⟨c, hc⟩ := Option.isSome_iff_exists.mp (List.find?_isSome.mpr ⟨b, hb, hp⟩)
  obtain ⟨hpc, as, cs, hsplit, hmiss⟩ := List.find?_eq_some_iff_append.mp hc
  have hne : l₁ ≠ [] := by
    rintro rfl
    cases hb
  have hcut := List.dropLast_append_getLast hne
  rw [hsplit, List.append_assoc, List.cons_append] at hcut
  have hins := insertAfter_split (a := a) (cs ++ [l₁.getLast hne] ++ l₂)
    (fun i hi => by simpa using hmiss i hi) hpc
  refine ⟨as ++ [c], cs ++ [l₁.getLast hne] ++ l₂, l₁.getLast hne, ?_, List.getLast_mem hne,
    by simp, ?_⟩
  · rw [← List.append_cons, ← hins]
    conv_lhs => rw [← hcut]
    simp
  · conv_rhs => rw [← hcut]
    cases as <;> rfl

theorem insertAfter_congr {q : α → Bool} {l : List α} (h : ∀ b ∈ l, p b = q b) :
    insertAfter p a l = insertAfter q a l := by
  induction l with
  | nil => rfl
  | cons b l ih =>
    rw [List.forall_mem_cons] at h
    rw [insertAfter, insertAfter, h.1, ih h.2]

/-- In an ordered list the first entry is the first that can be smaller than the new one: the new
entry goes behind it, or at the end. -/
theorem pairwise_insertAfter {β : Type*} [LinearOrder β] (key : α → β) {l : List α}
    (h : l.Pairwise fun x y => key x ≤ key y) :
    (insertAfter (fun b => decide (key b < key a)) a l).Pairwise (fun x y => key x ≤ key y) ↔
      (∀ b ∈ l.tail, key a ≤ key b) ∧ (∀ b ∈ l.head?, key b < key a) ∨ ∀ b ∈ l, key b = key a := by
  cases l with
  | nil => simp [insertAfter]
  | cons b l =>
    rw [List.pairwise_cons] at h
    -- the head decides where the walk goes: behind it, or to the end of the list
    by_cases hb : key b < key a
    · have hne : ¬ ∀ c ∈ b :: l, key c = key a := fun hall =>
        hb.ne (hall b List.mem_cons_self)
      rw [insertAfter, if_pos (decide_eq_true hb), or_iff_left hne, List.pairwise_cons,
        List.pairwise_cons]
      constructor
      · rintro ⟨-, hal, -⟩
        exact ⟨hal, fun c hc => by rwa [← Option.some.inj hc]⟩
      · rintro ⟨hal, -⟩
        refine ⟨fun c hc => ?_, hal, h.2⟩
        rcases List.mem_cons.mp hc with rfl | hc
        · exact hb.le
        · exact h.1 c hc
    · have hmiss : ∀ c ∈ b :: l, decide (key c < key a) = false := by
        intro c hc
        apply decide_eq_false
        rcases List.mem_cons.mp hc with rfl | hc
        · exact hb
        · exact ((not_lt.mp hb).trans (h.1 c hc)).not_gt
      have hno : ¬ ((∀ c ∈ l, key a ≤ key c) ∧ ∀ c ∈ some b, key c < key a) := fun hall =>
        hb (hall.2 b rfl)
      rw [insertAfter_eq_append hmiss, List.tail_cons, List.head?_cons, or_iff_right hno,
        List.pairwise_append]
      constructor
      · rintro ⟨-, -, hle⟩ c hc
        exact le_antisymm (hle c hc a (List.mem_singleton_self a))
          (not_lt.mp (of_decide_eq_false (hmiss c hc)))
      · intro hall
        refine ⟨List.pairwise_cons.mpr h, List.pairwise_singleton _ _, ?_⟩
        intro c hc d hd
        rw [List.mem_singleton.mp hd]
        exact (hall c hc).le

variable [DecidableEq α]

/-- The nodes met when going around the circular list `l` from its node `p`. -/
def around (p : α) (l : List α) : List α :=
  (l.dropWhile (· ≠ p)).tail ++ l.takeWhile (· ≠ p)

theorem around_append_cons {p : α} {l₁ : List α} (h : p ∉ l₁) (l₂ : List α) :
    around p (l₁ ++ p :: l₂) = l₂ ++ l₁ := by
  have hall : ∀ x ∈ l₁, (decide (x ≠ p)) = true := by
    intro x hx
    exact decide_eq_true fun e => h (e ▸ hx)
  unfold around
  rw [List.dropWhile_append_of_pos hall, List.takeWhile_append_of_pos hall]
  simp

theorem mem_of_mem_around {p x : α} {l : List α} (h : x ∈ around p l) : x ∈ l := by
  unfold around at h
  rcases List.mem_append.mp h with h | h
  · exact (List.dropWhile_sublist _).subset (List.mem_of_mem_tail h)
  · exact (List.takeWhile_sublist _).subset h

/-- Going around a list without repetitions meets every other node, and only those. -/
theorem mem_around {p x : α} {l : List α} (hl : l.Nodup) (hp : p ∈ l) :
    x ∈ around p l ↔ x ∈ l ∧ x ≠ p := by
  obtain ⟨l₁, l₂, rfl⟩ := List.append_of_mem hp
  have hnot : p ∉ l₁ ∧ p ∉ l₂ := by
    rw [List.nodup_append] at hl
    refine ⟨fun h => hl.2.2 p h p (by simp) rfl, ?_⟩
    exact (List.nodup_cons.mp hl.2.1).1
  rw [around_append_cons hnot.1]
  simp only [List.mem_append, List.mem_cons]
  constructor
  · rintro (h | h)
    · exact ⟨Or.inr (Or.inr h), fun e => hnot.2 (e ▸ h)⟩
    · exact ⟨Or.inl h, fun e => hnot.1 (e ▸ h)⟩
  · rintro ⟨h | h | h, hne⟩
    · exact Or.inr h
    · exact absurd h hne
    · exact Or.inl h

omit [DecidableEq α] in
theorem isRotated_filter {l l' : List α} (h : List.IsRotated l l') (keep : α → Bool) :
    List.IsRotated (l.filter keep) (l'.filter keep) := by
  obtain ⟨n, hn, rfl⟩ := List.isRotated_iff_mod.mp h
  have hsplit : l.filter keep = (l.take n).filter keep ++ (l.drop n).filter keep := by
    rw [← List.filter_append, List.take_append_drop]
  rw [List.rotate_eq_drop_append_take hn, List.filter_append, hsplit]
  exact List.isRotated_append

/-- The circular list, from a node on. -/
theorem isRotated_cons_around {p : α} {l : List α} (hp : p ∈ l) :
    List.IsRotated (p :: around p l) l := by
  obtain ⟨l₁, l₂, rfl, hnot⟩ := List.eq_append_cons_of_mem hp
  rw [around_append_cons hnot]
  exact List.isRotated_append (l := p :: l₂)

/-- The nodes behind a node are those of any rotation that begins with it. -/
theorem around_eq_of_isRotated {p : α} {l m : List α} (hl : l.Nodup)
    (h : List.IsRotated (p :: m) l) : around p l = m := by
  obtain ⟨n, hn, rfl⟩ := List.isRotated_iff_mod.mp h
  have hnodup := (h.nodup_iff.mpr hl)
  rw [List.rotate_eq_drop_append_take hn]
  cases n with
  | zero =>
    have hfirst : around p ([] ++ p :: m) = m ++ [] := around_append_cons List.not_mem_nil m
    simpa using hfirst
  | succ n =>
    have hnot : p ∉ m.drop n := fun hp => (List.nodup_cons.mp hnodup).1 (List.mem_of_mem_drop hp)
    rw [List.drop_succ_cons, List.take_succ_cons, around_append_cons hnot, List.take_append_drop]

/-- Going on to the next node that a filter keeps leaves the node before for the end. -/
theorem filter_around_next {p q : α} {l rest : List α} {keep : α → Bool} (hl : l.Nodup) (hp : p ∈ l)
    (hkeep : keep p = true) (h : (around p l).filter keep = q :: rest) :
    (around q l).filter keep = rest ++ [p] := by
  obtain ⟨as, bs, haround, hskip, -, hrest⟩ := List.filter_eq_cons_iff.mp h
  have hrot : List.IsRotated (q :: (bs ++ p :: as)) l := by
    refine List.IsRotated.trans ?_ (isRotated_cons_around hp)
    rw [haround]
    have happ : List.IsRotated ((q :: bs) ++ p :: as) ((p :: as) ++ q :: bs) := List.isRotated_append
    exact happ
  have hnil : as.filter keep = [] := List.filter_eq_nil_iff.mpr fun x hx => by simpa using hskip x hx
  rw [around_eq_of_isRotated hl hrot, List.filter_append, List.filter_cons_of_pos hkeep, hnil, hrest]

end Lists
