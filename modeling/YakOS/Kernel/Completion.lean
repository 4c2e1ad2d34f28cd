import Mathlib.Algebra.Group.Nat.Defs
import Mathlib.Algebra.Order.Group.Int
import YakOS.Kernel.Task
import YakOS.Lib.Run

/-!
# Completions

`kernel/completion.c`: `complete` and the two waits, and what holds across every
interleaving of calls by any number of tasks.

`complete` takes no lock, and `x->done++` is a load and a store; so is `x->done--`.  The
waits hold `x->wait.lock` from beginning to end, also while they sleep, so there is one
task at most between `down` and `up`; a task that finds the lock taken stays where it is.
A task that sleeps in `schedule_timeout` may run again at any time: when its timer has
expired, when `complete` has woken it, or for no reason.  The wait queue has no other
effect, and is left out.

## Main definitions

* `scheduleTimeout` — what is left of a timeout.
* `CompletionRun`, `completionStep` — one completion shared by tasks, with a ledger.
* `CompletionOk` — the count is right and the results tell the outcomes apart.
* `Undisturbed` — a store finds `done` as it was loaded, and a wait with a timeout that
  takes a completion has no time left.

## Main results

* `completionInv_step` — the invariant of all runs.
* `completion_runs_iff` — **a run is right throughout exactly when all its steps are
  undisturbed.**
-/

namespace YakOS

/-- `MAX_SCHEDULE_TIMEOUT`. -/
def maxScheduleTimeout : ℤ := 2 ^ 31 - 1

/-- `schedule_timeout` when the task runs again after `elapsed` milliseconds.  The sum and
the difference are those of 32-bit words. -/
def scheduleTimeout (timeout : ℤ) (elapsed : ℕ) : ℤ :=
  if timeout = maxScheduleTimeout then timeout
  else if timeout < 0 then 0
  else
    let left := (timeout - elapsed).bmod (2 ^ 32)
    if left < 0 then 0 else left

/-- Where a task is: outside the code, in `complete`, or in a wait with `timed` set for
`wait_for_completion_timeout` and the timeout that is left. -/
inductive CompletionPc
  | idle
  /-- In `x->done++`, with the value loaded. -/
  | completing (loaded : ℕ)
  /-- Before `down(&x->wait.lock)`. -/
  | entering (timed : Bool) (timeout : ℤ)
  /-- Before the first `if (!x->done)`. -/
  | first (timed : Bool) (timeout : ℤ)
  /-- In `action(timeout)`. -/
  | sleeping (timed : Bool) (timeout : ℤ)
  /-- Before the condition of the loop. -/
  | testing (timed : Bool) (timeout : ℤ)
  /-- Behind the loop, before the second `if (!x->done)`. -/
  | after (timed : Bool) (timeout : ℤ)
  /-- Before `x->done--`. -/
  | taking (timed : Bool) (timeout : ℤ)
  /-- In `x->done--`, with the value loaded. -/
  | storing (timed : Bool) (timeout : ℤ) (loaded : ℕ)
  /-- Before `up(&x->wait.lock)`. -/
  | leaving
  deriving DecidableEq, Repr

/-- The outcome of a wait. -/
structure WaitReturn where
  timed : Bool
  value : ℤ
  consumed : Bool
  deriving DecidableEq, Repr

/-- A completion, the tasks that use it and the ledger of the run. -/
structure CompletionRun where
  done : ℕ
  /-- The task that holds `wait.lock`. -/
  lock : Option TaskId
  pc : TaskId → CompletionPc
  /-- The calls of `complete` that have stored their increment. -/
  completes : ℕ
  /-- The waits that have stored their decrement. -/
  consumed : ℕ
  /-- What the waits return, last to first. -/
  returns : List WaitReturn

/-- `init_completion`. -/
def initCompletion : CompletionRun where
  done := 0
  lock := none
  pc _ := .idle
  completes := 0
  consumed := 0
  returns := []

/-- The task goes on to the place `p`. -/
def CompletionRun.goto (s : CompletionRun) (t : TaskId) (p : CompletionPc) : CompletionRun :=
  { s with pc := Function.update s.pc t p }

/-- The steps of a run. -/
inductive CompletionEvent
  /-- A call of `complete`, up to the load. -/
  | complete (t : TaskId)
  /-- The store of `complete`. -/
  | store (t : TaskId)
  /-- A call of `wait_for_completion`. -/
  | wait (t : TaskId)
  /-- A call of `wait_for_completion_timeout`. -/
  | waitTimeout (t : TaskId) (timeout : BitVec 32)
  /-- A sleeping task runs again. -/
  | wake (t : TaskId) (elapsed : ℕ)
  /-- The next step of a wait that does not sleep. -/
  | next (t : TaskId)
  deriving DecidableEq, Repr

/-- The next step of `__wait_for_common` and `do_wait_for_common`. -/
def waitNext (s : CompletionRun) (t : TaskId) : Option CompletionRun :=
  match s.pc t with
  | .entering w timeout =>
    if s.lock = none then some { s.goto t (.first w timeout) with lock := some t } else none
  | .first w timeout => some (s.goto t (if s.done = 0 then .sleeping w timeout else .taking w timeout))
  | .testing w timeout =>
    some (s.goto t (if s.done = 0 ∧ timeout ≠ 0 then .sleeping w timeout else .after w timeout))
  | .after w timeout =>
    some (if s.done = 0 then { s.goto t .leaving with returns := ⟨w, timeout, false⟩ :: s.returns }
      else s.goto t (.taking w timeout))
  | .taking w timeout => some (s.goto t (.storing w timeout s.done))
  | .storing w timeout loaded =>
    some { s.goto t .leaving with
      done := (loaded + (2 ^ 32 - 1)) % 2 ^ 32
      consumed := s.consumed + 1
      returns := ⟨w, if timeout ≠ 0 then 0 else 1, true⟩ :: s.returns }
  | .leaving => some { s.goto t .idle with lock := none }
  | .idle | .completing _ | .sleeping _ _ => none

/-- One step, with fewer than `2 ^ 32` calls of `complete`. -/
def completionStep (s : CompletionRun) : CompletionEvent → Option CompletionRun
  | .complete t => if s.pc t = .idle then some (s.goto t (.completing s.done)) else none
  | .store t =>
    match s.pc t with
    | .completing loaded =>
      if s.completes + 1 < 2 ^ 32 then
        some { s.goto t .idle with
          done := (loaded + 1) % 2 ^ 32
          completes := s.completes + 1 }
      else none
    | _ => none
  | .wait t => if s.pc t = .idle then some (s.goto t (.entering false maxScheduleTimeout)) else none
  | .waitTimeout t timeout =>
    if s.pc t = .idle then some (s.goto t (.entering true timeout.toInt)) else none
  | .wake t elapsed =>
    match s.pc t with
    | .sleeping w timeout => some (s.goto t (.testing w (scheduleTimeout timeout elapsed)))
    | _ => none
  | .next t => waitNext s t

/-! ### The invariant of all runs -/

/-- What is known of a task from where it is: a task behind the loop has no time left or finds
`done` set, and a task that is about to take a completion finds one. -/
def PcOk (s : CompletionRun) (t : TaskId) : CompletionPc → Prop
  | .idle | .entering _ _ => True
  | .completing loaded => loaded ≤ s.completes
  | .first _ _ | .sleeping _ _ | .testing _ _ | .leaving => s.lock = some t
  | .after _ timeout => s.lock = some t ∧ (timeout = 0 ∨ 0 < s.done)
  | .taking _ _ => s.lock = some t ∧ 0 < s.done
  | .storing _ _ loaded => s.lock = some t ∧ 0 < s.done ∧ 0 < loaded ∧ loaded ≤ s.completes

/-- The invariant.  `done` may be wrong, but it never exceeds the calls of `complete`. -/
structure CompletionInv (s : CompletionRun) : Prop where
  few : s.completes < 2 ^ 32
  done_le : s.done ≤ s.completes
  pc : ∀ t, PcOk s t (s.pc t)

theorem completionInv_init : CompletionInv initCompletion :=
  ⟨by decide, le_rfl, fun _ => trivial⟩

section Invariant

variable {s s' : CompletionRun} {t : TaskId}

/-- What is known of the other tasks survives when the lock stays with them, and `done` is not
taken from under the one that holds it. -/
theorem PcOk.mono {p : CompletionPc} (h : PcOk s t p) (hcompletes : s.completes ≤ s'.completes)
    (hlock : s.lock = some t → s'.lock = some t)
    (hdone : s.lock = some t → 0 < s.done → 0 < s'.done) : PcOk s' t p := by
  cases p with
  | idle => trivial
  | entering w timeout => trivial
  | completing loaded => exact Nat.le_trans h hcompletes
  | first w timeout => exact hlock h
  | sleeping w timeout => exact hlock h
  | testing w timeout => exact hlock h
  | leaving => exact hlock h
  | after w timeout => exact ⟨hlock h.1, h.2.imp id (hdone h.1)⟩
  | taking w timeout => exact ⟨hlock h.1, hdone h.1 h.2⟩
  | storing w timeout loaded =>
    exact ⟨hlock h.1, hdone h.1 h.2.1, h.2.2.1, Nat.le_trans h.2.2.2 hcompletes⟩

/-- One task moves on, to a place it fits. -/
theorem CompletionInv.move (hinv : CompletionInv s) {p : CompletionPc}
    (hpc : s'.pc = Function.update s.pc t p) (hfew : s'.completes < 2 ^ 32)
    (hle : s.completes ≤ s'.completes) (hdone : s'.done ≤ s'.completes)
    (hlock : ∀ u, u ≠ t → s.lock = some u → s'.lock = some u)
    (hpos : ∀ u, u ≠ t → s.lock = some u → 0 < s.done → 0 < s'.done) (hp : PcOk s' t p) :
    CompletionInv s' := by
  refine ⟨hfew, hdone, ?_⟩
  intro u
  rw [hpc]
  by_cases hu : u = t
  · subst hu
    rw [Function.update_self]
    exact hp
  · rw [Function.update_of_ne hu]
    exact (hinv.pc u).mono hle (hlock u hu) (hpos u hu)

/-- A task moves on and nothing else changes. -/
theorem CompletionInv.goto (hinv : CompletionInv s) {p : CompletionPc} (hp : PcOk s t p) :
    CompletionInv (s.goto t p) := by
  refine hinv.move rfl hinv.few le_rfl hinv.done_le (fun _ _ h => h) (fun _ _ _ h => h) ?_
  exact hp.mono le_rfl id fun _ h => h

/-- An idle task starts a call. -/
theorem CompletionInv.call (hinv : CompletionInv s) {p : CompletionPc} (hp : PcOk s t p)
    (h : (if s.pc t = .idle then some (s.goto t p) else none) = some s') : CompletionInv s' := by
  split at h
  · obtain rfl := Option.some.inj h
    exact hinv.goto hp
  · cases h

theorem CompletionInv.waitNext (hinv : CompletionInv s) (h : waitNext s t = some s') :
    CompletionInv s' := by
  have hpc := hinv.pc t
  unfold YakOS.waitNext at h
  split at h <;> rename_i heq
  · -- the lock is free, so no other task is known to hold it
    split at h
    · rename_i hfree
      obtain rfl := Option.some.inj h
      refine hinv.move rfl hinv.few le_rfl hinv.done_le (fun u _ hu => ?_) (fun _ _ _ hd => hd) rfl
      rw [hfree] at hu
      cases hu
    · cases h
  · obtain rfl := Option.some.inj h
    rw [heq] at hpc
    refine hinv.goto ?_
    split
    · exact hpc
    · rename_i hdone
      exact ⟨hpc, Nat.pos_of_ne_zero hdone⟩
  · obtain rfl := Option.some.inj h
    rw [heq] at hpc
    refine hinv.goto ?_
    split
    · exact hpc
    · rename_i hend
      refine ⟨hpc, ?_⟩
      rcases not_and_or.mp hend with hdone | htime
      · exact Or.inr (Nat.pos_of_ne_zero hdone)
      · exact Or.inl (not_not.mp htime)
  · rw [heq] at hpc
    obtain rfl := Option.some.inj h
    split
    · exact hinv.move rfl hinv.few le_rfl hinv.done_le (fun _ _ hu => hu) (fun _ _ _ hd => hd) hpc.1
    · rename_i hdone
      exact hinv.goto ⟨hpc.1, Nat.pos_of_ne_zero hdone⟩
  · obtain rfl := Option.some.inj h
    rw [heq] at hpc
    exact hinv.goto ⟨hpc.1, hpc.2, hpc.2, hinv.done_le⟩
  · obtain rfl := Option.some.inj h
    rw [heq] at hpc
    obtain ⟨hlock, -, hpos, hle⟩ := hpc
    refine hinv.move rfl hinv.few le_rfl ?_ (fun _ _ hu => hu) (fun u hne hu => ?_) hlock
    · have hfew := hinv.few
      simp only [CompletionRun.goto]
      omega
    · -- only the task that holds the lock takes a completion
      rw [hlock] at hu
      exact absurd (Option.some.inj hu).symm hne
  · obtain rfl := Option.some.inj h
    rw [heq] at hpc
    refine hinv.move rfl hinv.few le_rfl hinv.done_le (fun u hne hu => ?_) (fun _ _ _ hd => hd)
      trivial
    have hlock : s.lock = some t := hpc
    rw [hlock] at hu
    exact absurd (Option.some.inj hu).symm hne
  · cases h
  · cases h
  · cases h

/-- **The invariant.**  Every step keeps it, also one that loses an update of `done`. -/
theorem completionInv_step {e : CompletionEvent} (hinv : CompletionInv s)
    (h : completionStep s e = some s') : CompletionInv s' := by
  cases e with
  | complete t => exact hinv.call (p := .completing s.done) hinv.done_le h
  | wait t => exact hinv.call (p := .entering false maxScheduleTimeout) trivial h
  | waitTimeout t timeout => exact hinv.call (p := .entering true timeout.toInt) trivial h
  | next t => exact hinv.waitNext h
  | wake t elapsed =>
    have hpc := hinv.pc t
    unfold completionStep at h
    dsimp only at h
    split at h
    · rename_i heq
      obtain rfl := Option.some.inj h
      rw [heq] at hpc
      exact hinv.goto hpc
    · cases h
  | store t =>
    have hpc := hinv.pc t
    unfold completionStep at h
    dsimp only at h
    split at h
    · rename_i loaded heq
      split at h
      · -- `done` becomes one more than it was when it was loaded
        rename_i hfew
        obtain rfl := Option.some.inj h
        rw [heq] at hpc
        have hle : loaded ≤ s.completes := hpc
        have hmod : (loaded + 1) % 2 ^ 32 = loaded + 1 := Nat.mod_eq_of_lt (by omega)
        refine hinv.move rfl hfew (Nat.le_succ _) ?_ (fun _ _ hu => hu) (fun _ _ _ _ => ?_) trivial
        · simp only [hmod]
          omega
        · simp only [hmod]
          omega
      · cases h
    · cases h

end Invariant

/-! ### Runs that are right -/

/-- The count is the calls of `complete` less the waits that took one, no wait is about to
decrement zero, and `wait_for_completion_timeout` returns zero exactly when it has timed out
without taking a completion. -/
structure CompletionOk (s : CompletionRun) : Prop where
  count : s.done + s.consumed = s.completes
  positive : ∀ t w timeout loaded, s.pc t = .storing w timeout loaded → 0 < loaded
  results : ∀ r ∈ s.returns, r.timed = true → (r.value = 0 ↔ r.consumed = false)

/-- A store finds `done` as it was loaded, and a `wait_for_completion_timeout` that takes a
completion has no time left. -/
def Undisturbed (s : CompletionRun) : CompletionEvent → Prop
  | .store t =>
    ∀ loaded, s.pc t = .completing loaded → s.completes + 1 < 2 ^ 32 → s.done = loaded
  | .next t =>
    ∀ w timeout loaded, s.pc t = .storing w timeout loaded →
      s.done = loaded ∧ (w = true → timeout = 0)
  | _ => True

section Exact

variable {s s' : CompletionRun} {t : TaskId}

theorem CompletionInv.positive (hinv : CompletionInv s) (t : TaskId) (w : Bool) (timeout : ℤ)
    (loaded : ℕ) (h : s.pc t = .storing w timeout loaded) : 0 < loaded := by
  have hpc := hinv.pc t
  rw [h] at hpc
  exact hpc.2.2.1

/-- A step that leaves the counts and the results alone. -/
theorem CompletionOk.keep (hok : CompletionOk s) (hinv : CompletionInv s')
    (hdone : s'.done = s.done) (hconsumed : s'.consumed = s.consumed)
    (hcompletes : s'.completes = s.completes) (hreturns : s'.returns = s.returns) :
    CompletionOk s' := by
  refine ⟨?_, hinv.positive, ?_⟩
  · rw [hdone, hconsumed, hcompletes]
    exact hok.count
  · rw [hreturns]
    exact hok.results

theorem completionOk_call (hok : CompletionOk s) (hinv : CompletionInv s') {p : CompletionPc}
    (h : (if s.pc t = .idle then some (s.goto t p) else none) = some s') : CompletionOk s' := by
  split at h
  · obtain rfl := Option.some.inj h
    exact hok.keep hinv rfl rfl rfl rfl
  · cases h

theorem waitNext_ok_iff (hinv : CompletionInv s) (hok : CompletionOk s)
    (h : waitNext s t = some s') : CompletionOk s' ↔ Undisturbed s (.next t) := by
  have hpc := hinv.pc t
  have hinv' := hinv.waitNext h
  unfold waitNext at h
  unfold Undisturbed
  dsimp only
  split at h <;> rename_i heq <;> rw [heq] at hpc ⊢
  · split at h
    · obtain rfl := Option.some.inj h
      exact ⟨fun _ _ _ _ hcon => (nomatch hcon), fun _ => hok.keep hinv' rfl rfl rfl rfl⟩
    · cases h
  · obtain rfl := Option.some.inj h
    exact ⟨fun _ _ _ _ hcon => (nomatch hcon), fun _ => hok.keep hinv' rfl rfl rfl rfl⟩
  · obtain rfl := Option.some.inj h
    exact ⟨fun _ _ _ _ hcon => (nomatch hcon), fun _ => hok.keep hinv' rfl rfl rfl rfl⟩
  · rename_i w timeout
    refine ⟨fun _ _ _ _ hcon => (nomatch hcon), ?_⟩
    intro _
    have hs' := Option.some.inj h
    split at hs'
    · rename_i hdone
      subst hs'
      refine ⟨hok.count, hinv'.positive, ?_⟩
      -- a wait that returns here has timed out
      have htime : timeout = 0 := hpc.2.resolve_right (by omega)
      intro r hr hw
      rcases List.mem_cons.mp hr with rfl | hr
      · simp [htime]
      · exact hok.results r hr hw
    · subst hs'
      exact hok.keep hinv' rfl rfl rfl rfl
  · obtain rfl := Option.some.inj h
    exact ⟨fun _ _ _ _ hcon => (nomatch hcon), fun _ => hok.keep hinv' rfl rfl rfl rfl⟩
  · rename_i w timeout loaded
    obtain rfl := Option.some.inj h
    obtain ⟨-, hpos, hloaded, hle⟩ := hpc
    have hfew := hinv.few
    have hcount := hok.count
    constructor
    · intro hok' w' timeout' loaded' hsame
      obtain ⟨rfl, rfl, rfl⟩ := CompletionPc.storing.inj hsame
      have hcount' := hok'.count
      simp only [CompletionRun.goto] at hcount'
      refine ⟨by omega, ?_⟩
      intro hw
      have hres := hok'.results _ List.mem_cons_self hw
      by_contra hne
      simp [hne] at hres
    · intro hguard
      obtain ⟨hdone, htime⟩ := hguard w timeout loaded rfl
      refine ⟨?_, hinv'.positive, ?_⟩
      · simp only [CompletionRun.goto]
        omega
      · intro r hr hw
        rcases List.mem_cons.mp hr with rfl | hr
        · simp [htime hw]
        · exact hok.results r hr hw
  · obtain rfl := Option.some.inj h
    exact ⟨fun _ _ _ _ hcon => (nomatch hcon), fun _ => hok.keep hinv' rfl rfl rfl rfl⟩
  · cases h
  · cases h
  · cases h

/-- From a state that is right, a step leads to one exactly when it is undisturbed. -/
theorem completionStep_ok_iff {e : CompletionEvent} (hinv : CompletionInv s)
    (hok : CompletionOk s) (h : completionStep s e = some s') :
    CompletionOk s' ↔ Undisturbed s e := by
  have hinv' := completionInv_step hinv h
  cases e with
  | complete t => exact ⟨fun _ => trivial, fun _ => completionOk_call hok hinv' h⟩
  | wait t => exact ⟨fun _ => trivial, fun _ => completionOk_call hok hinv' h⟩
  | waitTimeout t timeout => exact ⟨fun _ => trivial, fun _ => completionOk_call hok hinv' h⟩
  | next t => exact waitNext_ok_iff hinv hok h
  | wake t elapsed =>
    refine ⟨fun _ => trivial, ?_⟩
    intro _
    unfold completionStep at h
    dsimp only at h
    split at h
    · obtain rfl := Option.some.inj h
      exact hok.keep hinv' rfl rfl rfl rfl
    · cases h
  | store t =>
    have hpc := hinv.pc t
    have hcount := hok.count
    unfold completionStep at h
    dsimp only at h
    split at h
    · -- the count is right afterwards exactly when `done` is what was loaded
      rename_i loaded heq
      rw [heq] at hpc
      have hle : loaded ≤ s.completes := hpc
      split at h
      · rename_i hfew
        obtain rfl := Option.some.inj h
        constructor
        · intro hok' loaded' hsame _
          rw [heq] at hsame
          obtain rfl := CompletionPc.completing.inj hsame
          have hcount' := hok'.count
          simp only [CompletionRun.goto] at hcount'
          omega
        · intro hguard
          have hdone := hguard loaded heq hfew
          refine ⟨?_, hinv'.positive, hok.results⟩
          simp only [CompletionRun.goto]
          omega
      · cases h
    · cases h

/-- A step that is not enabled disturbs nothing. -/
theorem undisturbed_of_none {e : CompletionEvent} (h : completionStep s e = none) :
    Undisturbed s e := by
  cases e with
  | complete t => trivial
  | wait t => trivial
  | waitTimeout t timeout => trivial
  | wake t elapsed => trivial
  | next t =>
    intro w timeout loaded heq
    simp [completionStep, waitNext, heq] at h
  | store t =>
    intro loaded heq hfew
    simp only [completionStep, heq, if_pos hfew] at h
    cases h

end Exact

/-- **Completions.**  In every interleaving of `complete` and the waits, the count, the decrements
and the results are right throughout exactly when all the steps are undisturbed. -/
theorem completion_runs_iff (es : List CompletionEvent) :
    Run.Always completionStep CompletionOk initCompletion es ↔
      Run.Guarded completionStep Undisturbed initCompletion es := by
  refine Run.always_iff_guarded_of_inv (J := CompletionInv)
    (fun s e s' hinv h => completionInv_step hinv h)
    (fun s e s' hinv hok h => completionStep_ok_iff hinv hok h)
    (fun s e _ _ h => undisturbed_of_none h) completionInv_init ?_
  exact ⟨rfl, fun _ _ _ _ h => (nomatch h), fun _ h => absurd h List.not_mem_nil⟩

/-- A completion that is there already, taken by a call with five milliseconds: it returns zero
as if it had timed out. -/
theorem consumed_returns_zero :
    ¬ ∀ es, Run.Always completionStep CompletionOk initCompletion es := by
  intro h
  have hend : (Run.exec completionStep initCompletion [.complete 1, .store 1, .waitTimeout 2 5,
      .next 2, .next 2, .next 2, .next 2]).map CompletionRun.returns = some [⟨true, 0, true⟩] := by
    decide
  obtain ⟨s, hs, hreturns⟩ := Option.map_eq_some_iff.mp hend
  have hres := ((h _).exec hs).results ⟨true, 0, true⟩ (by simp [hreturns]) rfl
  simp at hres

end YakOS
