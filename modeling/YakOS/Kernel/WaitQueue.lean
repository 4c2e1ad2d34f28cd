import Mathlib.Data.BitVec
import YakOS.Kernel.Sched

/-!
# Waking up a wait queue

`__wake_up_common` goes along a wait queue, calls the wake function of each waiter, and breaks off
when a waiter with the flag `WQ_FLAG_EXCLUSIVE` has been woken `nr_exclusive` times.  A waiter
counts as woken when its function returns something other than zero; `default_wake_function`
passes on what `try_to_wake_up` returns, and that is always zero.

The queue is that of the moment `__wake_up` takes the lock, in the order of its links; the lock
keeps the others off it.  `try_to_wake_up` may switch to another task, so that anything can
have become of the run queues when the loop goes on.

## Main definitions

* `wakeUpCommon`, `wakeUp` — the code, with the waiters whose function was called.
* `upTo n q` — the waiters of `q` up to the `n`-th exclusive one.

## Main results

* `wake_up_iff` — **the default function does so exactly when nobody stands behind the `n`-th
  exclusive waiter**.
-/

namespace YakOS

/-- `wait_queue_t`, apart from its links and its function. -/
structure WaitQueue where
  flags : BitVec 32
  /-- `private`. -/
  task : TaskId
  deriving DecidableEq, Repr

/-- `WQ_FLAG_EXCLUSIVE`. -/
def wqFlagExclusive : BitVec 32 := 1

/-- The waiter has the flag `WQ_FLAG_EXCLUSIVE`. -/
def WaitQueue.exclusive (w : WaitQueue) : Bool := w.flags &&& wqFlagExclusive ≠ 0

/-- A wake function, with the run queues before and after. -/
abbrev WakeFunction := WaitQueue → Sched → ℤ × Sched

/-- `try_to_wake_up`; `resume` is what `task_schedule` lets the other tasks do until the caller
runs again. -/
def tryToWakeUp (resume : Sched → Sched) (s : Sched) (t : TaskId) : ℤ × Sched :=
  let s := (s.setTaskState t .ready).enqueueTask t
  (0, resume s)

/-- `default_wake_function`. -/
def defaultWakeFunction (resume : Sched → Sched) : WakeFunction := fun curr s =>
  tryToWakeUp resume s curr.task

/-- `__wake_up_common` on the waiters of a queue: those whose function is called, and the run
queues. -/
def wakeUpCommon (func : WakeFunction) : List WaitQueue → ℤ → Sched → List WaitQueue × Sched
  | [], _, s => ([], s)
  | curr :: next, nrExclusive, s =>
    let flags := curr.flags
    let ret := func curr s
    if ret.1 ≠ 0 ∧ flags &&& wqFlagExclusive ≠ 0 then
      let nrExclusive := nrExclusive - 1
      if nrExclusive = 0 then ([curr], ret.2)
      else
        let rest := wakeUpCommon func next nrExclusive ret.2
        (curr :: rest.1, rest.2)
    else
      let rest := wakeUpCommon func next nrExclusive ret.2
      (curr :: rest.1, rest.2)

/-- `__wake_up` of a queue of waiters with the default function: the waiters woken.  The lock of
the queue is held meanwhile. -/
def wakeUp (resume : Sched → Sched) (q : List WaitQueue) (nrExclusive : ℤ) (s : Sched) :
    List WaitQueue :=
  (wakeUpCommon (defaultWakeFunction resume) q nrExclusive s).1

/-- The waiters of a queue up to the `n`-th exclusive one, or all if there are fewer. -/
def upTo : ℕ → List WaitQueue → List WaitQueue
  | 0, _ => []
  | _ + 1, [] => []
  | n + 1, w :: q => w :: (if w.exclusive then upTo n q else upTo (n + 1) q)

/-- The loop never stops early when the functions return zero. -/
theorem wakeUpCommon_eq_self {func : WakeFunction} (hfunc : ∀ w s, (func w s).1 = 0)
    (q : List WaitQueue) (nr : ℤ) (s : Sched) : (wakeUpCommon func q nr s).1 = q := by
  induction q generalizing s with
  | nil => rfl
  | cons w q ih =>
    rw [wakeUpCommon]
    dsimp only
    rw [if_neg fun h => h.1 (hfunc w s)]
    exact congrArg (w :: ·) (ih _)

theorem wakeUp_eq (resume : Sched → Sched) (q : List WaitQueue) (nr : ℤ) (s : Sched) :
    wakeUp resume q nr s = q :=
  wakeUpCommon_eq_self (fun _ _ => rfl) q nr s

/-- Nobody stands behind the `n`-th exclusive waiter: that one, if it is there, is the last. -/
theorem upTo_eq_self_iff {n : ℕ} {q : List WaitQueue} (hn : 1 ≤ n) :
    upTo n q = q ↔ q.dropLast.countP WaitQueue.exclusive < n := by
  induction q generalizing n with
  | nil =>
    obtain ⟨m, rfl⟩ := Nat.exists_eq_add_of_le' hn
    simp [upTo]
  | cons w q ih =>
    obtain ⟨m, rfl⟩ := Nat.exists_eq_add_of_le' hn
    rw [upTo, List.cons.injEq, eq_self_iff_true, true_and]
    cases q with
    | nil => cases m <;> simp [upTo]
    | cons v q =>
      rw [List.dropLast_cons_cons, List.countP_cons]
      by_cases hw : w.exclusive = true
      · rw [if_pos hw, if_pos hw]
        cases m with
        | zero => simp [upTo]
        | succ m =>
          rw [ih (Nat.succ_pos m)]
          omega
      · rw [if_neg hw, if_neg hw]
        exact ih hn

/-- **Waking up a queue.**  `__wake_up(q, n)` wakes the waiters up to the `n`-th exclusive one and
nobody after it exactly when fewer than `n` of the waiters before the last one are exclusive; and
`wake_up` wakes at most one exclusive waiter exactly when there is at most one. -/
theorem wake_up_iff (resume : Sched → Sched) (q : List WaitQueue) (s : Sched) {n : ℕ}
    (hn : 1 ≤ n) :
    (wakeUp resume q n s = upTo n q ↔ q.dropLast.countP WaitQueue.exclusive < n) ∧
      ((wakeUp resume q 1 s).countP WaitQueue.exclusive ≤ 1 ↔
        q.countP WaitQueue.exclusive ≤ 1) := by
  rw [wakeUp_eq, wakeUp_eq]
  refine ⟨?_, Iff.rfl⟩
  rw [← upTo_eq_self_iff hn]
  exact eq_comm

/-- An exclusive waiter with a plain one before it. -/
theorem wake_up_iff_plain :
    wakeUp id [⟨0, 1⟩, ⟨1, 2⟩] (1 : ℕ) schedBoot = upTo 1 [⟨0, 1⟩, ⟨1, 2⟩] :=
  ((wake_up_iff id [⟨0, 1⟩, ⟨1, 2⟩] schedBoot le_rfl).1).mpr (by decide)

/-- Two exclusive waiters: `wake_up` wakes both. -/
theorem wake_up_wakes_both :
    ¬ ∀ (resume : Sched → Sched) (q : List WaitQueue) (s : Sched) (n : ℕ), 1 ≤ n →
      wakeUp resume q n s = upTo n q ∧
        (wakeUp resume q 1 s).countP WaitQueue.exclusive ≤ 1 := by
  intro h
  have hboth := (h id [⟨1, 1⟩, ⟨1, 2⟩] schedBoot 1 le_rfl).2
  rw [wakeUp_eq] at hboth
  exact absurd hboth (by decide)

end YakOS
