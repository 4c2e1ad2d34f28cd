import Mathlib.Data.List.Nodup
import Mathlib.Data.Nat.ModEq
import YakOS.Kernel.Task
import YakOS.Lib.Run

/-!
# Counting semaphores

The semaphores of `kernel/semaphore.c`, and what holds across every interleaving
of the tasks that use one.

The code between `enter_critical_section` and `exit_critical_section` is one
step, and `__down` gives the processor away in the middle of its loop, so a call
of `down` is one step up to that point and one more for each resumption of the
loop.  A resumption may be spurious: the task runs again although no `up` has
granted it the semaphore, finds `waiter.up` clear and blocks again.

A `struct semaphore_waiter` lives on the stack of the call of `down` that
declares it; it is named by its number in the order of the calls that blocked.

## Main definitions

* `down`, `downCore`, `downLoop`, `up`, `upCore` — the code.
* `SemRun`, `semStep` — one semaphore shared by any number of tasks, with a
  ledger of what has happened so far.
* `SemInv` — the invariant of its runs.

## Main results

* `semInv_step` — every step keeps the invariant.
* `semaphore_runs` — mutual exclusion of units and waiters, the conservation law
  modulo the width of `count`, one grant for each return, first come first
  served.
-/

namespace YakOS

/-- `struct semaphore_waiter`. -/
structure SemaphoreWaiter where
  task : TaskId
  up : Bool
  deriving DecidableEq, Repr, Inhabited

/-- `struct semaphore`; the list holds the numbers of the linked waiters. -/
structure Semaphore where
  count : ℕ
  waitList : List ℕ
  deriving DecidableEq, Repr, Inhabited

/-- What the code of one semaphore works on: the semaphore, every waiter declared
so far and the states of the tasks. -/
structure SemMem where
  sem : Semaphore
  waiters : List SemaphoreWaiter
  state : TaskId → TaskState

/-- `set_task_state`. -/
def SemMem.setTaskState (m : SemMem) (t : TaskId) (st : TaskState) : SemMem :=
  { m with state := fun u => if u = t then st else m.state u }

/-- `sema_init`. -/
def semaInit (val : ℕ) : Semaphore := { count := val, waitList := [] }

/-- `__down` up to its first `task_schedule`: link a waiter and block. -/
def downCore (m : SemMem) (task : TaskId) : SemMem × ℕ :=
  let w := m.waiters.length
  let m' : SemMem := { m with
    sem := { m.sem with waitList := m.sem.waitList ++ [w] }
    waiters := m.waiters ++ [{ task := task, up := false }] }
  (m'.setTaskState task .blocked, w)

/-- `down`: the waiter the call is left waiting on, or `none` if it returned. -/
def down (m : SemMem) (task : TaskId) : SemMem × Option ℕ :=
  if 0 < m.sem.count then
    ({ m with sem := { m.sem with count := m.sem.count - 1 } }, none)
  else
    let (m', w) := downCore m task
    (m', some w)

/-- The rest of the loop of `__down` after `task_schedule` has returned: whether
the call returns, and the state, `BLOCKED` again if it does not. -/
def downLoop (m : SemMem) (task : TaskId) (w : ℕ) : SemMem × Bool :=
  if (m.waiters[w]?).any SemaphoreWaiter.up then (m, true)
  else (m.setTaskState task .blocked, false)

/-- `__up`: hand the semaphore to the first waiter. -/
def upCore (m : SemMem) (w : ℕ) (ws : List ℕ) : SemMem :=
  let m' : SemMem := { m with
    sem := { m.sem with waitList := ws }
    waiters := m.waiters.modify w fun x => { x with up := true } }
  match m.waiters[w]? with
  | some x => m'.setTaskState x.task .ready
  | none => m'

/-- `up`. -/
def up (m : SemMem) : SemMem :=
  match m.sem.waitList with
  | [] => { m with sem := { m.sem with count := (m.sem.count + 1) % 2 ^ 32 } }
  | w :: ws => upCore m w ws

/-! ### Interleavings -/

/-- How a call of `down` came to return. -/
inductive DownReturn
  /-- It found `count > 0` and decremented it. -/
  | took (t : TaskId)
  /-- It was resumed and found the `up` flag of its waiter set. -/
  | woken (t : TaskId) (w : ℕ)
  deriving DecidableEq, Repr

/-- The waiter a return went through. -/
def DownReturn.waiter : DownReturn → Option ℕ
  | .took _ => none
  | .woken _ w => some w

/-- One semaphore, the tasks suspended in `down`, and the ledger of the run. -/
structure SemRun where
  mem : SemMem
  /-- The waiter of the call of `down` each task is suspended in. -/
  inDown : TaskId → Option ℕ
  /-- The calls of `up` so far. -/
  ups : ℕ
  /-- The calls of `down` that decremented `count`. -/
  taken : ℕ
  /-- The waiters granted by an `up`, first to last. -/
  handed : List ℕ
  /-- The returns from `down`, first to last. -/
  returns : List DownReturn

/-- The calls of `down` granted so far, whether or not they have returned. -/
def SemRun.granted (s : SemRun) : ℕ := s.taken + s.handed.length

/-- The atomic steps. -/
inductive SemEvent
  | down (t : TaskId)
  | up
  /-- The scheduler runs the blocked task `t` again. -/
  | resume (t : TaskId)
  deriving DecidableEq, Repr

/-- The semaphore after `sema_init(sem, n)`. -/
def semStart (n : Fin (2 ^ 32)) : SemRun where
  mem := { sem := semaInit n, waiters := [], state := fun _ => .running }
  inDown := fun _ => none
  ups := 0
  taken := 0
  handed := []
  returns := []

/-- One step.  A task suspended in `down` can only be resumed. -/
def semStep (s : SemRun) : SemEvent → Option SemRun
  | .down t =>
    match s.inDown t with
    | some _ => none
    | none =>
      match down s.mem t with
      | (m, none) =>
        some { s with mem := m, taken := s.taken + 1, returns := s.returns ++ [.took t] }
      | (m, some w) =>
        some { s with mem := m, inDown := fun u => if u = t then some w else s.inDown u }
  | .up =>
    some { s with
      mem := up s.mem
      ups := s.ups + 1
      handed := s.handed ++ s.mem.sem.waitList.head?.toList }
  | .resume t =>
    match s.inDown t with
    | none => none
    | some w =>
      match downLoop s.mem t w with
      | (m, false) => some { s with mem := m }
      | (m, true) =>
        some { s with
          mem := m
          inDown := fun u => if u = t then none else s.inDown u
          returns := s.returns ++ [.woken t w] }

/-! ### The invariant -/

/-- The invariant of the runs of a semaphore initialised to `n`. -/
structure SemInv (n : ℕ) (s : SemRun) : Prop where
  count_lt : s.mem.sem.count < 2 ^ 32
  /-- Units and waiters exclude each other. -/
  idle : 0 < s.mem.sem.count → s.mem.sem.waitList = []
  /-- Conservation, up to the number of times `count` has wrapped around. -/
  law : ∃ k, n + s.ups = s.mem.sem.count + s.granted + 2 ^ 32 * k
  /-- The waiters are numbered in the order they blocked; the granted ones come
  first, in the order they were granted. -/
  order : s.handed ++ s.mem.sem.waitList = List.range s.mem.waiters.length
  up_iff : ∀ w, (s.mem.waiters[w]?).any SemaphoreWaiter.up = true ↔ w ∈ s.handed
  /-- A task suspended in `down` owns its waiter, and has not returned yet. -/
  own : ∀ t w, s.inDown t = some w →
    (s.mem.waiters[w]?).map SemaphoreWaiter.task = some t ∧
      some w ∉ s.returns.map DownReturn.waiter
  ret : ∀ t w, DownReturn.woken t w ∈ s.returns →
    w ∈ s.handed ∧ (s.mem.waiters[w]?).map SemaphoreWaiter.task = some t
  once : (s.returns.filterMap DownReturn.waiter).Nodup
  took : s.taken = s.returns.countP fun r => r.waiter.isNone

theorem semInv_start (n : Fin (2 ^ 32)) : SemInv n (semStart n) where
  count_lt := n.isLt
  idle := fun _ => rfl
  law := ⟨0, rfl⟩
  order := rfl
  up_iff := by simp [semStart]
  own := by simp [semStart]
  ret := by simp [semStart]
  once := by simp [semStart]
  took := rfl

theorem SemInv.handed_nodup {n : ℕ} {s : SemRun} (h : SemInv n s) : s.handed.Nodup := by
  have := List.nodup_range (n := s.mem.waiters.length)
  rw [← h.order] at this
  exact (List.nodup_append.mp this).1

/-- `down` finding a unit. -/
theorem semInv_down_take {n : ℕ} {s : SemRun} (h : SemInv n s) (t : TaskId)
    (hc : 0 < s.mem.sem.count) :
    SemInv n { s with
      mem := { s.mem with sem := { s.mem.sem with count := s.mem.sem.count - 1 } }
      taken := s.taken + 1
      returns := s.returns ++ [.took t] } := by
  obtain ⟨k, hk⟩ := h.law
  refine { h with count_lt := ?_, idle := ?_, law := ⟨k, ?_⟩, own := ?_, ret := ?_, once := ?_,
                  took := ?_ }
  · have := h.count_lt
    dsimp only
    omega
  · intro _
    exact h.idle hc
  · simp only [SemRun.granted] at hk ⊢
    omega
  · intro u w hu
    refine ⟨(h.own u w hu).1, ?_⟩
    simpa [DownReturn.waiter] using (h.own u w hu).2
  · intro u w hu
    exact h.ret u w (by simpa using hu)
  · have hnil : [DownReturn.took t].filterMap DownReturn.waiter = [] := rfl
    rw [List.filterMap_append, hnil, List.append_nil]
    exact h.once
  · simp [h.took, DownReturn.waiter]

/-- `down` finding none: the task blocks on a new waiter. -/
theorem semInv_down_block {n : ℕ} {s : SemRun} (h : SemInv n s) (t : TaskId)
    (hc : ¬ 0 < s.mem.sem.count) :
    SemInv n { s with
      mem := (downCore s.mem t).1
      inDown := fun u => if u = t then some s.mem.waiters.length else s.inDown u } := by
  have hget : ∀ w, w < s.mem.waiters.length →
      (s.mem.waiters ++ [{ task := t, up := false }])[w]? = s.mem.waiters[w]? := by
    intro w hw
    exact List.getElem?_append_left hw
  have hhanded : ∀ w ∈ s.handed, w < s.mem.waiters.length := by
    intro w hw
    rw [← List.mem_range, ← h.order]
    exact List.mem_append_left _ hw
  have hown : ∀ (u : TaskId) (w : ℕ), (s.mem.waiters[w]?).map SemaphoreWaiter.task = some u →
      ((s.mem.waiters ++ [{ task := t, up := false }])[w]?).map SemaphoreWaiter.task = some u := by
    intro u w hu
    rcases Nat.lt_or_ge w s.mem.waiters.length with hw | hw
    · rwa [hget w hw]
    · simp [List.getElem?_eq_none hw] at hu
  refine { h with idle := ?_, law := h.law, order := ?_, up_iff := ?_, own := ?_, ret := ?_ }
  · intro hpos
    exact absurd hpos hc
  · simp only [downCore, SemMem.setTaskState, List.length_append, List.length_singleton,
      List.range_succ, ← List.append_assoc]
    rw [h.order]
  · intro w
    rcases Nat.lt_trichotomy w s.mem.waiters.length with hw | hw | hw
    · simp only [downCore, SemMem.setTaskState, hget w hw]
      exact h.up_iff w
    · subst hw
      simp only [downCore, SemMem.setTaskState, List.getElem?_concat_length, Option.any_some,
        Bool.false_eq_true, false_iff]
      exact fun hm => absurd (hhanded _ hm) (Nat.lt_irrefl _)
    · simp only [downCore, SemMem.setTaskState]
      rw [List.getElem?_eq_none (by simp; omega)]
      simp only [Option.any_none, Bool.false_eq_true, false_iff]
      exact fun hm => absurd (hhanded _ hm) (by omega)
  · intro u w hu
    by_cases hut : u = t
    · subst hut
      obtain rfl : s.mem.waiters.length = w := by simpa using hu
      refine ⟨by simp [downCore, SemMem.setTaskState], ?_⟩
      -- a waiter that has returned was granted, and the new one has not been
      intro hmem
      obtain ⟨r, hr, hrw⟩ := List.mem_map.mp hmem
      cases r with
      | took _ => simp [DownReturn.waiter] at hrw
      | woken u' w' =>
        obtain rfl : w' = _ := by simpa [DownReturn.waiter] using hrw
        exact absurd (hhanded _ (h.ret u' _ hr).1) (Nat.lt_irrefl _)
    · dsimp only at hu
      rw [if_neg hut] at hu
      exact ⟨hown u w (h.own u w hu).1, (h.own u w hu).2⟩
  · intro u w hu
    exact ⟨(h.ret u w hu).1, hown u w (h.ret u w hu).2⟩

/-- `up` with nobody waiting. -/
theorem semInv_up_count {n : ℕ} {s : SemRun} (h : SemInv n s) (hw : s.mem.sem.waitList = []) :
    SemInv n { s with
      mem := { s.mem with sem := { s.mem.sem with count := (s.mem.sem.count + 1) % 2 ^ 32 } }
      ups := s.ups + 1 } := by
  obtain ⟨k, hk⟩ := h.law
  have hlt := h.count_lt
  refine { h with count_lt := Nat.mod_lt _ (by decide), idle := fun _ => hw, law := ?_ }
  simp only [SemRun.granted] at hk ⊢
  rcases Nat.lt_or_ge (s.mem.sem.count + 1) (2 ^ 32) with hc | hc
  · refine ⟨k, ?_⟩
    rw [Nat.mod_eq_of_lt hc]
    omega
  · -- the unsigned counter wraps around to zero
    refine ⟨k + 1, ?_⟩
    have : s.mem.sem.count + 1 = 2 ^ 32 := by omega
    rw [this, Nat.mod_self]
    omega

/-- `up` granting the first waiter. -/
theorem semInv_up_hand {n : ℕ} {s : SemRun} (h : SemInv n s) {w : ℕ} {ws : List ℕ}
    (hw : s.mem.sem.waitList = w :: ws) :
    SemInv n { s with
      mem := upCore s.mem w ws
      ups := s.ups + 1
      handed := s.handed ++ [w] } := by
  have hzero : ¬ 0 < s.mem.sem.count := by
    intro hpos
    simp [h.idle hpos] at hw
  have hwlen : w < s.mem.waiters.length := by
    rw [← List.mem_range, ← h.order, hw]
    simp
  obtain ⟨k, hk⟩ := h.law
  -- the core hands the semaphore to the first waiter and wakes its task
  have hmem : upCore s.mem w ws =
      { sem := { s.mem.sem with waitList := ws }
        waiters := s.mem.waiters.modify w fun x => { x with up := true }
        state := (upCore s.mem w ws).state } := by
    simp only [upCore]
    split <;> rfl
  have htask : ∀ v : ℕ, (((s.mem.waiters.modify w fun x => { x with up := true })[v]?).map
      SemaphoreWaiter.task) = (s.mem.waiters[v]?).map SemaphoreWaiter.task := by
    intro v
    rw [List.getElem?_modify]
    cases s.mem.waiters[v]? with
    | none => rfl
    | some x => by_cases hv : w = v <;> simp [hv]
  rw [hmem]
  refine { h with idle := ?_, law := ⟨k, ?_⟩, order := ?_, up_iff := ?_, own := ?_, ret := ?_ }
  · intro hpos
    exact absurd hpos hzero
  · simp only [SemRun.granted, List.length_append, List.length_singleton] at hk ⊢
    omega
  · simpa [hw] using h.order
  · intro v
    rw [List.mem_append, List.mem_singleton, ← h.up_iff v]
    dsimp only
    rw [List.getElem?_modify]
    by_cases hv : w = v
    · subst hv
      rw [List.getElem?_eq_getElem hwlen]
      simp
    · have hv' : v ≠ w := fun e => hv e.symm
      cases s.mem.waiters[v]? <;> simp [hv, hv']
  · intro u v hu
    refine ⟨?_, (h.own u v hu).2⟩
    dsimp only
    rw [htask]
    exact (h.own u v hu).1
  · intro u v hu
    refine ⟨List.mem_append_left _ (h.ret u v hu).1, ?_⟩
    dsimp only
    rw [htask]
    exact (h.ret u v hu).2

/-- A resumed call that has been granted the semaphore returns. -/
theorem semInv_resume_return {n : ℕ} {s : SemRun} (h : SemInv n s) {t : TaskId} {w : ℕ}
    (hin : s.inDown t = some w) (hup : (s.mem.waiters[w]?).any SemaphoreWaiter.up = true) :
    SemInv n { s with
      inDown := fun u => if u = t then none else s.inDown u
      returns := s.returns ++ [.woken t w] } := by
  obtain ⟨htask, hfresh⟩ := h.own t w hin
  refine { h with law := h.law, own := ?_, ret := ?_, once := ?_, took := ?_ }
  · intro u v hu
    by_cases hut : u = t
    · simp [hut] at hu
    · dsimp only at hu
      rw [if_neg hut] at hu
      obtain ⟨hu1, hu2⟩ := h.own u v hu
      refine ⟨hu1, ?_⟩
      -- another task's waiter is another waiter, since its `task` differs
      have hvw : v ≠ w := by
        rintro rfl
        rw [htask] at hu1
        exact hut (Option.some.inj hu1).symm
      simpa [DownReturn.waiter, hvw] using hu2
  · intro u v hu
    rcases List.mem_append.mp hu with hu | hu
    · exact h.ret u v hu
    · obtain ⟨rfl, rfl⟩ : u = t ∧ v = w := by simpa using hu
      exact ⟨(h.up_iff v).mp hup, htask⟩
  · rw [List.filterMap_append, List.nodup_append]
    refine ⟨h.once, by simp [DownReturn.waiter], ?_⟩
    intro v hv v' hv' hvv
    obtain rfl : v' = w := by simpa [DownReturn.waiter] using hv'
    subst hvv
    obtain ⟨r, hr, hrv⟩ := List.mem_filterMap.mp hv
    exact hfresh (List.mem_map.mpr ⟨r, hr, hrv⟩)
  · simp [h.took, DownReturn.waiter]

/-- **Every step keeps the invariant.** -/
theorem semInv_step {n : ℕ} {s s' : SemRun} {e : SemEvent} (h : SemInv n s)
    (hs : semStep s e = some s') : SemInv n s' := by
  cases e with
  | down t =>
    simp only [semStep, down] at hs
    cases hin : s.inDown t with
    | some w => simp [hin] at hs
    | none =>
      by_cases hc : 0 < s.mem.sem.count
      · simp only [hin, hc, if_true, Option.some.injEq] at hs
        subst hs
        exact semInv_down_take h t hc
      · simp only [hin, hc, if_false, Option.some.injEq] at hs
        subst hs
        exact semInv_down_block h t hc
  | up =>
    simp only [semStep, Option.some.injEq] at hs
    subst hs
    cases hw : s.mem.sem.waitList with
    | nil => simpa [up, hw] using semInv_up_count h hw
    | cons w ws => simpa [up, hw] using semInv_up_hand h hw
  | resume t =>
    simp only [semStep, downLoop] at hs
    cases hin : s.inDown t with
    | none => simp [hin] at hs
    | some w =>
      by_cases hup : (s.mem.waiters[w]?).any SemaphoreWaiter.up = true
      · simp only [hin, hup, if_true, Option.some.injEq] at hs
        subst hs
        exact semInv_resume_return h hin hup
      · simp only [hin, hup, Bool.false_eq_true, if_false, Option.some.injEq] at hs
        subst hs
        -- a spurious resumption only blocks again
        exact { h with law := h.law }

theorem semInv_exec (n : Fin (2 ^ 32)) {es : List SemEvent} {s : SemRun}
    (h : Run.exec semStep (semStart n) es = some s) : SemInv n s :=
  Run.exec_inv (fun _ _ _ hI hs => semInv_step hI hs) (semInv_start n) h

/-- **The semaphore over every interleaving.**  In every state reached by tasks
entering `down`, calling `up` and being resumed, spuriously or not:

* units are only available when nobody waits;
* every unit is accounted for, modulo the width of `count`, and exactly as long
  as fewer than `2 ^ 32` units are outstanding;
* a call of `down` that returned took a unit, or was granted exactly once, and
  no grant served two returns;
* the waiters granted so far are the first ones that blocked, in order. -/
theorem semaphore_runs (n : Fin (2 ^ 32)) (es : List SemEvent) (s : SemRun)
    (h : Run.exec semStep (semStart n) es = some s) :
    (0 < s.mem.sem.count → s.mem.sem.waitList = []) ∧
    n + s.ups ≡ s.mem.sem.count + s.granted [MOD 2 ^ 32] ∧
    (n + s.ups = s.mem.sem.count + s.granted ↔ n + s.ups < s.granted + 2 ^ 32) ∧
    s.taken = s.returns.countP (fun r => r.waiter.isNone) ∧
    (∀ t w, DownReturn.woken t w ∈ s.returns →
      s.handed.count w = 1 ∧ (s.mem.waiters[w]?).map SemaphoreWaiter.task = some t) ∧
    (s.returns.filterMap DownReturn.waiter).Nodup ∧
    s.handed ++ s.mem.sem.waitList = List.range s.mem.waiters.length := by
  have hI := semInv_exec n h
  obtain ⟨k, hk⟩ := hI.law
  have hlt := hI.count_lt
  refine ⟨hI.idle, ?_, ?_, hI.took, ?_, hI.once, hI.order⟩
  · rw [hk]
    simp [Nat.ModEq]
  · constructor
    · intro heq
      omega
    · intro hsmall
      have hk0 : k = 0 := by omega
      subst hk0
      simpa using hk
  · intro t w hw
    obtain ⟨hh, ht⟩ := hI.ret t w hw
    exact ⟨List.count_eq_one_of_mem hI.handed_nodup hh, ht⟩

/-- Two tasks on a semaphore of one unit: the second blocks, is resumed once for
nothing, and returns after the first has called `up`. -/
theorem semaphore_runs_two_tasks :
    ∃ s, Run.exec semStep (semStart 1)
        [.down 0, .down 1, .resume 1, .up, .resume 1] = some s ∧
      s.returns = [.took 0, .woken 1 0] ∧ s.handed.count 0 = 1 := by
  refine Exists.intro _ (And.intro (Eq.refl _) (And.intro rfl ?_))
  exact ((semaphore_runs 1 [.down 0, .down 1, .resume 1, .up, .resume 1] _ rfl).2.2.2.2.1
    1 0 (by decide)).1

/-! ### The width of `count` -/

/-- Calls of `up` with nobody waiting only count. -/
theorem exec_replicate_up (k : ℕ) (s : SemRun) (hw : s.mem.sem.waitList = [])
    (hc : s.mem.sem.count < 2 ^ 32) :
    ∃ s', Run.exec semStep s (List.replicate k .up) = some s' ∧
      s'.mem.sem.count = (s.mem.sem.count + k) % 2 ^ 32 ∧
      s'.ups = s.ups + k ∧ s'.granted = s.granted := by
  induction k generalizing s with
  | zero => exact ⟨s, rfl, (Nat.mod_eq_of_lt hc).symm, rfl, rfl⟩
  | succ k ih =>
    obtain ⟨s', hs', h1, h2, h3⟩ := ih
      { s with
        mem := { s.mem with sem := { s.mem.sem with count := (s.mem.sem.count + 1) % 2 ^ 32 } }
        ups := s.ups + 1 } hw (Nat.mod_lt _ (by decide))
    refine ⟨s', ?_, ?_, ?_, h3⟩
    · simpa [List.replicate_succ, semStep, up, hw] using hs'
    · rw [h1, Nat.mod_add_mod, Nat.add_assoc, Nat.add_comm 1 k]
    · rw [h2, Nat.add_assoc, Nat.add_comm 1 k]

/-- The unsigned counter wraps: after `2 ^ 32` calls of `up` on a semaphore
initialised to zero all units are gone, although none was granted. -/
theorem conservation_fails_at_wrap :
    ∃ s, Run.exec semStep (semStart 0) (List.replicate (2 ^ 32) .up) = some s ∧
      s.mem.sem.count = 0 ∧ s.granted = 0 ∧ s.ups = 2 ^ 32 ∧
      ¬ 0 + s.ups = s.mem.sem.count + s.granted := by
  obtain ⟨s, hs, hcount, hups, hgranted⟩ := exec_replicate_up (2 ^ 32) (semStart 0) rfl (by decide)
  have h1 : s.mem.sem.count = 0 := by
    rw [hcount]
    simp [semStart, semaInit]
  have h2 : s.ups = 2 ^ 32 := by
    rw [hups]
    simp [semStart]
  have h3 : s.granted = 0 := by
    rw [hgranted]
    rfl
  refine ⟨s, hs, h1, h3, h2, ?_⟩
  rw [h1, h2, h3]
  decide

end YakOS
