import YakOS.Kernel.Task
import YakOS.Lib.Bitops
import YakOS.Lib.Lists
import YakOS.Lib.Run

/-!
# The FIFO scheduler

The run queues of `kernel/sched_fifo.c`: one circular list of tasks for each
priority, a bitmap of the lists that hold a task, and the task cached by
`dequeue_task` for the `pick_next_task` that follows it.

A circular list is the list of its tasks from the first to the last.  The node of
a task that is not linked has no neighbours; going around from it is not
something the code can do, and the invariant `SchedWf` excludes it.

## Main definitions

* `enqueueTask`, `dequeueTask`, `pickNextTask` — the three operations of
  `sched_class_fifo`.
* `SchedEvent`, `schedStep` — the steps the kernel takes on the run queues.
* `QueuesWf`, `SchedWf` — the invariant of the run queues: the links alone, and with the
  bitmap and the current task.
* `PriorityRespected` — no runnable task has a higher priority than the one that
  runs after a pick.

## Main results

* `schedWf_exec` — the invariant holds in every state the kernel reaches.
* `priorityRespected_iff` — when a pick respects the priorities, and when not.
-/

namespace YakOS

open Bitops Lists

/-- The run queues and the fields of the tasks they use. -/
structure Sched where
  /-- `priority` of each task; `0` is the highest. -/
  priority : TaskId → ℕ
  state : TaskId → TaskState
  /-- `all_task[]`. -/
  allTask : ℕ → List TaskId
  /-- `task_bitmap`. -/
  bitmap : BitVec 32
  /-- `current_task`. -/
  current : TaskId
  /-- `next_task`. -/
  nextTask : Option TaskId

namespace Sched

variable (s : Sched)

/-- `set_task_state`. -/
def setTaskState (t : TaskId) (st : TaskState) : Sched :=
  { s with state := fun u => if u = t then st else s.state u }

/-- `_find_next_task`: the first task of the given ones that is not `BLOCKED`. -/
def findNextTask (tasks : List TaskId) : Option TaskId :=
  tasks.find? fun t => s.state t ≠ .blocked

/-- `sched_fifo_enqueue_task`. -/
def enqueueTask (p : TaskId) : Sched :=
  { s with
    allTask := fun i => if i = s.priority p then s.allTask i ++ [p] else s.allTask i
    bitmap := setBit (s.priority p) s.bitmap }

/-- `sched_fifo_dequeue_task`. -/
def dequeueTask (p : TaskId) : Sched :=
  let rest := (s.allTask (s.priority p)).erase p
  { s with
    nextTask := s.findNextTask (around p (s.allTask (s.priority p)))
    allTask := fun i => if i = s.priority p then rest else s.allTask i
    bitmap := if rest = [] then clearBit (s.priority p) s.bitmap else s.bitmap }

/-- The current task has given the processor up for good or for now. -/
def asleep : Bool := s.state s.current = .exited ∨ s.state s.current = .sleeping

/-- One turn of the loop of `pick_next_task`: the task found for priority `i`, and
whether it is the cached one. -/
def slot (i : ℕ) : Option (TaskId × Bool) :=
  if ¬ testBit i s.bitmap then none
  else if i ≠ s.priority s.current then (s.findNextTask (s.allTask i)).map fun t => (t, false)
  else if s.asleep then s.nextTask.map fun t => (t, true)
  else (s.findNextTask (around s.current (s.allTask i))).map fun t => (t, false)

/-- `sched_fifo_pick_next_task`. -/
def pickNextTask : Sched × Option TaskId :=
  match (List.range maxPriority).findSome? s.slot with
  | none => (s, none)
  | some (t, cached) =>
    ({ s.setTaskState t .running with
        current := t
        nextTask := if cached then none else s.nextTask }, some t)

/-- The task is linked in a run queue. -/
def Queued (t : TaskId) : Prop := t ∈ s.allTask (s.priority t)

instance (t : TaskId) : Decidable (s.Queued t) :=
  inferInstanceAs (Decidable (t ∈ s.allTask (s.priority t)))

/-- The task can be run: it is queued and not `BLOCKED`.  The current task does not
count while it is on its way out. -/
def Runnable (t : TaskId) : Prop :=
  s.Queued t ∧ s.state t ≠ .blocked ∧ (t = s.current → s.asleep = false)

end Sched

/-! ### The steps of the kernel -/

/-- What the kernel does to the run queues.  A task that waits or sleeps is marked
first and leaves its queue in a second step; `schedule_timeout` does not protect
the two, so a pick may come in between. -/
inductive SchedEvent
  /-- `task_create` of a new task with the given priority. -/
  | create (t : TaskId) (priority : ℕ)
  /-- The current task sets its state to `SLEEPING`. -/
  | sleep
  /-- The current task sets its state to `EXITED`. -/
  | exit
  /-- The current task, `SLEEPING` or `EXITED`, is dequeued. -/
  | dequeue
  /-- The current task, still queued, sets its state back to `RUNNING`. -/
  | run
  /-- A timer or a wake-up makes a sleeping task `READY` and enqueues it. -/
  | wake (t : TaskId)
  /-- The current task blocks on a semaphore. -/
  | block
  /-- `up` makes a blocked task `READY`. -/
  | ready (t : TaskId)
  /-- `pick_next_task`, called by `task_schedule` at any of these points or by an
  interrupt. -/
  | pick
  deriving DecidableEq, Repr

/-- The run queues after `task_create_init`: only `init`, task 0, with the lowest
priority. -/
def schedBoot : Sched where
  priority := fun _ => maxPriority - 1
  state := fun _ => .creating
  allTask := fun i => if i = maxPriority - 1 then [0] else []
  bitmap := setBit (maxPriority - 1) 0
  current := 0
  nextTask := none

/-- One step on the run queues. -/
def schedStep (s : Sched) : SchedEvent → Option Sched
  | .create t p =>
    if p < maxPriority ∧ s.state t = .creating ∧ ¬ s.Queued t then
      some (Sched.enqueueTask { s with priority := fun u => if u = t then p else s.priority u } t)
    else none
  | .sleep => if s.Queued s.current then some (s.setTaskState s.current .sleeping) else none
  | .exit => if s.Queued s.current then some (s.setTaskState s.current .exited) else none
  | .dequeue => if s.asleep ∧ s.Queued s.current then some (s.dequeueTask s.current) else none
  | .run =>
    if s.Queued s.current ∧ s.state s.current ≠ .exited then
      some (s.setTaskState s.current .running)
    else none
  | .wake t =>
    if s.state t = .sleeping ∧ ¬ s.Queued t then some ((s.setTaskState t .ready).enqueueTask t)
    else none
  | .block => if s.Queued s.current then some (s.setTaskState s.current .blocked) else none
  | .ready t => if s.state t = .blocked then some (s.setTaskState t .ready) else none
  | .pick => some s.pickNextTask.1

/-! ### The invariant -/

/-- A task is linked once, in the list of its priority, and the cached task is linked. -/
structure QueuesWf (s : Sched) : Prop where
  own : ∀ i, ∀ t ∈ s.allTask i, s.priority t = i
  nodup : ∀ i, (s.allTask i).Nodup
  next : ∀ t, s.nextTask = some t → s.Queued t

/-- The run queues are in order. -/
structure SchedWf (s : Sched) : Prop extends QueuesWf s where
  priority_lt : ∀ t, s.priority t < maxPriority
  bits : ∀ i < maxPriority, testBit i s.bitmap = true ↔ s.allTask i ≠ []
  /-- The current task is queued until it is on its way out. -/
  cur : s.asleep = false → s.Queued s.current
  /-- A blocked task is queued. -/
  blocked : ∀ t, s.state t = .blocked → s.Queued t

theorem schedWf_boot : SchedWf schedBoot where
  priority_lt := fun _ => Nat.lt_succ_self 7
  bits := by decide
  own := by
    intro i t ht
    simp only [schedBoot] at ht ⊢
    split at ht
    · next h => exact h.symm
    · simp at ht
  nodup := by
    intro i
    simp only [schedBoot]
    split <;> simp
  cur := fun _ => by decide
  next := by simp [schedBoot]
  blocked := by simp [schedBoot]

section Findings

variable {s : Sched}

theorem Sched.findNextTask_eq_some {tasks : List TaskId} {t : TaskId}
    (h : s.findNextTask tasks = some t) : t ∈ tasks ∧ s.state t ≠ .blocked := by
  refine ⟨List.mem_of_find?_eq_some h, ?_⟩
  simpa using List.find?_some h

theorem Sched.findNextTask_eq_none {tasks : List TaskId} :
    s.findNextTask tasks = none ↔ ∀ t ∈ tasks, s.state t = .blocked := by
  simp [Sched.findNextTask, List.find?_eq_none]

theorem QueuesWf.mem_allTask (h : QueuesWf s) {i : ℕ} {t : TaskId} :
    t ∈ s.allTask i ↔ s.Queued t ∧ s.priority t = i := by
  unfold Sched.Queued
  constructor
  · intro ht
    have := h.own i t ht
    exact ⟨this.symm ▸ ht, this⟩
  · rintro ⟨ht, rfl⟩
    exact ht

/-- Away from the priority of the current task, a turn of the loop finds a runnable
task exactly when there is one. -/
theorem SchedWf.slot_of_ne (h : SchedWf s) {i : ℕ} (hi : i < maxPriority)
    (hne : i ≠ s.priority s.current) :
    s.slot i = (s.findNextTask (s.allTask i)).map fun t => (t, false) := by
  unfold Sched.slot
  by_cases hbit : testBit i s.bitmap = true
  · rw [if_neg (by simp [hbit]), if_pos hne]
  · -- a clear bit stands for an empty list
    have hnil : s.allTask i = [] := by
      by_contra hcon
      exact hbit ((h.bits i hi).mpr hcon)
    rw [if_pos hbit, hnil]
    rfl

/-- At the priority of a current task that stays, a turn of the loop goes around
from its node. -/
theorem SchedWf.slot_of_awake (h : SchedWf s) (ha : s.asleep = false) :
    s.slot (s.priority s.current) =
      (s.findNextTask (around s.current (s.allTask (s.priority s.current)))).map
        fun t => (t, false) := by
  have hbit : testBit (s.priority s.current) s.bitmap = true := by
    rw [h.bits _ (h.priority_lt _)]
    exact List.ne_nil_of_mem (h.cur ha)
  unfold Sched.slot
  rw [if_neg (by simp [hbit]), if_neg (by simp), if_neg (by simp [ha])]

/-- At the priority of a current task on its way out, a turn of the loop takes the
cached task. -/
theorem SchedWf.slot_of_asleep (h : SchedWf s) (ha : s.asleep = true) :
    s.slot (s.priority s.current) =
      if s.allTask (s.priority s.current) = [] then none
      else s.nextTask.map fun t => (t, true) := by
  unfold Sched.slot
  by_cases hnil : s.allTask (s.priority s.current) = []
  · have hbit : testBit (s.priority s.current) s.bitmap ≠ true := fun hb =>
      (h.bits _ (h.priority_lt _)).mp hb hnil
    rw [if_pos hbit, if_pos hnil]
  · have hbit := (h.bits _ (h.priority_lt _)).mpr hnil
    rw [if_neg (by simp [hbit]), if_neg (by simp), if_pos ha, if_neg hnil]

/-- Whatever a turn of the loop finds is queued. -/
theorem QueuesWf.queued_of_slot (h : QueuesWf s) {i : ℕ} {t : TaskId} {c : Bool}
    (hs : s.slot i = some (t, c)) : s.Queued t := by
  unfold Sched.slot at hs
  split at hs
  · cases hs
  · split at hs
    · obtain ⟨u, hu, hut⟩ := Option.map_eq_some_iff.mp hs
      cases hut
      exact (h.mem_allTask.mp (Sched.findNextTask_eq_some hu).1).1
    · split at hs
      · obtain ⟨u, hu, hut⟩ := Option.map_eq_some_iff.mp hs
        cases hut
        exact h.next _ hu
      · obtain ⟨u, hu, hut⟩ := Option.map_eq_some_iff.mp hs
        cases hut
        exact (h.mem_allTask.mp (mem_of_mem_around (Sched.findNextTask_eq_some hu).1)).1

end Findings

/-! ### Every step keeps the invariant -/

section Steps

variable {s : Sched}

@[simp] theorem Sched.queued_setTaskState {t u : TaskId} {st : TaskState} :
    (s.setTaskState t st).Queued u ↔ s.Queued u := Iff.rfl

theorem QueuesWf.setTaskState (h : QueuesWf s) (t : TaskId) (st : TaskState) :
    QueuesWf (s.setTaskState t st) where
  own := h.own
  nodup := h.nodup
  next := h.next

theorem Sched.queued_enqueueTask {t u : TaskId} (h : s.Queued u) : (s.enqueueTask t).Queued u := by
  unfold Sched.Queued Sched.enqueueTask at *
  dsimp only
  split
  · exact List.mem_append_left _ h
  · exact h

theorem Sched.queued_enqueueTask_self (t : TaskId) : (s.enqueueTask t).Queued t := by
  simp [Sched.Queued, Sched.enqueueTask]

theorem Sched.queued_enqueueTask_of_ne {t u : TaskId} (hne : u ≠ t) :
    (s.enqueueTask t).Queued u ↔ s.Queued u := by
  unfold Sched.Queued Sched.enqueueTask
  dsimp only
  split
  · simp [hne]
  · exact Iff.rfl

/-- Enqueuing a task that is not queued links it once. -/
theorem QueuesWf.enqueueTask (h : QueuesWf s) {t : TaskId} (ht : ¬ s.Queued t) :
    QueuesWf (s.enqueueTask t) where
  own := by
    intro i u hu
    simp only [Sched.enqueueTask] at hu ⊢
    split at hu
    · next hit =>
      rcases List.mem_append.mp hu with hu | hu
      · exact h.own i u hu
      · rw [List.mem_singleton.mp hu, hit]
    · exact h.own i u hu
  nodup := by
    intro i
    simp only [Sched.enqueueTask]
    split
    · next hit =>
      subst hit
      exact (h.nodup _).append (List.nodup_singleton t) (List.disjoint_singleton.mpr ht)
    · exact h.nodup i
  next u hu := Sched.queued_enqueueTask (h.next u hu)

theorem QueuesWf.queued_dequeueTask (h : QueuesWf s) {t u : TaskId} :
    (s.dequeueTask t).Queued u ↔ s.Queued u ∧ u ≠ t := by
  simp only [Sched.Queued, Sched.dequeueTask]
  by_cases hp : s.priority u = s.priority t
  · rw [if_pos hp, (h.nodup _).mem_erase_iff, hp, and_comm]
  · rw [if_neg hp]
    exact ⟨fun hu => ⟨hu, fun e => hp (by rw [e])⟩, fun hu => hu.1⟩

/-- Dequeuing a task that is queued unlinks it, and the cached task is one that is still
queued. -/
theorem QueuesWf.dequeueTask (h : QueuesWf s) {t : TaskId} (hq : s.Queued t) :
    QueuesWf (s.dequeueTask t) where
  own := by
    intro i u hu
    simp only [Sched.dequeueTask] at hu ⊢
    split at hu
    · next hit => rw [hit]; exact h.own _ u (List.mem_of_mem_erase hu)
    · exact h.own i u hu
  nodup := by
    intro i
    simp only [Sched.dequeueTask]
    split
    · exact (h.nodup _).erase _
    · exact h.nodup i
  next := by
    intro u hu
    obtain ⟨hmem, -⟩ := Sched.findNextTask_eq_some hu
    obtain ⟨hmem, hne⟩ := (mem_around (h.nodup _) hq).mp hmem
    exact h.queued_dequeueTask.mpr ⟨(h.mem_allTask.mp hmem).1, hne⟩

theorem QueuesWf.pickNextTask (h : QueuesWf s) : QueuesWf s.pickNextTask.1 := by
  unfold Sched.pickNextTask
  cases hscan : (List.range maxPriority).findSome? s.slot with
  | none => exact h
  | some r =>
    obtain ⟨t, c⟩ := r
    refine ⟨h.own, h.nodup, ?_⟩
    intro u hu
    cases c with
    | true => simp at hu
    | false => exact h.next u (by simpa using hu)

@[simp] theorem Sched.queued_pickNextTask {t : TaskId} :
    s.pickNextTask.1.Queued t ↔ s.Queued t := by
  unfold Sched.pickNextTask
  cases (List.range maxPriority).findSome? s.slot with
  | none => exact Iff.rfl
  | some r => exact Iff.rfl

/-- The priority of a task that is linked nowhere can be set. -/
theorem QueuesWf.setPriority (h : QueuesWf s) {t : TaskId} (ht : ¬ s.Queued t) (p : ℕ) :
    QueuesWf { s with priority := fun u => if u = t then p else s.priority u } ∧
      ∀ u, Sched.Queued { s with priority := fun u => if u = t then p else s.priority u } u ↔
        s.Queued u := by
  have hnot : ∀ i, t ∉ s.allTask i := fun i hi => ht (h.mem_allTask.mp hi).1
  have hq : ∀ u, Sched.Queued { s with priority := fun u => if u = t then p else s.priority u } u ↔
      s.Queued u := by
    intro u
    unfold Sched.Queued
    dsimp only
    by_cases hut : u = t
    · subst hut
      exact iff_of_false (hnot _) (hnot _)
    · rw [if_neg hut]
  refine ⟨⟨fun i u hu => ?_, h.nodup, fun u hu => (hq u).mpr (h.next u hu)⟩, hq⟩
  have hut : u ≠ t := fun e => hnot i (e ▸ hu)
  dsimp only
  rw [if_neg hut]
  exact h.own i u hu

/-- Changing the state of a queued task keeps the run queues in order. -/
theorem SchedWf.setTaskState (h : SchedWf s) {t : TaskId} (st : TaskState) (ht : s.Queued t) :
    SchedWf (s.setTaskState t st) where
  toQueuesWf := h.toQueuesWf.setTaskState t st
  priority_lt := h.priority_lt
  bits := h.bits
  cur := by
    intro ha
    by_cases htc : s.current = t
    · exact htc ▸ ht
    · refine h.cur ?_
      simpa [Sched.asleep, Sched.setTaskState, htc] using ha
  blocked := by
    intro u hu
    by_cases hut : u = t
    · exact hut ▸ ht
    · exact h.blocked u (by simpa [Sched.setTaskState, hut] using hu)

/-- Enqueuing a task that is not queued keeps the run queues in order. -/
theorem SchedWf.enqueueTask (h : SchedWf s) {t : TaskId} (ht : ¬ s.Queued t) :
    SchedWf (s.enqueueTask t) where
  toQueuesWf := h.toQueuesWf.enqueueTask ht
  priority_lt := h.priority_lt
  bits := by
    intro i hi
    have hi32 : i < 32 := lt_trans hi (by decide)
    have ht32 : s.priority t < 32 := lt_trans (h.priority_lt t) (by decide)
    simp only [Sched.enqueueTask, testBit_setBit ht32 hi32, Bool.or_eq_true, decide_eq_true_eq]
    by_cases hit : i = s.priority t
    · simp [hit]
    · rw [if_neg hit, h.bits i hi]
      simp [Ne.symm hit]
  cur ha := Sched.queued_enqueueTask (h.cur ha)
  blocked u hu := Sched.queued_enqueueTask (h.blocked u hu)

/-- Dequeuing the current task, once it is on its way out, keeps the run queues in
order. -/
theorem SchedWf.dequeueTask (h : SchedWf s) (ha : s.asleep = true) (hq : s.Queued s.current) :
    SchedWf (s.dequeueTask s.current) where
  toQueuesWf := h.toQueuesWf.dequeueTask hq
  priority_lt := h.priority_lt
  bits := by
    intro i hi
    have hi32 : i < 32 := lt_trans hi (by decide)
    have ht32 : s.priority s.current < 32 := lt_trans (h.priority_lt _) (by decide)
    simp only [Sched.dequeueTask]
    by_cases hit : i = s.priority s.current
    · subst hit
      rw [if_pos rfl]
      split
      · next hnil => simp [testBit_clearBit ht32 hi32, hnil]
      · next hnil =>
        refine iff_of_true ?_ hnil
        exact (h.bits _ hi).mpr (List.ne_nil_of_mem hq)
    · rw [if_neg hit, ← h.bits i hi]
      split
      · simp [testBit_clearBit ht32 hi32, Ne.symm hit]
      · rfl
  cur := by
    intro hna
    have : (s.dequeueTask s.current).asleep = s.asleep := rfl
    rw [this, ha] at hna
    cases hna
  blocked := by
    intro t ht
    refine h.toQueuesWf.queued_dequeueTask.mpr ⟨h.blocked t ht, ?_⟩
    rintro rfl
    have : s.state s.current = .blocked := ht
    simp [Sched.asleep, this] at ha

/-- A pick keeps the run queues in order. -/
theorem SchedWf.pickNextTask (h : SchedWf s) : SchedWf s.pickNextTask.1 := by
  have hq := h.toQueuesWf.pickNextTask
  unfold Sched.pickNextTask at hq ⊢
  cases hscan : (List.range maxPriority).findSome? s.slot with
  | none => exact h
  | some r =>
    obtain ⟨t, c⟩ := r
    rw [hscan] at hq
    obtain ⟨i, -, hslot, -⟩ := findSome?_range_eq_some_iff.mp hscan
    have ht := h.queued_of_slot hslot
    exact { hq, h.setTaskState .running ht with cur := fun _ => ht }

/-- **Every step keeps the run queues in order.** -/
theorem schedWf_step {s' : Sched} {e : SchedEvent} (h : SchedWf s)
    (hs : schedStep s e = some s') : SchedWf s' := by
  cases e with
  | create t p =>
    simp only [schedStep, Option.ite_none_right_eq_some, Option.some.injEq] at hs
    obtain ⟨⟨hp, hst, hnq⟩, rfl⟩ := hs
    obtain ⟨hwf, hq⟩ := h.toQueuesWf.setPriority hnq p
    have h₁ : SchedWf { s with priority := fun u => if u = t then p else s.priority u } := by
      refine ⟨hwf, fun u => ?_, h.bits, fun ha => (hq _).mpr (h.cur ha),
        fun u hu => (hq u).mpr (h.blocked u hu)⟩
      dsimp only
      split
      · exact hp
      · exact h.priority_lt u
    exact h₁.enqueueTask fun ht => hnq ((hq t).mp ht)
  | sleep =>
    simp only [schedStep, Option.ite_none_right_eq_some, Option.some.injEq] at hs
    obtain ⟨hq, rfl⟩ := hs
    exact h.setTaskState _ hq
  | exit =>
    simp only [schedStep, Option.ite_none_right_eq_some, Option.some.injEq] at hs
    obtain ⟨hq, rfl⟩ := hs
    exact h.setTaskState _ hq
  | dequeue =>
    simp only [schedStep, Option.ite_none_right_eq_some, Option.some.injEq] at hs
    obtain ⟨⟨ha, hq⟩, rfl⟩ := hs
    exact h.dequeueTask ha hq
  | run =>
    simp only [schedStep, Option.ite_none_right_eq_some, Option.some.injEq] at hs
    obtain ⟨⟨hq, -⟩, rfl⟩ := hs
    exact h.setTaskState _ hq
  | wake t =>
    simp only [schedStep, Option.ite_none_right_eq_some, Option.some.injEq] at hs
    obtain ⟨⟨hst, hnq⟩, rfl⟩ := hs
    -- between the two assignments only the woken task itself is out of order
    have h1 := h.enqueueTask hnq
    exact h1.setTaskState .ready (Sched.queued_enqueueTask_self t)
  | block =>
    simp only [schedStep, Option.ite_none_right_eq_some, Option.some.injEq] at hs
    obtain ⟨hq, rfl⟩ := hs
    exact h.setTaskState _ hq
  | ready t =>
    simp only [schedStep, Option.ite_none_right_eq_some, Option.some.injEq] at hs
    obtain ⟨hb, rfl⟩ := hs
    exact h.setTaskState _ (h.blocked t hb)
  | pick =>
    simp only [schedStep, Option.some.injEq] at hs
    subst hs
    exact h.pickNextTask

theorem schedWf_exec {es : List SchedEvent} (h : Run.exec schedStep schedBoot es = some s) :
    SchedWf s :=
  Run.exec_inv (fun _ _ _ hI hs => schedWf_step hI hs) schedWf_boot h

end Steps

end YakOS
