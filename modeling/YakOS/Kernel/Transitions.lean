import YakOS.Kernel.Sched

/-!
# The transitions of the scheduler

`task.c` and `semaphore.c` use the run queues in a few ways, each inside a critical section:
a task goes to sleep or exits, which takes it off its queue and picks another one; a task
blocks and picks another one; a timer or `up` makes a task ready; an interrupt picks.  As
`init` is always queued and ready, a pick after a task has left finds another task, and the
task that `dequeue_task` has cached is still queued and ready when the pick takes it.

## Main definitions

* `Transition`, `transition` — the transitions.
* `atPick` — the run queues at the moment a transition picks.
* `TransInv` — the invariant: besides `SchedWf`, the current task has not left, and a task
  that has left is not queued.

## Main results

* `transitions_keep_queues` — the bitmap and the queues are in order in every state, and a
  task that is picked is queued and not `BLOCKED`.
-/

namespace YakOS

open Bitops Lists

/-- What the kernel does to the run queues in one critical section. -/
inductive Transition
  /-- `task_create` of a new task. -/
  | create (t : TaskId) (priority : ℕ)
  /-- `task_sleep`. -/
  | sleep
  /-- `task_exit`. -/
  | exit
  /-- `task_sleep_function`. -/
  | wake (t : TaskId)
  /-- A turn of the loop of `__down`. -/
  | block
  /-- `__up`. -/
  | ready (t : TaskId)
  /-- `task_schedule` by an interrupt or the idle loop. -/
  | preempt
  deriving DecidableEq, Repr

/-- The current task leaves: it sets its state and is dequeued. -/
def Sched.leave (s : Sched) (st : TaskState) : Sched :=
  (s.setTaskState s.current st).dequeueTask s.current

/-- The run queues at the moment a transition picks. -/
def atPick (s : Sched) : Transition → Option Sched
  | .sleep => if s.current = 0 then none else some (s.leave .sleeping)
  | .exit => if s.current = 0 then none else some (s.leave .exited)
  | .block => if s.current = 0 then none else some (s.setTaskState s.current .blocked)
  | .preempt => some s
  | _ => none

/-- One transition.  `init`, task 0, neither sleeps nor exits nor blocks. -/
def transition (s : Sched) : Transition → Option Sched
  | .create t p =>
    if p < maxPriority ∧ s.state t = .creating ∧ ¬ s.Queued t then
      some (Sched.enqueueTask { s with priority := fun u => if u = t then p else s.priority u } t)
    else none
  | .wake t =>
    if s.state t = .sleeping then some ((s.setTaskState t .ready).enqueueTask t) else none
  | .ready t => if s.state t = .blocked then some (s.setTaskState t .ready) else none
  | e => (atPick s e).map fun m => m.pickNextTask.1

/-- Every bit of the bitmap tells whether its list has a task, and every task is on the list
of its own priority and there once. -/
def QueuesExact (s : Sched) : Prop :=
  (∀ i < maxPriority, testBit i s.bitmap = true ↔ s.allTask i ≠ []) ∧
    ∀ i, (s.allTask i).Nodup ∧ ∀ t ∈ s.allTask i, s.priority t = i

/-- A task that is picked is queued and not `BLOCKED`. -/
def PicksReady (s : Sched) (e : Transition) : Prop :=
  ∀ m, atPick s e = some m → ∀ t, m.pickNextTask.2 = some t → m.Queued t ∧ m.state t ≠ .blocked

/-- The invariant of the transitions, apart from the current task. -/
structure QueueInv (s : Sched) : Prop extends SchedWf s where
  /-- A task that has left is not queued. -/
  away : ∀ t, s.state t = .sleeping ∨ s.state t = .exited → ¬ s.Queued t
  init : s.Queued 0
  initPriority : s.priority 0 = maxPriority - 1
  initReady : s.state 0 ≠ .blocked

/-- The invariant of the transitions. -/
structure TransInv (s : Sched) : Prop extends QueueInv s where
  awake : s.asleep = false

/-- What holds when a transition picks: the task that has left, if any, has found the task to
go on with. -/
structure PickInv (m : Sched) : Prop extends QueueInv m where
  cached : m.asleep = true → ∀ t, m.nextTask = some t → m.state t ≠ .blocked
  found : m.asleep = true → m.priority m.current = maxPriority - 1 → m.nextTask ≠ none

theorem transInv_boot : TransInv schedBoot where
  toSchedWf := schedWf_boot
  away := by simp [schedBoot]
  init := by decide
  initPriority := rfl
  initReady := by simp [schedBoot]
  awake := by decide

section Picks

variable {s m : Sched}

/-- Whatever a turn of the loop finds is not blocked. -/
theorem PickInv.ready_of_slot (h : PickInv m) {i : ℕ} {t : TaskId} {c : Bool}
    (hs : m.slot i = some (t, c)) : m.state t ≠ .blocked := by
  unfold Sched.slot at hs
  split at hs
  · cases hs
  · split at hs
    · obtain ⟨u, hu, hut⟩ := Option.map_eq_some_iff.mp hs
      cases hut
      exact (Sched.findNextTask_eq_some hu).2
    · split at hs
      · next ha =>
        obtain ⟨u, hu, hut⟩ := Option.map_eq_some_iff.mp hs
        cases hut
        exact h.cached ha t hu
      · obtain ⟨u, hu, hut⟩ := Option.map_eq_some_iff.mp hs
        cases hut
        exact (Sched.findNextTask_eq_some hu).2

/-- A pick after a task has left finds a task, since `init` is queued and ready. -/
theorem PickInv.finds (h : PickInv m) (ha : m.asleep = true) :
    (List.range maxPriority).findSome? m.slot ≠ none := by
  rw [ne_eq, findSome?_range_eq_none_iff]
  intro hnone
  have hlast := hnone (maxPriority - 1) (by decide)
  have hmem : 0 ∈ m.allTask (maxPriority - 1) := h.initPriority ▸ h.init
  by_cases hp : maxPriority - 1 = m.priority m.current
  · rw [hp, h.slot_of_asleep ha, ← hp, if_neg (List.ne_nil_of_mem hmem),
      Option.map_eq_none_iff] at hlast
    exact h.found ha hp.symm hlast
  · rw [h.slot_of_ne (by decide) hp, Option.map_eq_none_iff, Sched.findNextTask_eq_none] at hlast
    exact h.initReady (hlast 0 hmem)

/-- **A pick** takes a task that is queued and ready, and the current task has not left
afterwards. -/
theorem PickInv.pick (h : PickInv m) :
    TransInv m.pickNextTask.1 ∧
      ∀ t, m.pickNextTask.2 = some t → m.Queued t ∧ m.state t ≠ .blocked := by
  have hwf := h.toSchedWf.pickNextTask
  have hq : ∀ t, m.pickNextTask.1.Queued t ↔ m.Queued t := fun t => Sched.queued_pickNextTask
  unfold Sched.pickNextTask at hwf hq ⊢
  cases hscan : (List.range maxPriority).findSome? m.slot with
  | none =>
    have hawake : m.asleep = false := by
      by_contra hne
      exact h.finds (by simpa using hne) hscan
    exact ⟨{ h with awake := hawake }, nofun⟩
  | some r =>
    obtain ⟨t, c⟩ := r
    rw [hscan] at hwf hq
    obtain ⟨i, -, hslot, -⟩ := findSome?_range_eq_some_iff.mp hscan
    have hrun : ∀ u, ((m.setTaskState t .running).state u = .sleeping ∨
        (m.setTaskState t .running).state u = .exited) →
        m.state u = .sleeping ∨ m.state u = .exited := by
      intro u hu
      by_cases hut : u = t
      · simp [Sched.setTaskState, hut] at hu
      · simpa [Sched.setTaskState, hut] using hu
    refine ⟨⟨⟨hwf, fun u hu => ?_, (hq 0).mpr h.init, h.initPriority, ?_⟩, ?_⟩, fun u hu => ?_⟩
    · rw [hq]
      exact h.away u (hrun u hu)
    · by_cases h0 : 0 = t
      · simp [Sched.setTaskState, h0]
      · simpa [Sched.setTaskState, h0] using h.initReady
    · simp [Sched.asleep, Sched.setTaskState]
    · obtain rfl := Option.some.inj hu
      exact ⟨h.queued_of_slot hslot, h.ready_of_slot hslot⟩

/-- A state of a queued task other than `init` can change, as long as the task does not
leave. -/
theorem QueueInv.setTaskState (h : QueueInv s) {t : TaskId} {st : TaskState} (ht : s.Queued t)
    (hst : st ≠ .sleeping ∧ st ≠ .exited) (h0 : t = 0 → st ≠ .blocked) :
    QueueInv (s.setTaskState t st) where
  toSchedWf := h.toSchedWf.setTaskState st ht
  away := by
    intro u hu
    refine h.away u ?_
    by_cases hut : u = t
    · simp only [Sched.setTaskState, hut, if_true] at hu
      exact absurd hu (not_or.mpr hst)
    · simpa [Sched.setTaskState, hut] using hu
  init := h.init
  initPriority := h.initPriority
  initReady := by
    by_cases ht0 : 0 = t
    · simpa [Sched.setTaskState, ht0] using h0 ht0.symm
    · simpa [Sched.setTaskState, ht0] using h.initReady

/-- Enqueuing a task that is not queued and has not left. -/
theorem QueueInv.enqueueTask (h : SchedWf s) {t : TaskId} (ht : ¬ s.Queued t)
    (hst : s.state t ≠ .sleeping ∧ s.state t ≠ .exited)
    (haway : ∀ u, s.state u = .sleeping ∨ s.state u = .exited → ¬ s.Queued u)
    (h0 : s.Queued 0) (hp : s.priority 0 = maxPriority - 1) (hr : s.state 0 ≠ .blocked) :
    QueueInv (s.enqueueTask t) where
  toSchedWf := h.enqueueTask ht
  away := by
    intro u hu
    have hut : u ≠ t := by
      rintro rfl
      exact not_or.mpr hst hu
    rw [Sched.queued_enqueueTask_of_ne hut]
    exact haway u hu
  init := Sched.queued_enqueueTask h0
  initPriority := hp
  initReady := hr

/-- A task that leaves is off its queue, and another one is cached if there is one. -/
theorem TransInv.leave (h : TransInv s) (h0 : s.current ≠ 0) {st : TaskState}
    (hst : st = .sleeping ∨ st = .exited) : PickInv (s.leave st) := by
  have hq : s.Queued s.current := h.cur h.awake
  have hwf := h.toSchedWf.setTaskState st hq
  have ha : (s.setTaskState s.current st).asleep = true := by
    rcases hst with rfl | rfl
    · simp [Sched.asleep, Sched.setTaskState]
    · simp [Sched.asleep, Sched.setTaskState]
  have hwf' : SchedWf (s.leave st) := hwf.dequeueTask ha hq
  have hqueued : ∀ u, (s.leave st).Queued u ↔ s.Queued u ∧ u ≠ s.current := fun u =>
    hwf.toQueuesWf.queued_dequeueTask
  have hstate : ∀ u, u ≠ s.current → (s.leave st).state u = s.state u := by
    intro u hu
    simp [Sched.leave, Sched.dequeueTask, Sched.setTaskState, hu]
  have hready : (s.leave st).state 0 ≠ .blocked := by
    rw [hstate 0 (Ne.symm h0)]
    exact h.initReady
  refine ⟨⟨hwf', fun u hu => ?_, (hqueued 0).mpr ⟨h.init, Ne.symm h0⟩, h.initPriority, hready⟩,
    fun _ t ht => ?_, fun _ hp hnone => ?_⟩
  · rw [hqueued]
    rintro ⟨hqu, hne⟩
    rw [hstate u hne] at hu
    exact h.away u hu hqu
  · exact (Sched.findNextTask_eq_some ht).2
  · -- `init` is on the list of the task that leaves
    have hp' : s.priority s.current = maxPriority - 1 := hp
    have hmem : 0 ∈ s.allTask (s.priority s.current) := by
      rw [hp', ← h.initPriority]
      exact h.init
    have haround := (mem_around (h.nodup _) hq).mpr ⟨hmem, Ne.symm h0⟩
    exact hready (Sched.findNextTask_eq_none.mp hnone 0 haround)

/-- What holds at the pick of a transition. -/
theorem TransInv.atPick (h : TransInv s) {e : Transition} (hm : atPick s e = some m) :
    PickInv m := by
  have hq : s.Queued s.current := h.cur h.awake
  cases e with
  | sleep =>
    obtain ⟨h0, hm⟩ := Option.ite_none_left_eq_some.mp hm
    obtain rfl := Option.some.inj hm
    exact h.leave h0 (Or.inl rfl)
  | exit =>
    obtain ⟨h0, hm⟩ := Option.ite_none_left_eq_some.mp hm
    obtain rfl := Option.some.inj hm
    exact h.leave h0 (Or.inr rfl)
  | block =>
    obtain ⟨h0, hm⟩ := Option.ite_none_left_eq_some.mp hm
    obtain rfl := Option.some.inj hm
    have hawake : ¬ (s.setTaskState s.current .blocked).asleep = true := by
      simp [Sched.asleep, Sched.setTaskState]
    exact ⟨h.toQueueInv.setTaskState hq (by decide) fun e => absurd e h0,
      fun ha => absurd ha hawake, fun ha => absurd ha hawake⟩
  | preempt =>
    obtain rfl := Option.some.inj hm
    have hawake : ¬ s.asleep = true := by simp [h.awake]
    exact ⟨h.toQueueInv, fun ha => absurd ha hawake, fun ha => absurd ha hawake⟩
  | create t p => cases hm
  | wake t => cases hm
  | ready t => cases hm

end Picks

/-- **Every transition keeps the invariant.** -/
theorem transInv_step {s s' : Sched} {e : Transition} (h : TransInv s)
    (hs : transition s e = some s') : TransInv s' := by
  have hpick : (atPick s e).map (fun m => m.pickNextTask.1) = some s' → TransInv s' := by
    intro hmap
    obtain ⟨m, hm, rfl⟩ := Option.map_eq_some_iff.mp hmap
    exact (h.atPick hm).pick.1
  cases e with
  | create t p =>
    obtain ⟨⟨hp, hst, hnq⟩, hs⟩ := Option.ite_none_right_eq_some.mp hs
    obtain rfl := Option.some.inj hs
    obtain ⟨hwf, hq⟩ := h.toQueuesWf.setPriority hnq p
    have h₁ : SchedWf { s with priority := fun u => if u = t then p else s.priority u } := by
      refine ⟨hwf, fun u => ?_, h.bits, fun ha => (hq _).mpr (h.cur ha),
        fun u hu => (hq u).mpr (h.blocked u hu)⟩
      dsimp only
      split
      · exact hp
      · exact h.priority_lt u
    have h0 : (0 : TaskId) ≠ t := fun e => hnq (e ▸ h.init)
    refine ⟨QueueInv.enqueueTask h₁ (fun ht => hnq ((hq t).mp ht)) ?_ ?_ ((hq 0).mpr h.init) ?_
      h.initReady, h.awake⟩
    · exact ⟨by simp [hst], by simp [hst]⟩
    · intro u hu hqu
      exact h.away u hu ((hq u).mp hqu)
    · dsimp only
      rw [if_neg h0]
      exact h.initPriority
  | wake t =>
    obtain ⟨hst, hs⟩ := Option.ite_none_right_eq_some.mp hs
    obtain rfl := Option.some.inj hs
    have hnq := h.away t (Or.inl hst)
    have htc : s.current ≠ t := by
      rintro rfl
      exact hnq (h.cur h.awake)
    have h0 : (0 : TaskId) ≠ t := fun e => hnq (e ▸ h.init)
    -- the task is put on its queue, and its state no longer matters to the others
    have hwf : SchedWf ((s.setTaskState t .ready).enqueueTask t) :=
      (h.toSchedWf.enqueueTask hnq).setTaskState .ready (Sched.queued_enqueueTask_self t)
    refine ⟨⟨hwf, fun u hu => ?_, Sched.queued_enqueueTask h.init, h.initPriority, ?_⟩, ?_⟩
    · have hut : u ≠ t := by
        rintro rfl
        simp [Sched.enqueueTask, Sched.setTaskState] at hu
      rw [Sched.queued_enqueueTask_of_ne hut]
      exact h.away u (by simpa [Sched.enqueueTask, Sched.setTaskState, hut] using hu)
    · simpa [Sched.enqueueTask, Sched.setTaskState, h0] using h.initReady
    · simpa [Sched.asleep, Sched.enqueueTask, Sched.setTaskState, htc] using h.awake
  | ready t =>
    obtain ⟨hst, hs⟩ := Option.ite_none_right_eq_some.mp hs
    obtain rfl := Option.some.inj hs
    refine ⟨h.toQueueInv.setTaskState (h.blocked t hst) (by decide) (fun _ => by decide), ?_⟩
    by_cases htc : s.current = t
    · simp [Sched.asleep, Sched.setTaskState, htc]
    · simpa [Sched.asleep, Sched.setTaskState, htc] using h.awake
  | sleep => exact hpick hs
  | exit => exact hpick hs
  | block => exact hpick hs
  | preempt => exact hpick hs

/-- **The run queues.**  Whatever transitions are taken, in every state the bitmap and the
queues are in order, and every task that is picked is queued and not `BLOCKED` at that
moment. -/
theorem transitions_keep_queues (es : List Transition) :
    Run.Always transition QueuesExact schedBoot es ∧
      Run.Guarded transition PicksReady schedBoot es := by
  have hinv : Run.Always transition TransInv schedBoot es :=
    Run.always_of_guarded (C := fun _ _ => True) (fun s e s' h _ hs => transInv_step h hs)
      transInv_boot (Run.guarded_of_forall (fun _ _ => trivial) _ es)
  constructor
  · exact hinv.mono fun s h => ⟨h.bits, fun i => ⟨h.nodup i, h.own i⟩⟩
  · refine hinv.guarded (C := fun _ _ => True) (fun s e h _ m hm => (h.atPick hm).pick.2)
      (Run.guarded_of_forall (fun _ _ => trivial) _ es)

end YakOS
