import YakOS.Kernel.Machine

/-!
# What the code of the kernel can do

Between two primitives the code only says what comes next.  Here is what that can be:
code that leaves as many critical sections as it enters, that links no task into a run
queue except by way of `try_to_wake_up` and `task_sleep_function`, and that names no task
but those recorded in the objects.

## Main definitions

* `nest d l` — the number of critical sections a task is in after running `l`, or `none`
  if it would leave one it is not in.
* `woken l` — the tasks the instructions `l` enqueue.
* `Named` — only tasks that were created are named anywhere.

## Main results

* `callStep_spec` — the code between two primitives.
* `stepped` — the inversion of a step.
* `named_step` — every step keeps `Named`.
-/

namespace YakOS

namespace Machine

/-! ### Critical sections -/

/-- The number of critical sections after an instruction. -/
def Instr.level : Instr → ℕ → Option ℕ
  | .prim .enter, d => some (d + 1)
  | .prim .exit, d => if d = 0 then none else some (d - 1)
  | .prim .irqExit, d => if d = 0 then none else some (d - 1)
  | _, d => some d

/-- The number of critical sections after the instructions `l`. -/
def nest : ℕ → List Instr → Option ℕ
  | d, [] => some d
  | d, i :: l => (i.level d).bind fun d' => nest d' l

@[simp] theorem nest_nil (d : ℕ) : nest d [] = some d := rfl

theorem nest_cons (d : ℕ) (i : Instr) (l : List Instr) :
    nest d (i :: l) = (i.level d).bind fun d' => nest d' l := rfl

theorem nest_append (d : ℕ) (l l' : List Instr) :
    nest d (l ++ l') = (nest d l).bind fun d' => nest d' l' := by
  induction l generalizing d with
  | nil => rfl
  | cons i l ih => simp only [List.cons_append, nest_cons, Option.bind_assoc, ih]

theorem Instr.level_add {i : Instr} {d e : ℕ} (h : i.level d = some e) (n : ℕ) :
    i.level (d + n) = some (e + n) := by
  unfold Instr.level at *
  split at h
  · obtain rfl := Option.some.inj h
    exact congrArg some (by omega)
  · split at h
    · cases h
    · obtain rfl := Option.some.inj h
      rw [if_neg (by omega)]
      exact congrArg some (by omega)
  · split at h
    · cases h
    · obtain rfl := Option.some.inj h
      rw [if_neg (by omega)]
      exact congrArg some (by omega)
  · obtain rfl := Option.some.inj h
    rfl

/-- More critical sections around the code do no harm. -/
theorem nest_add {l : List Instr} {d e : ℕ} (h : nest d l = some e) (n : ℕ) :
    nest (d + n) l = some (e + n) := by
  induction l generalizing d with
  | nil =>
    obtain rfl := Option.some.inj h
    rfl
  | cons i l ih =>
    rw [nest_cons] at h ⊢
    obtain ⟨d', hd', hl⟩ := Option.bind_eq_some_iff.mp h
    rw [Instr.level_add hd' n]
    exact ih hl

/-- Code that leaves what it enters does not matter. -/
theorem nest_balanced {l : List Instr} (h : nest 0 l = some 0) (d : ℕ) (l' : List Instr) :
    nest d (l ++ l') = nest d l' := by
  have := nest_add h d
  rw [Nat.zero_add] at this
  rw [nest_append, this]
  rfl

/-! ### Tasks -/

/-- The task an instruction enqueues. -/
def Instr.woken : Instr → Option TaskId
  | .prim (.enqueue t) => some t
  | _ => none

/-- The tasks a list of instructions enqueues. -/
def woken (l : List Instr) : List TaskId := l.filterMap Instr.woken

@[simp] theorem woken_append (l l' : List Instr) : woken (l ++ l') = woken l ++ woken l' :=
  List.filterMap_append

/-- The tasks an instruction names. -/
def Instr.tasks : Instr → List TaskId
  | .prim (.ready t) => [t]
  | .prim (.tryToWakeUp t) => [t]
  | .prim (.taskSleepFunction t) => [t]
  | .prim (.enqueue t) => [t]
  | _ => []

/-- The tasks a list of instructions names. -/
def tasksOf (l : List Instr) : List TaskId := l.flatMap Instr.tasks

/-- The task of a sleep timer. -/
def Timer.task? : Timer → Option TaskId
  | sleep t => some t
  | delayedWork _ => none

/-- The tasks recorded in the objects. -/
def Objects.tasks (o : Objects) : List TaskId :=
  o.owner ++ o.waiters.map SemaphoreWaiter.task ++ o.timerList.filterMap Timer.task?

/-- What a piece of code does, apart from what it does to the objects. -/
structure CallSpec (o : Objects) (cur : TaskId) (o' : Objects) (body : List Instr) : Prop where
  balanced : nest 0 body = some 0
  quiet : woken body = []
  named : ∀ t ∈ tasksOf body, t ∈ o.tasks
  tasks : ∀ t ∈ o'.tasks, t = cur ∨ t ∈ o.tasks

section Calls

variable {o o' : Objects} {cur : TaskId} {body : List Instr}

/-- Code that names no task. -/
theorem CallSpec.nameless (hnest : nest 0 body = some 0) (hquiet : woken body = [])
    (hbody : tasksOf body = []) (htasks : ∀ t ∈ o'.tasks, t = cur ∨ t ∈ o.tasks) :
    CallSpec o cur o' body where
  balanced := hnest
  quiet := hquiet
  named _ ht := absurd (hbody ▸ ht) List.not_mem_nil
  tasks := htasks

/-- Code that names no task and records none. -/
theorem CallSpec.silent (hnest : nest 0 body = some 0) (hquiet : woken body = [])
    (hbody : tasksOf body = []) (htasks : o'.tasks = o.tasks) : CallSpec o cur o' body :=
  .nameless hnest hquiet hbody fun _ ht => Or.inr (htasks ▸ ht)

theorem tasks_listAdd {new head : Node} (h : o.listAdd new head = some o') :
    o'.tasks = o.tasks := by
  obtain ⟨n, -, rfl⟩ := Option.map_eq_some_iff.mp h
  rfl

theorem tasks_listAddTail {new head : Node} (h : o.listAddTail new head = some o') :
    o'.tasks = o.tasks := by
  obtain ⟨n, -, rfl⟩ := Option.map_eq_some_iff.mp h
  rfl

theorem tasks_listDel {entry : Node} (h : o.listDel entry = some o') : o'.tasks = o.tasks := by
  unfold Objects.listDel at h
  split at h
  · obtain rfl := Option.some.inj h
    rfl
  · cases h

theorem tasks_listDelInit {entry : Node} (h : o.listDelInit entry = some o') :
    o'.tasks = o.tasks := by
  unfold Objects.listDelInit at h
  split at h
  · obtain rfl := Option.some.inj h
    rfl
  · cases h

theorem mem_tasks_declareWait {t : TaskId} (h : t ∈ (o.declareWait cur).tasks) :
    t = cur ∨ t ∈ o.tasks := by
  simp only [Objects.tasks, Objects.declareWait, List.mem_append, List.mem_singleton] at h ⊢
  tauto

theorem map_task_modify (ws : List SemaphoreWaiter) (w : ℕ) :
    (ws.modify w fun x => { x with up := true }).map SemaphoreWaiter.task =
      ws.map SemaphoreWaiter.task := by
  apply List.ext_getElem?
  intro i
  rw [List.getElem?_map, List.getElem?_modify, List.getElem?_map]
  by_cases h : w = i
  · cases ws[i]? <;> simp [h]
  · simp [h]

theorem mem_tasks_of_waiter {w : ℕ} {x : SemaphoreWaiter} (h : o.waiters[w]? = some x) :
    x.task ∈ o.tasks := by
  simp only [Objects.tasks, List.mem_append, List.mem_map]
  exact Or.inl (Or.inr ⟨x, List.mem_of_getElem? h, rfl⟩)

theorem mem_tasks_of_owner {e : ℕ} {t : TaskId} (h : o.owner[e]? = some t) : t ∈ o.tasks := by
  simp only [Objects.tasks, List.mem_append]
  exact Or.inl (Or.inl (List.mem_of_getElem? h))

/-- `down` that has to wait, and `down` that has not. -/
theorem callStep_downTry {path : ℕ} {m : SemId}
    (h : callStep o cur path (.downTry m) = some (o', body)) : CallSpec o cur o' body := by
  simp only [callStep] at h
  split at h
  · obtain ⟨rfl, rfl⟩ := Prod.mk.inj (Option.some.inj h)
    exact .silent rfl rfl rfl rfl
  · obtain ⟨rfl, rfl⟩ := Prod.mk.inj (Option.some.inj h)
    refine .nameless rfl rfl rfl ?_
    intro t ht
    simp only [Objects.tasks, List.map_append, List.mem_append, List.map_cons, List.map_nil,
      List.mem_singleton] at ht ⊢
    tauto

/-- `up` names the first waiter at most. -/
theorem callStep_upTry {path : ℕ} {m : SemId}
    (h : callStep o cur path (.upTry m) = some (o', body)) : CallSpec o cur o' body := by
  simp only [callStep] at h
  split at h
  · obtain ⟨rfl, rfl⟩ := Prod.mk.inj (Option.some.inj h)
    exact .silent rfl rfl rfl rfl
  · rename_i w ws _
    obtain ⟨rfl, rfl⟩ := Prod.mk.inj (Option.some.inj h)
    have htasks : ∀ t ∈ Objects.tasks { o with
        sem := set o.sem m { o.sem m with waitList := ws }
        waiters := o.waiters.modify w fun x => { x with up := true } }, t = cur ∨ t ∈ o.tasks := by
      intro t ht
      simp only [Objects.tasks, map_task_modify] at ht
      exact Or.inr ht
    cases hw : o.waiters[w]? with
    | none => exact .nameless rfl rfl rfl htasks
    | some x =>
      refine ⟨rfl, rfl, fun t ht => ?_, htasks⟩
      obtain rfl : t = x.task := by simpa [tasksOf, Instr.tasks] using ht
      exact mem_tasks_of_waiter hw

/-- A turn of the loop of `wake_up` names the task of its entry. -/
theorem callStep_wakeEach {path : ℕ} {q : QueueId} {curr : Node} {next : Option Node}
    (h : callStep o cur path (.wakeEach q curr next) = some (o', body)) :
    CallSpec o cur o' body := by
  cases curr with
  | head q' =>
    simp only [callStep] at h
    split at h
    · obtain ⟨rfl, rfl⟩ := Prod.mk.inj (Option.some.inj h)
      exact .silent rfl rfl rfl rfl
    · cases h
  | entry e =>
    obtain ⟨t, ht, hn⟩ := Option.map_eq_some_iff.mp h
    obtain ⟨rfl, rfl⟩ := Prod.mk.inj hn
    refine ⟨rfl, rfl, fun u hu => ?_, fun _ hu => Or.inr hu⟩
    obtain rfl : u = t := by simpa [tasksOf, Instr.tasks] using hu
    exact mem_tasks_of_owner ht

/-- A wait declares its entry and puts it on the queue, unless the completion is there. -/
theorem callStep_doWait {path : ℕ} {x : CompletionId} {timed : Bool}
    (h : callStep o cur path (.doWait x timed) = some (o', body)) : CallSpec o cur o' body := by
  simp only [callStep] at h
  split at h
  · obtain ⟨o₁, ho₁, hn⟩ := Option.map_eq_some_iff.mp h
    obtain ⟨rfl, rfl⟩ := Prod.mk.inj hn
    have htasks : ∀ t ∈ o₁.tasks, t = cur ∨ t ∈ o.tasks := by
      intro t ht
      rw [tasks_listAddTail ho₁] at ht
      exact mem_tasks_declareWait ht
    cases timed <;> exact .nameless rfl rfl rfl htasks
  · obtain ⟨rfl, rfl⟩ := Prod.mk.inj (Option.some.inj h)
    exact .silent rfl rfl rfl rfl

/-- **The code between two primitives.** -/
theorem callStep_spec {path : ℕ} {c : Call} (h : callStep o cur path c = some (o', body)) :
    CallSpec o cur o' body := by
  cases c with
  | kmalloc | kfree | downCheck w | scheduleTimeout | workerRun wq e =>
    obtain ⟨rfl, rfl⟩ := Prod.mk.inj (Option.some.inj h)
    split <;> exact .silent rfl rfl rfl rfl
  | downTry m => exact callStep_downTry h
  | upTry m => exact callStep_upTry h
  -- the timer of a sleep names the task that is to be woken: the caller
  | addSleepTimer =>
    obtain ⟨rfl, rfl⟩ := Prod.mk.inj (Option.some.inj h)
    refine .nameless rfl rfl rfl ?_
    intro t ht
    simp only [Objects.tasks, List.filterMap_append, List.mem_append] at ht ⊢
    simp only [List.filterMap_cons, Timer.task?, List.filterMap_nil, List.mem_singleton] at ht
    tauto
  | addDelayedTimer w =>
    obtain ⟨rfl, rfl⟩ := Prod.mk.inj (Option.some.inj h)
    refine .silent rfl rfl rfl ?_
    simp [Objects.tasks, Timer.task?]
  | wakeCommon q | wakeNext q next =>
    obtain ⟨n, -, hn⟩ := Option.map_eq_some_iff.mp h
    obtain ⟨rfl, rfl⟩ := Prod.mk.inj hn
    exact .silent rfl rfl rfl rfl
  | wakeEach q curr next => exact callStep_wakeEach h
  | doWait x timed => exact callStep_doWait h
  | waitCheck x e timed =>
    simp only [callStep] at h
    split at h
    · obtain ⟨rfl, rfl⟩ := Prod.mk.inj (Option.some.inj h)
      cases timed <;> exact .silent rfl rfl rfl rfl
    · obtain ⟨o₁, ho₁, hn⟩ := Option.map_eq_some_iff.mp h
      obtain ⟨rfl, rfl⟩ := Prod.mk.inj hn
      exact .silent rfl rfl rfl (tasks_listDel ho₁)
  | listAdd q e =>
    obtain ⟨o₁, ho₁, hn⟩ := Option.map_eq_some_iff.mp h
    obtain ⟨rfl, rfl⟩ := Prod.mk.inj hn
    exact .silent rfl rfl rfl (tasks_listAdd ho₁)
  | listDel e =>
    obtain ⟨o₁, ho₁, hn⟩ := Option.map_eq_some_iff.mp h
    obtain ⟨rfl, rfl⟩ := Prod.mk.inj hn
    exact .silent rfl rfl rfl (tasks_listDel ho₁)
  | listDelInit e =>
    obtain ⟨o₁, ho₁, hn⟩ := Option.map_eq_some_iff.mp h
    obtain ⟨rfl, rfl⟩ := Prod.mk.inj hn
    exact .silent rfl rfl rfl (tasks_listDelInit ho₁)
  -- an entry that is declared names its task, the caller
  | workerThread wq | flush wq =>
    obtain ⟨rfl, rfl⟩ := Prod.mk.inj (Option.some.inj h)
    exact .nameless rfl rfl rfl fun t ht => mem_tasks_declareWait ht
  | workerTest wq e =>
    simp only [callStep] at h
    split at h
    · obtain ⟨rfl, rfl⟩ := Prod.mk.inj (Option.some.inj h)
      exact .silent rfl rfl rfl rfl
    · obtain ⟨rfl, rfl⟩ := Prod.mk.inj (Option.some.inj h)
      split <;> exact .silent rfl rfl rfl rfl
  | finishTest q e | queueTest wq w | queueDelayedTest wq w | runLoop wq | flushLoop wq e needed
  | cleanup wq =>
    simp only [callStep] at h
    split at h
    · obtain ⟨rfl, rfl⟩ := Prod.mk.inj (Option.some.inj h)
      exact .silent rfl rfl rfl rfl
    · obtain ⟨rfl, rfl⟩ := Prod.mk.inj (Option.some.inj h)
      exact .silent rfl rfl rfl rfl
  | addDone x n | waitEnd x | delayedWorkTimerFn w | addWork wq w | clearPending w | workDone wq
  | flushStart wq e | initWorkqueue wq | idle =>
    obtain ⟨rfl, rfl⟩ := Prod.mk.inj (Option.some.inj h)
    exact .silent rfl rfl rfl rfl

/-- The code of a call of the kernel. -/
theorem api_spec (a : Api) : woken a.body = [] ∧ tasksOf a.body = [] ∧
    ∃ n, nest 0 a.body = some n := by
  cases a <;> exact ⟨rfl, rfl, _, rfl⟩

end Calls

/-! ### Steps -/

/-- What a step does to the kernel. -/
inductive Stepped (k : Kernel) : Event → Kernel → Prop
  | prim {path : ℕ} {p : Prim} {rest : List Instr} {k' : Kernel}
      (hc : k.cont k.sched.current = .prim p :: rest) (h : primStep k rest p = some k') :
      Stepped k (.run path) k'
  | code {path : ℕ} {c : Call} {rest body : List Instr} {o' : Objects}
      (hc : k.cont k.sched.current = .call c :: rest)
      (h : CallSpec k.objs k.sched.current o' body) :
      Stepped k (.run path) (({ k with objs := o' } : Kernel).goOn (body ++ rest))
  | user {path : ℕ} {rest : List Instr} (hc : k.cont k.sched.current = .user :: rest) :
      Stepped k (.run path) (k.goOn rest)
  | call {a : Api} {rest : List Instr} (hc : k.cont k.sched.current = .user :: rest) :
      Stepped k (.call a) (k.goOn (a.body ++ .user :: rest))
  | irq {i : Irq} {body : List Instr} {o' : Objects}
      (h : CallSpec k.objs k.sched.current o' body) :
      Stepped k (.irq i) ((({ k with objs := o' } : Kernel).goOn
        (body ++ .prim .irqExit :: k.cont k.sched.current)).setInts false).inner

theorem platformIrq_spec {o o' : Objects} {cur : TaskId} {i : Irq} {body : List Instr}
    (h : platformIrq o i = some (o', body)) : CallSpec o cur o' body := by
  cases i with
  | device reschedule =>
    obtain ⟨rfl, rfl⟩ := Prod.mk.inj (Option.some.inj h)
    cases reschedule <;> exact .silent rfl rfl rfl rfl
  | timer tm =>
    obtain ⟨htm, heq⟩ := Option.ite_none_right_eq_some.mp h
    obtain ⟨rfl, rfl⟩ := Prod.mk.inj (Option.some.inj heq)
    have htasks : ∀ t ∈ Objects.tasks { o with timerList := o.timerList.erase tm },
        t = cur ∨ t ∈ o.tasks := by
      intro t ht
      simp only [Objects.tasks, List.mem_append, List.mem_filterMap] at ht ⊢
      rcases ht with ht | ⟨tm', htm', ht⟩
      · exact Or.inr (Or.inl ht)
      · exact Or.inr (Or.inr ⟨tm', List.mem_of_mem_erase htm', ht⟩)
    cases tm with
    | delayedWork w => exact ⟨rfl, rfl, by simp [tasksOf, Instr.tasks], htasks⟩
    | sleep t =>
      refine ⟨rfl, rfl, fun u hu => ?_, htasks⟩
      obtain rfl : u = t := by simpa [tasksOf, Instr.tasks] using hu
      simp only [Objects.tasks, List.mem_append, List.mem_filterMap]
      exact Or.inr ⟨_, htm, rfl⟩

/-- **The inversion of a step.** -/
theorem stepped {k k' : Kernel} {e : Event} (h : step k e = some k') : Stepped k e k' := by
  cases e with
  | run path =>
    simp only [step] at h
    split at h
    · cases h
    · next p rest hc => exact .prim hc h
    · next c rest hc =>
      obtain ⟨⟨o', body⟩, hr, rfl⟩ := Option.map_eq_some_iff.mp h
      exact .code hc (callStep_spec hr)
    · next rest hc =>
      obtain rfl := Option.some.inj h
      exact .user hc
  | call a =>
    simp only [step] at h
    split at h
    · next rest hc =>
      obtain rfl := Option.some.inj h
      exact .call hc
    · cases h
  | irq i =>
    obtain ⟨-, h⟩ := Option.ite_none_right_eq_some.mp h
    obtain ⟨⟨o', body⟩, hr, rfl⟩ := Option.map_eq_some_iff.mp h
    exact .irq (platformIrq_spec hr)

/-- Only tasks that were created are named anywhere. -/
structure Named (k : Kernel) : Prop where
  current : k.sched.current < k.pids
  queued : ∀ i, ∀ t ∈ k.sched.allTask i, t < k.pids
  next : ∀ t, k.sched.nextTask = some t → t < k.pids
  cont : ∀ u, ∀ t ∈ tasksOf (k.cont u), t < k.pids
  objs : ∀ t ∈ k.objs.tasks, t < k.pids

theorem named_kmainBoot : Named kmainBoot where
  current := Nat.one_pos
  queued := by
    intro i t ht
    simp only [kmainBoot, schedBoot] at ht
    split at ht
    · rw [List.mem_singleton.mp ht]
      exact Nat.one_pos
    · cases ht
  next := by
    intro t ht
    cases ht
  cont := by
    intro u t ht
    simp only [kmainBoot] at ht
    split at ht
    · cases ht
    · cases ht
  objs := by
    intro t ht
    cases ht

@[simp] theorem tasksOf_append (l l' : List Instr) :
    tasksOf (l ++ l') = tasksOf l ++ tasksOf l' := List.flatMap_append

theorem tasksOf_cons (i : Instr) (l : List Instr) : tasksOf (i :: l) = i.tasks ++ tasksOf l := rfl

section Named

variable {k : Kernel}

/-- The task that goes on names no new task. -/
theorem Named.goOn (h : Named k) {l : List Instr} (hl : ∀ t ∈ tasksOf l, t < k.pids) :
    Named (k.goOn l) where
  current := h.current
  queued := h.queued
  next := h.next
  cont := by
    intro u t ht
    simp only [Kernel.goOn, set] at ht
    split at ht
    · exact hl t ht
    · exact h.cont u t ht
  objs := h.objs

/-- What is left to the current task names no new task. -/
theorem Named.rest (h : Named k) {i : Instr} {rest : List Instr}
    (hc : k.cont k.sched.current = i :: rest) : ∀ t ∈ tasksOf rest, t < k.pids := fun t ht =>
  h.cont k.sched.current t (hc ▸ tasksOf_cons i rest ▸ List.mem_append_right _ ht)

/-- The instruction of the current task names no new task. -/
theorem Named.instr (h : Named k) {i : Instr} {rest : List Instr}
    (hc : k.cont k.sched.current = i :: rest) : ∀ t ∈ i.tasks, t < k.pids := fun t ht =>
  h.cont k.sched.current t (hc ▸ tasksOf_cons i rest ▸ List.mem_append_left _ ht)

/-- The current task after a pick is one that was current, queued or cached. -/
theorem Named.pickNextTask (h : Named k) : k.sched.pickNextTask.1.current < k.pids ∧
    ∀ t, k.sched.pickNextTask.1.nextTask = some t → t < k.pids := by
  unfold Sched.pickNextTask
  cases hscan : (List.range maxPriority).findSome? k.sched.slot with
  | none => exact ⟨h.current, h.next⟩
  | some r =>
    obtain ⟨t, c⟩ := r
    obtain ⟨i, -, hslot, -⟩ := Lists.findSome?_range_eq_some_iff.mp hscan
    constructor
    · unfold Sched.slot at hslot
      split at hslot
      · cases hslot
      · split at hslot
        · obtain ⟨u, hu, hut⟩ := Option.map_eq_some_iff.mp hslot
          cases hut
          exact h.queued i t (Sched.findNextTask_eq_some hu).1
        · split at hslot
          · obtain ⟨u, hu, hut⟩ := Option.map_eq_some_iff.mp hslot
            cases hut
            exact h.next t hu
          · obtain ⟨u, hu, hut⟩ := Option.map_eq_some_iff.mp hslot
            cases hut
            exact h.queued i t (Lists.mem_of_mem_around (Sched.findNextTask_eq_some hu).1)
    · intro u hu
      cases c with
      | true => simp at hu
      | false => exact h.next u (by simpa using hu)

/-- The run queues may change as long as they name no new task. -/
theorem Named.setSched (h : Named k) {s : Sched} (hcur : s.current < k.pids)
    (hq : ∀ i, ∀ t ∈ s.allTask i, t < k.pids) (hnext : ∀ t, s.nextTask = some t → t < k.pids) :
    Named (k.setSched s) where
  current := hcur
  queued := hq
  next := hnext
  cont := h.cont
  objs := h.objs

/-- Linking a task that was created. -/
theorem mem_enqueueTask {s : Sched} {t u : TaskId} {i : ℕ} (h : u ∈ (s.enqueueTask t).allTask i) :
    u = t ∨ u ∈ s.allTask i := by
  simp only [Sched.enqueueTask] at h
  split at h
  · rcases List.mem_append.mp h with h | h
    · exact Or.inr h
    · exact Or.inl (List.mem_singleton.mp h)
  · exact Or.inr h

theorem mem_dequeueTask {s : Sched} {t u : TaskId} {i : ℕ} (h : u ∈ (s.dequeueTask t).allTask i) :
    u ∈ s.allTask i := by
  simp only [Sched.dequeueTask] at h
  split at h
  · next hi => exact hi ▸ List.mem_of_mem_erase h
  · exact h

/-- **A primitive names no task but those that were created.** -/
theorem named_primStep {k' : Kernel} {p : Prim} {rest : List Instr} (h : Named k)
    (hc : k.cont k.sched.current = .prim p :: rest) (hs : primStep k rest p = some k') :
    Named k' := by
  have hrest := h.rest hc
  have hgo := h.goOn hrest
  cases p with
  | enter | exit | irqExit | enableInts | state st | ready t =>
    obtain rfl := Option.some.inj hs
    exact ⟨h.current, h.queued, h.next, hgo.cont, h.objs⟩
  | tryToWakeUp t | taskSleepFunction t =>
    obtain rfl := Option.some.inj hs
    have ht : t < k.pids := h.instr hc t (List.mem_singleton.mpr rfl)
    refine ⟨h.current, h.queued, h.next, (h.goOn fun u hu => ?_).cont, h.objs⟩
    rcases List.mem_append.mp (tasksOf_append _ _ ▸ hu) with hu | hu
    · obtain rfl : u = t := by simpa [tasksOf, wakeTail, sleepTail, Instr.tasks] using hu
      exact ht
    · exact hrest u hu
  | enqueue t =>
    obtain rfl := Option.some.inj hs
    have ht : t < k.pids := h.instr hc t (List.mem_singleton.mpr rfl)
    refine hgo.setSched h.current (fun i u hu => ?_) h.next
    rcases mem_enqueueTask hu with rfl | hu
    · exact ht
    · exact h.queued i u hu
  -- the task that `next_task` gets is found on the list of the queue
  | dequeue =>
    obtain ⟨hq, hs⟩ := Option.ite_none_right_eq_some.mp hs
    obtain rfl := Option.some.inj hs
    have hnext : ∀ t, (k.sched.dequeueTask k.sched.current).nextTask = some t → t < k.pids :=
      fun t ht => h.queued _ t (Lists.mem_of_mem_around (Sched.findNextTask_eq_some ht).1)
    exact ⟨h.current, fun i u hu => h.queued i u (mem_dequeueTask hu), hnext, hgo.cont, h.objs⟩
  | schedule =>
    obtain ⟨-, hs⟩ := Option.ite_none_left_eq_some.mp hs
    obtain rfl := Option.some.inj hs
    obtain ⟨hcur, hnext⟩ := h.pickNextTask
    refine hgo.setSched hcur (fun i u hu => h.queued i u ?_) hnext
    unfold Sched.pickNextTask at hu
    split at hu <;> exact hu
  -- the new task has the next number
  | create p entry =>
    simp only [primStep] at hs
    split at hs
    · obtain rfl := Option.some.inj hs
      refine ⟨Nat.lt_succ_of_lt h.current, fun i u hu => ?_,
        fun u hu => Nat.lt_succ_of_lt (h.next u hu), fun u t ht => ?_,
        fun u hu => Nat.lt_succ_of_lt (h.objs u hu)⟩
      · rcases mem_enqueueTask hu with rfl | hu
        · exact Nat.lt_succ_self _
        · exact Nat.lt_succ_of_lt (h.queued i u hu)
      · simp only [set] at ht
        split at ht
        · cases entry <;> cases ht
        · exact Nat.lt_succ_of_lt (hgo.cont u t ht)
    · obtain rfl := Option.some.inj hs
      exact hgo

/-- **Every step names only tasks that were created.** -/
theorem named_step {k' : Kernel} {e : Event} (h : Named k) (hs : step k e = some k') :
    Named k' := by
  cases stepped hs with
  | prim hc hp => exact named_primStep h hc hp
  | @code path c rest body o' hc hspec =>
    have hobjs : ∀ t ∈ o'.tasks, t < k.pids := by
      intro t ht
      rcases hspec.tasks t ht with rfl | ht
      · exact h.current
      · exact h.objs t ht
    refine ⟨h.current, h.queued, h.next, (h.goOn fun t ht => ?_).cont, hobjs⟩
    rcases List.mem_append.mp (tasksOf_append _ _ ▸ ht) with ht | ht
    · exact h.objs t (hspec.named t ht)
    · exact h.rest hc t ht
  | user hc => exact h.goOn (h.rest hc)
  | @call a rest hc =>
    apply h.goOn
    intro t ht
    rw [tasksOf_append, (api_spec a).2.1, List.nil_append, tasksOf_cons] at ht
    exact h.rest hc t ht
  | @irq i body o' hspec =>
    have hobjs : ∀ t ∈ o'.tasks, t < k.pids := by
      intro t ht
      rcases hspec.tasks t ht with rfl | ht
      · exact h.current
      · exact h.objs t ht
    refine ⟨h.current, h.queued, h.next, (h.goOn fun t ht => ?_).cont, hobjs⟩
    rcases List.mem_append.mp (tasksOf_append _ _ ▸ ht) with ht | ht
    · exact h.objs t (hspec.named t ht)
    · exact h.cont k.sched.current t ht

end Named

end Machine

end YakOS
