import YakOS.Kernel.Sched
import YakOS.Kernel.Semaphore

/-!
# The kernel as a machine

The tasks of the kernel and the interrupts that break into them, as one transition
system.  Each task has the list of instructions that are left to it; the current task
runs the first of them, and a context switch only changes which task that is.  An
interrupt puts its handler in front of what is left to the task it breaks into.

An instruction is a primitive, which touches the run queues, the task states or
`critical_section_count`; a piece of kernel code between two of those, which works on
the objects of the kernel and says what comes next; or code of the caller, which may
call the kernel or come to its end.  The code of `kernel/task.c`, `semaphore.c`,
`wait_queue.c`, `completion.c`, `workqueue.c`, `timer.c`, of `arm_irq` and of `kmain`
is written in these, function by function.  Which of its paths the memory allocator
takes through its locks, and whether a timeout has run out, is left open.

A wait queue is kept as the pointers of its nodes: the code puts nodes on a queue
twice and follows nodes that have left it.  A step through a null pointer is not
enabled.

## Main definitions

* `Objects` — semaphores, wait queues, completions, workqueues and timers.
* `Prim`, `Call`, `Instr` — the instructions.
* `callStep`, `primStep`, `step` — their meaning.
* `kmainBoot` — the kernel when `kmain` has created the first task.
-/

namespace YakOS

namespace Machine

/-! ### Objects -/

/-- The completions: the two of each workqueue, and those of the callers. -/
inductive CompletionId
  | startup (wq : ℕ)
  | exit (wq : ℕ)
  | user (x : ℕ)
  deriving DecidableEq, Repr

/-- The wait queues. -/
inductive QueueId
  | completion (x : CompletionId)
  | moreWork (wq : ℕ)
  | workDone (wq : ℕ)
  deriving DecidableEq, Repr

/-- The semaphores: the locks of the memory allocator, of the wait queues and of the
workqueues, and those of the callers. -/
inductive SemId
  | slob
  | zone
  | queue (q : QueueId)
  | workqueue (wq : ℕ)
  | user (m : ℕ)
  deriving DecidableEq, Repr

/-- A node of a wait queue: its head, or a `wait_queue_t`, named by its number in the
order of their declarations. -/
inductive Node
  | head (q : QueueId)
  | entry (e : ℕ)
  deriving DecidableEq, Repr

/-- A timer: that of a sleeping task, or that of a delayed work. -/
inductive Timer
  | sleep (t : TaskId)
  | delayedWork (w : ℕ)
  deriving DecidableEq, Repr

/-- What the kernel code between two primitives works on. -/
structure Objects where
  sem : SemId → Semaphore
  /-- The `semaphore_waiter`s declared so far. -/
  waiters : List SemaphoreWaiter
  next : Node → Option Node
  prev : Node → Option Node
  /-- `private` of each `wait_queue_t` declared so far. -/
  owner : List TaskId
  done : CompletionId → ℕ
  insertSequence : ℕ → ℤ
  removeSequence : ℕ → ℤ
  worklist : ℕ → List ℕ
  /-- The field `task` of a workqueue. -/
  wqTask : ℕ → Option TaskId
  /-- The fields `pending` and `wq_data` of a work. -/
  pending : ℕ → Bool
  wqData : ℕ → ℕ
  timerList : List Timer

/-- Change a map at one place. -/
def set {α β : Type} [DecidableEq α] (f : α → β) (a : α) (b : β) : α → β :=
  fun x => if x = a then b else f x

namespace Objects

variable (o : Objects)

/-- `__list_add`. -/
def insert (new prev next : Node) : Objects :=
  { o with
    prev := set (set o.prev next (some new)) new (some prev)
    next := set (set o.next new (some next)) prev (some new) }

/-- `list_add`. -/
def listAdd (new head : Node) : Option Objects :=
  (o.next head).map fun n => o.insert new head n

/-- `list_add_tail`. -/
def listAddTail (new head : Node) : Option Objects :=
  (o.prev head).map fun p => o.insert new p head

/-- `__list_del`. -/
def unlink (prev next : Node) : Objects :=
  { o with prev := set o.prev next (some prev), next := set o.next prev (some next) }

/-- `list_del`; a node that is on no list has null pointers. -/
def listDel (entry : Node) : Option Objects :=
  match o.prev entry, o.next entry with
  | some p, some n =>
    let o' := o.unlink p n
    some { o' with prev := set o'.prev entry none, next := set o'.next entry none }
  | _, _ => none

/-- `list_del_init`. -/
def listDelInit (entry : Node) : Option Objects :=
  match o.prev entry, o.next entry with
  | some p, some n =>
    let o' := o.unlink p n
    some { o' with
      prev := set o'.prev entry (some entry)
      next := set o'.next entry (some entry) }
  | _, _ => none

/-- `init_waitqueue_head`. -/
def initWaitqueueHead (q : QueueId) : Objects :=
  { o with
    sem := set o.sem (.queue q) (semaInit 1)
    next := set o.next (.head q) (some (.head q))
    prev := set o.prev (.head q) (some (.head q)) }

/-- `init_completion`. -/
def initCompletion (x : CompletionId) : Objects :=
  Objects.initWaitqueueHead { o with done := set o.done x 0 } (.completion x)

/-- `DECLARE_WAITQUEUE(wait, current_task)`. -/
def declareWait (cur : TaskId) : Objects := { o with owner := o.owner ++ [cur] }

end Objects

/-! ### Instructions -/

/-- The function a task starts with. -/
inductive Entry
  | user
  | worker (wq : ℕ)
  deriving DecidableEq, Repr

/-- The primitives. -/
inductive Prim
  /-- `enter_critical_section`. -/
  | enter
  /-- `exit_critical_section`. -/
  | exit
  /-- The end of `arm_irq`. -/
  | irqExit
  /-- `arch_enable_ints`. -/
  | enableInts
  /-- `set_current_state`. -/
  | state (st : TaskState)
  /-- `set_task_state(waiter->task, READY)` in `__up`. -/
  | ready (t : TaskId)
  /-- `try_to_wake_up`, up to its critical section. -/
  | tryToWakeUp (t : TaskId)
  /-- `task_sleep_function`, up to its critical section. -/
  | taskSleepFunction (t : TaskId)
  /-- `scheduler->enqueue_task(t)`. -/
  | enqueue (t : TaskId)
  /-- `scheduler->dequeue_task(current_task)`. -/
  | dequeue
  /-- `task_schedule`. -/
  | schedule
  /-- `task_create` of a task that `task_alloc` has just made. -/
  | create (priority : ℕ) (entry : Entry)
  deriving DecidableEq, Repr

/-- The pieces of code that look at the objects. -/
inductive Call
  | kmalloc
  | kfree
  | downTry (m : SemId)
  | downCheck (w : ℕ)
  | upTry (m : SemId)
  | addSleepTimer
  | addDelayedTimer (w : ℕ)
  | scheduleTimeout
  | wakeCommon (q : QueueId)
  | wakeEach (q : QueueId) (curr : Node) (next : Option Node)
  | wakeNext (q : QueueId) (next : Option Node)
  | addDone (x : CompletionId) (n : ℕ)
  | doWait (x : CompletionId) (timed : Bool)
  | waitCheck (x : CompletionId) (e : ℕ) (timed : Bool)
  | waitEnd (x : CompletionId)
  | listAdd (q : QueueId) (e : ℕ)
  | listDel (e : ℕ)
  | finishTest (q : QueueId) (e : ℕ)
  | listDelInit (e : ℕ)
  | queueTest (wq w : ℕ)
  | queueDelayedTest (wq w : ℕ)
  | delayedWorkTimerFn (w : ℕ)
  | addWork (wq w : ℕ)
  | runLoop (wq : ℕ)
  | clearPending (w : ℕ)
  | workDone (wq : ℕ)
  | workerThread (wq : ℕ)
  | workerTest (wq e : ℕ)
  | workerRun (wq e : ℕ)
  | flush (wq : ℕ)
  | flushStart (wq e : ℕ)
  | flushLoop (wq e : ℕ) (needed : ℤ)
  | initWorkqueue (wq : ℕ)
  | cleanup (wq : ℕ)
  | idle
  deriving DecidableEq, Repr

/-- An instruction. -/
inductive Instr
  | prim (p : Prim)
  | call (c : Call)
  /-- Code of the caller: the body of a task or of a work. -/
  | user
  deriving DecidableEq, Repr

/-! ### The code -/

/-- `enter_critical_section`. -/
abbrev enterCriticalSection : Instr := .prim .enter

/-- `exit_critical_section`. -/
abbrev exitCriticalSection : Instr := .prim .exit

/-- `task_schedule`. -/
abbrev taskSchedule : Instr := .prim .schedule

/-- `set_current_state`. -/
abbrev setCurrentState (st : TaskState) : Instr := .prim (.state st)

/-- `down`. -/
def down (m : SemId) : List Instr :=
  [enterCriticalSection, .call (.downTry m), exitCriticalSection]

/-- One turn of the loop of `__down`. -/
def downLoop (w : ℕ) : List Instr :=
  [setCurrentState .blocked, enterCriticalSection, taskSchedule, exitCriticalSection,
    .call (.downCheck w)]

/-- `up`. -/
def up (m : SemId) : List Instr :=
  [enterCriticalSection, .call (.upTry m), exitCriticalSection]

/-- `timer_add`. -/
def timerAdd (add : Call) : List Instr :=
  [enterCriticalSection, .call add, exitCriticalSection]

/-- `task_sleep`. -/
def taskSleep : List Instr :=
  [.call .kmalloc, enterCriticalSection] ++ timerAdd .addSleepTimer ++
    [setCurrentState .sleeping, .prim .dequeue, taskSchedule, exitCriticalSection]

/-- `task_exit`. -/
def taskExit : List Instr :=
  [enterCriticalSection, setCurrentState .exited, .prim .dequeue, taskSchedule]

/-- `try_to_wake_up`, from its critical section on. -/
def wakeTail (t : TaskId) : List Instr :=
  [enterCriticalSection, .prim (.enqueue t), taskSchedule, exitCriticalSection]

/-- `task_sleep_function`, from its critical section on. -/
def sleepTail (t : TaskId) : List Instr :=
  [enterCriticalSection, .prim (.enqueue t), .call .kfree, exitCriticalSection]

/-- `schedule_timeout(MAX_SCHEDULE_TIMEOUT)`. -/
def scheduleTimeoutMax : List Instr :=
  [setCurrentState .sleeping, .prim .dequeue, taskSchedule]

/-- `__wake_up`. -/
def wakeUp (q : QueueId) : List Instr :=
  down (.queue q) ++ [.call (.wakeCommon q)] ++ up (.queue q)

/-- `complete`. -/
def complete (x : CompletionId) : List Instr :=
  [.call (.addDone x 1), .call (.wakeCommon (.completion x))]

/-- `complete_all`, which adds `UINT_MAX/2`. -/
def completeAll (x : CompletionId) : List Instr :=
  [.call (.addDone x ((2 ^ 32 - 1) / 2)), .call (.wakeCommon (.completion x))]

/-- `wait_for_common`, with a timeout or without. -/
def waitForCommon (x : CompletionId) (timed : Bool) : List Instr :=
  down (.queue (.completion x)) ++ [.call (.doWait x timed)] ++ up (.queue (.completion x))

/-- One turn of the loop of `do_wait_for_common`. -/
def waitLoop (x : CompletionId) (e : ℕ) (timed : Bool) : List Instr :=
  setCurrentState .sleeping ::
    (if timed then [.call .scheduleTimeout] else scheduleTimeoutMax) ++
    [.call (.waitCheck x e timed)]

/-- `add_wait_queue`. -/
def addWaitQueue (q : QueueId) (e : ℕ) : List Instr :=
  down (.queue q) ++ [.call (.listAdd q e)] ++ up (.queue q)

/-- `remove_wait_queue`. -/
def removeWaitQueue (e : ℕ) : List Instr := [.call (.listDel e)]

/-- `finish_wait`. -/
def finishWait (q : QueueId) (e : ℕ) : List Instr :=
  [setCurrentState .running, .call (.finishTest q e)]

/-- The common part of `queue_work` and `delayed_work_timer_fn`. -/
def insertWork (wq w : ℕ) : List Instr :=
  down (.workqueue wq) ++ [.call (.addWork wq w)] ++ wakeUp (.moreWork wq) ++ up (.workqueue wq)

/-- `run_workqueue`. -/
def runWorkqueue (wq : ℕ) : List Instr := down (.workqueue wq) ++ [.call (.runLoop wq)]

/-- One turn of the loop of `worker_thread`. -/
def workerLoop (wq e : ℕ) : List Instr :=
  addWaitQueue (.moreWork wq) e ++ [.call (.workerTest wq e)]

/-- `task_alloc` and `task_create`. -/
def taskCreate (priority : ℕ) (entry : Entry) : List Instr :=
  [.call .kmalloc, .call .kmalloc, .prim (.create priority entry)]

/-- `create_workqueue`. -/
def createWorkqueue (wq : ℕ) : List Instr :=
  [.call .kmalloc, .call (.initWorkqueue wq)] ++ taskCreate 1 (.worker wq) ++
    waitForCommon (.startup wq) false

/-- `destroy_workqueue`. -/
def destroyWorkqueue (wq : ℕ) : List Instr :=
  [.call (.flush wq), .call (.cleanup wq), .call .kfree]

/-- The function a task was created with. -/
def Entry.body : Entry → List Instr
  | user => [.user]
  | worker wq => [.call (.workerThread wq)]

/-- `initial_task_func`. -/
def initialTaskFunc (entry : Entry) : List Instr :=
  exitCriticalSection :: entry.body ++ taskExit

/-- `kmain` after `task_create_init`. -/
def kmain : List Instr :=
  createWorkqueue 0 ++ taskCreate 5 .user ++ [.prim .enableInts, .call .idle]

/-- What a task or a work may call. -/
inductive Api
  | taskSleep
  | taskExit
  | taskCreate (priority : ℕ)
  | down (m : ℕ)
  | up (m : ℕ)
  | wakeUp (q : QueueId)
  | complete (x : CompletionId)
  | completeAll (x : CompletionId)
  | waitForCompletion (x : CompletionId)
  | waitForCompletionTimeout (x : CompletionId)
  | queueWork (wq w : ℕ)
  | queueDelayedWork (wq w : ℕ)
  | flushWorkqueue (wq : ℕ)
  | createWorkqueue (wq : ℕ)
  | destroyWorkqueue (wq : ℕ)
  deriving DecidableEq, Repr

/-- The code of a call. -/
def Api.body : Api → List Instr
  | taskSleep => Machine.taskSleep
  | taskExit => Machine.taskExit
  | taskCreate p => Machine.taskCreate p .user
  | down m => Machine.down (.user m)
  | up m => Machine.up (.user m)
  | wakeUp q => Machine.wakeUp q
  | complete x => Machine.complete x
  | completeAll x => Machine.completeAll x
  | waitForCompletion x => waitForCommon x false
  | waitForCompletionTimeout x => waitForCommon x true
  | queueWork wq w => [.call (.queueTest wq w)]
  | queueDelayedWork wq w => [.call (.queueDelayedTest wq w)]
  | flushWorkqueue wq => [.call (.flush wq)]
  | createWorkqueue wq => Machine.createWorkqueue wq
  | destroyWorkqueue wq => Machine.destroyWorkqueue wq

/-! ### Meaning -/

/-- A piece of code of the task `cur`: the objects after it and the instructions that
come next.  `path` is the branch taken where the model leaves it open. -/
def callStep (o : Objects) (cur : TaskId) (path : ℕ) : Call → Option (Objects × List Instr)
  | .kmalloc =>
    -- a block from a list, a block from a new page, or pages
    some (o, match path with
      | 0 => down .slob ++ up .slob
      | 1 => down .slob ++ up .slob ++ down .zone ++ up .zone ++ down .slob ++ up .slob
      | _ => down .zone ++ up .zone)
  | .kfree =>
    -- to the list of the page, with the page to the allocator, or pages
    some (o, match path with
      | 0 => down .slob ++ up .slob
      | 1 => down .slob ++ up .slob ++ down .zone ++ up .zone
      | _ => down .zone ++ up .zone)
  | .downTry m =>
    let s := o.sem m
    if 0 < s.count then some ({ o with sem := set o.sem m { s with count := s.count - 1 } }, [])
    else
      let w := o.waiters.length
      some ({ o with
        sem := set o.sem m { s with waitList := s.waitList ++ [w] }
        waiters := o.waiters ++ [{ task := cur, up := false }] }, downLoop w)
  | .downCheck w =>
    some (o, if (o.waiters[w]?).any SemaphoreWaiter.up then [] else downLoop w)
  | .upTry m =>
    let s := o.sem m
    match s.waitList with
    | [] => some ({ o with sem := set o.sem m { s with count := (s.count + 1) % 2 ^ 32 } }, [])
    | w :: ws =>
      some ({ o with
        sem := set o.sem m { s with waitList := ws }
        waiters := o.waiters.modify w fun x => { x with up := true } },
        (o.waiters[w]?).toList.map fun x => .prim (.ready x.task))
  | .addSleepTimer => some ({ o with timerList := o.timerList ++ [.sleep cur] }, [])
  | .addDelayedTimer w => some ({ o with timerList := o.timerList ++ [.delayedWork w] }, [])
  | .scheduleTimeout =>
    -- `task_sleep`, unless the timeout is negative
    some (o, if path = 0 then taskSleep else [setCurrentState .running])
  | .wakeCommon q =>
    (o.next (.head q)).map fun curr => (o, [.call (.wakeEach q curr (o.next curr))])
  | .wakeEach q curr next =>
    match curr with
    | .head q' => if q' = q then some (o, []) else none
    | .entry e =>
      -- `try_to_wake_up` returns 0, so the loop never breaks off
      (o.owner[e]?).map fun t => (o, [.prim (.tryToWakeUp t), .call (.wakeNext q next)])
  | .wakeNext q next => next.map fun n => (o, [.call (.wakeEach q n (o.next n))])
  | .addDone x n => some ({ o with done := set o.done x ((o.done x + n) % 2 ^ 32) }, [])
  | .doWait x timed =>
    if o.done x = 0 then
      let e := o.owner.length
      ((o.declareWait cur).listAddTail (.entry e) (.head (.completion x))).map fun o' =>
        (o', waitLoop x e timed)
    else some (o, [.call (.waitEnd x)])
  | .waitCheck x e timed =>
    if o.done x = 0 ∧ (timed = false ∨ path = 0) then some (o, waitLoop x e timed)
    else (o.listDel (.entry e)).map fun o' => (o', [.call (.waitEnd x)])
  | .waitEnd x => some ({ o with done := set o.done x (o.done x - 1) }, [])
  | .listAdd q e => (o.listAdd (.entry e) (.head q)).map fun o' => (o', [])
  | .listDel e => (o.listDel (.entry e)).map fun o' => (o', [])
  | .finishTest q e =>
    if o.next (.entry e) = some (.entry e) ∧ o.prev (.entry e) = some (.entry e) then some (o, [])
    else some (o, down (.queue q) ++ [.call (.listDelInit e)] ++ up (.queue q))
  | .listDelInit e => (o.listDelInit (.entry e)).map fun o' => (o', [])
  | .queueTest wq w =>
    if o.pending w then some (o, [])
    else
      some ({ o with pending := set o.pending w true, wqData := set o.wqData w wq },
        insertWork wq w)
  | .queueDelayedTest wq w =>
    if o.pending w then some (o, [])
    else
      some ({ o with pending := set o.pending w true, wqData := set o.wqData w wq },
        timerAdd (.addDelayedTimer w))
  | .delayedWorkTimerFn w => some (o, insertWork (o.wqData w) w)
  | .addWork wq w =>
    some ({ o with
      worklist := set o.worklist wq (o.worklist wq ++ [w])
      insertSequence := set o.insertSequence wq (o.insertSequence wq + 1) }, [])
  | .runLoop wq =>
    match o.worklist wq with
    | [] => some (o, up (.workqueue wq))
    | w :: ws =>
      some ({ o with worklist := set o.worklist wq ws },
        up (.workqueue wq) ++ [.call (.clearPending w), .user] ++ down (.workqueue wq) ++
          [.call (.workDone wq)] ++ wakeUp (.workDone wq) ++ [.call (.runLoop wq)])
  | .clearPending w => some ({ o with pending := set o.pending w false }, [])
  | .workDone wq =>
    some ({ o with removeSequence := set o.removeSequence wq (o.removeSequence wq + 1) }, [])
  | .workerThread wq =>
    let e := o.owner.length
    some ({ o.declareWait cur with wqTask := set o.wqTask wq (some cur) },
      complete (.startup wq) ++ workerLoop wq e)
  | .workerTest wq e =>
    match o.wqTask wq with
    | none => some (o, removeWaitQueue e ++ complete (.exit wq))
    | some _ =>
      some (o, (if o.worklist wq = [] then scheduleTimeoutMax else []) ++ removeWaitQueue e ++
        [.call (.workerRun wq e)])
  | .workerRun wq e =>
    some (o, (if o.worklist wq = [] then [] else runWorkqueue wq) ++ workerLoop wq e)
  | .flush wq =>
    let e := o.owner.length
    some (o.declareWait cur, down (.workqueue wq) ++ [.call (.flushStart wq e)])
  | .flushStart wq e => some (o, [.call (.flushLoop wq e (o.insertSequence wq))])
  | .flushLoop wq e needed =>
    if 0 < needed - o.removeSequence wq then
      some (o, addWaitQueue (.workDone wq) e ++ up (.workqueue wq) ++ scheduleTimeoutMax ++
        down (.workqueue wq) ++ [.call (.flushLoop wq e needed)])
    else some (o, finishWait (.workDone wq) e ++ up (.workqueue wq))
  | .initWorkqueue wq =>
    let o₁ : Objects := { o with
      sem := set o.sem (.workqueue wq) (semaInit 1)
      wqTask := set o.wqTask wq none
      insertSequence := set o.insertSequence wq 0
      removeSequence := set o.removeSequence wq 0
      worklist := set o.worklist wq [] }
    some ((((o₁.initWaitqueueHead (.moreWork wq)).initWaitqueueHead (.workDone wq)).initCompletion
      (.exit wq)).initCompletion (.startup wq), [])
  | .cleanup wq =>
    match o.wqTask wq with
    | none => some (o, [])
    | some _ =>
      some ({ o with wqTask := set o.wqTask wq none },
        wakeUp (.moreWork wq) ++ waitForCommon (.exit wq) false)
  | .idle =>
    some (o, [enterCriticalSection, taskSchedule, exitCriticalSection, .call .idle])

/-- The kernel.  The last field is not in the code: the number of critical sections and
interrupts each task is in. -/
structure Kernel where
  sched : Sched
  /-- `critical_section_count`. -/
  criticalSectionCount : ℤ
  /-- The processor takes interrupts. -/
  ints : Bool
  /-- What is left to each task. -/
  cont : TaskId → List Instr
  objs : Objects
  /-- The number of tasks created so far. -/
  pids : ℕ
  depth : TaskId → ℕ

namespace Kernel

variable (k : Kernel)

/-- The current task has `l` left. -/
def goOn (l : List Instr) : Kernel := { k with cont := set k.cont k.sched.current l }

/-- The current task enters a critical section or an interrupt. -/
def inner : Kernel := { k with
  criticalSectionCount := k.criticalSectionCount + 1
  depth := set k.depth k.sched.current (k.depth k.sched.current + 1) }

/-- The current task leaves a critical section or an interrupt. -/
def outer : Kernel := { k with
  criticalSectionCount := k.criticalSectionCount - 1
  depth := set k.depth k.sched.current (k.depth k.sched.current - 1) }

/-- Change the interrupt flag. -/
def setInts (b : Bool) : Kernel := { k with ints := b }

/-- Change the run queues or the task states. -/
def setSched (s : Sched) : Kernel := { k with sched := s }

end Kernel

/-- `pick_next_task` would go around from the node of the current task, and that node is
on no list. -/
def walksUnlinked (s : Sched) : Prop :=
  s.asleep = false ∧ ¬ s.Queued s.current ∧
    Bitops.testBit (s.priority s.current) s.bitmap = true ∧
    ∀ i < s.priority s.current, s.slot i = none

instance (s : Sched) : Decidable (walksUnlinked s) := inferInstanceAs (Decidable (_ ∧ _ ∧ _ ∧ _))

/-- The current task runs a primitive; `rest` is left to it then. -/
def primStep (k : Kernel) (rest : List Instr) : Prim → Option Kernel
  | .enter =>
    some (((k.goOn rest).setInts (if k.criticalSectionCount = 0 then false else k.ints)).inner)
  | .exit =>
    some (((k.goOn rest).setInts (if k.criticalSectionCount - 1 = 0 then true else k.ints)).outer)
  -- an interrupt was taken, so the flag it restores is set
  | .irqExit => some (((k.goOn rest).setInts true).outer)
  | .enableInts => some ((k.goOn rest).setInts true)
  | .state st => some ((k.goOn rest).setSched (k.sched.setTaskState k.sched.current st))
  | .ready t => some ((k.goOn rest).setSched (k.sched.setTaskState t .ready))
  | .tryToWakeUp t =>
    some ((k.goOn (wakeTail t ++ rest)).setSched (k.sched.setTaskState t .ready))
  | .taskSleepFunction t =>
    some ((k.goOn (sleepTail t ++ rest)).setSched (k.sched.setTaskState t .ready))
  | .enqueue t => some ((k.goOn rest).setSched (k.sched.enqueueTask t))
  | .dequeue =>
    -- the node of a task that is not queued has null pointers
    if k.sched.Queued k.sched.current then
      some ((k.goOn rest).setSched (k.sched.dequeueTask k.sched.current))
    else none
  | .schedule =>
    if walksUnlinked k.sched then none
    else some ((k.goOn rest).setSched k.sched.pickNextTask.1)
  | .create p entry =>
    if p < maxPriority then
      let t := k.pids
      let s : Sched := { k.sched with
        priority := fun u => if u = t then p else k.sched.priority u }
      let k' := (k.goOn rest).setSched ((s.setTaskState t .creating).enqueueTask t)
      some { k' with
        cont := set k'.cont t (initialTaskFunc entry)
        depth := set k'.depth t 1
        pids := k.pids + 1 }
    else some (k.goOn rest)

/-- An interrupt: a device, which may ask for a new pick, or a timer that has expired. -/
inductive Irq
  | device (reschedule : Bool)
  | timer (tm : Timer)
  deriving DecidableEq, Repr

/-- `platform_irq` and what `arm_irq` does with its result. -/
def platformIrq (o : Objects) : Irq → Option (Objects × List Instr)
  | .device reschedule => some (o, if reschedule then [taskSchedule] else [])
  | .timer tm =>
    if tm ∈ o.timerList then
      let fire := match tm with
        | .sleep t => .prim (.taskSleepFunction t)
        | .delayedWork w => .call (.delayedWorkTimerFn w)
      some ({ o with timerList := o.timerList.erase tm }, [fire, taskSchedule])
    else none

/-- What can happen next: the current task goes on, code of the caller calls the kernel,
or an interrupt comes. -/
inductive Event
  | run (path : ℕ)
  | call (a : Api)
  | irq (i : Irq)
  deriving DecidableEq, Repr

/-- One step of the kernel. -/
def step (k : Kernel) : Event → Option Kernel
  | .run path =>
    match k.cont k.sched.current with
    | [] => none
    | .prim p :: rest => primStep k rest p
    | .call c :: rest =>
      (callStep k.objs k.sched.current path c).map fun r =>
        ({ k with objs := r.1 } : Kernel).goOn (r.2 ++ rest)
    | .user :: rest => some (k.goOn rest)
  | .call a =>
    match k.cont k.sched.current with
    | .user :: rest => some (k.goOn (a.body ++ .user :: rest))
    | _ => none
  | .irq i =>
    if k.ints then
      (platformIrq k.objs i).map fun r =>
        ((({ k with objs := r.1 } : Kernel).goOn
          (r.2 ++ .prim .irqExit :: k.cont k.sched.current)).setInts false).inner
    else none

/-- No object is set up but the locks of the memory allocator and the completions and
semaphores of the callers. -/
def bootObjects : Objects where
  sem := fun _ => semaInit 1
  waiters := []
  next := fun x => match x with
    | .head (.completion (.user c)) => some (.head (.completion (.user c)))
    | _ => none
  prev := fun x => match x with
    | .head (.completion (.user c)) => some (.head (.completion (.user c)))
    | _ => none
  owner := []
  done := fun _ => 0
  insertSequence := fun _ => 0
  removeSequence := fun _ => 0
  worklist := fun _ => []
  wqTask := fun _ => none
  pending := fun _ => false
  wqData := fun _ => 0
  timerList := []

/-- The kernel when `kmain` has returned from `task_create_init`, whose calls of `kmalloc`
have enabled the interrupts. -/
def kmainBoot : Kernel where
  sched := schedBoot
  criticalSectionCount := 0
  ints := true
  cont := fun t => if t = 0 then kmain else []
  objs := bootObjects
  pids := 1
  depth := fun _ => 0

end Machine

end YakOS
