import YakOS.Kernel.Frame

/-!
# Wake-ups and the run queues

`try_to_wake_up` and the function of a sleep timer make a task `READY` and put it on its
run queue, without a look at whether it is there already.  A task that waits takes itself
off the run queue, but it stays on its wait queue until it runs again; whoever wakes the
queue a second time before that enqueues the task a second time.

## Main definitions

* `Sleeper` — a task that is on no run queue and that nobody is about to put on one.
* `WakesSleeper` — if the step begins a wake-up, it is the wake-up of a sleeper.
* `Wakeups` — the wake-ups under way are of tasks that are on no run queue.
* `LinkedOnce`, `EnqueuesUnlinked` — every task is linked at most once, and a task that is
  about to be linked is not.

## Main results

* `linked_once_of_wakes_sleepers` — in a run that wakes only sleepers every task is
  linked at most once.
-/

namespace YakOS

namespace Machine

/-- The task a step of the current task begins to wake. -/
def Instr.wakes : Instr → Option TaskId
  | .prim (.tryToWakeUp t) => some t
  | .prim (.taskSleepFunction t) => some t
  | _ => none

/-- The task is on no run queue, and no wake-up of it is under way. -/
def Sleeper (k : Kernel) (t : TaskId) : Prop :=
  ¬ k.sched.Queued t ∧ ∀ u < k.pids, t ∉ woken (k.cont u)

instance (k : Kernel) (t : TaskId) : Decidable (Sleeper k t) :=
  inferInstanceAs (Decidable (_ ∧ _))

/-- If the step begins a wake-up, it is the wake-up of a sleeper. -/
def WakesSleeper (k : Kernel) : Event → Prop
  | .run _ => ∀ t ∈ (k.cont k.sched.current).head?.bind Instr.wakes, Sleeper k t
  | _ => True

instance (k : Kernel) : ∀ e, Decidable (WakesSleeper k e)
  | .run _ =>
    inferInstanceAs (Decidable (∀ t ∈ (k.cont k.sched.current).head?.bind Instr.wakes, _))
  | .call _ => isTrue trivial
  | .irq _ => isTrue trivial

/-- Every task is linked in the run queues at most once. -/
def LinkedOnce (k : Kernel) : Prop := ((List.range maxPriority).flatMap k.sched.allTask).Nodup

instance (k : Kernel) : Decidable (LinkedOnce k) := inferInstanceAs (Decidable (List.Nodup _))

/-- The task the next instruction of the current task links. -/
def enqueues (k : Kernel) : Option TaskId :=
  match (k.cont k.sched.current).head? with
  | some (.prim (.enqueue t)) => some t
  | some (.prim (.create p _)) => if p < maxPriority then some k.pids else none
  | _ => none

/-- A task that is about to be linked is not. -/
def EnqueuesUnlinked (k : Kernel) : Prop := ∀ t ∈ enqueues k, ∀ i, t ∉ k.sched.allTask i

/-- The wake-ups under way: each is of a task that is on no run queue, and there is one
for each task at most. -/
structure Wakeups (k : Kernel) : Prop where
  queues : QueuesWf k.sched
  unborn : ∀ u, k.pids ≤ u → woken (k.cont u) = []
  pending : ∀ u, ∀ t ∈ woken (k.cont u), ¬ k.sched.Queued t
  once : ∀ u, (woken (k.cont u)).Nodup
  sole : ∀ t u u', t ∈ woken (k.cont u) → t ∈ woken (k.cont u') → u = u'

theorem wakeups_kmainBoot : Wakeups kmainBoot := by
  have hnone : ∀ u, woken (kmainBoot.cont u) = [] := by
    intro u
    simp only [kmainBoot]
    split
    · rfl
    · rfl
  refine ⟨schedWf_boot.toQueuesWf, fun u _ => hnone u, fun u t ht => ?_, fun u => ?_,
    fun t u u' ht => ?_⟩
  · rw [hnone] at ht
    cases ht
  · rw [hnone]
    exact List.nodup_nil
  · rw [hnone] at ht
    cases ht

section Steps

variable {k k' : Kernel}

/-- A task that is going to be enqueued is named. -/
theorem mem_tasksOf_of_mem_woken {l : List Instr} {t : TaskId} (h : t ∈ woken l) :
    t ∈ tasksOf l := by
  obtain ⟨i, hi, hw⟩ := List.mem_filterMap.mp h
  refine List.mem_flatMap.mpr ⟨i, hi, ?_⟩
  cases i with
  | prim p =>
    cases p with
    | enqueue u =>
      obtain rfl := Option.some.inj hw
      exact List.mem_singleton.mpr rfl
    | _ => cases hw
  | call c => cases hw
  | user => cases hw

/-- A step that neither begins nor ends a wake-up and links no task. -/
theorem Wakeups.of_same (h : Wakeups k) (hs : QueuesWf k'.sched)
    (hq : ∀ t, k'.sched.Queued t → k.sched.Queued t)
    (hw : ∀ u, woken (k'.cont u) = woken (k.cont u)) (hpids : k'.pids = k.pids) :
    Wakeups k' where
  queues := hs
  unborn u hu := (hw u).trans (h.unborn u (hpids ▸ hu))
  pending u t ht hqt := h.pending u t (hw u ▸ ht) (hq t hqt)
  once u := (hw u).symm ▸ h.once u
  sole t u u' ht ht' := h.sole t u u' (hw u ▸ ht) (hw u' ▸ ht')

/-- What the tasks are going to enqueue when the current task goes on. -/
theorem woken_set {l : List Instr} (hcont : k'.cont = set k.cont k.sched.current l) (u : TaskId) :
    woken (k'.cont u) = if u = k.sched.current then woken l else woken (k.cont u) := by
  rw [hcont]
  by_cases hu : u = k.sched.current
  · simp [set, hu]
  · simp [set, hu]

/-- The current task goes on without a wake-up. -/
theorem woken_goOn {l : List Instr} (hcont : k'.cont = set k.cont k.sched.current l)
    (hl : woken l = woken (k.cont k.sched.current)) (u : TaskId) :
    woken (k'.cont u) = woken (k.cont u) := by
  rw [woken_set hcont]
  split
  · next hu => rw [hl, hu]
  · rfl

/-- The wake-up of a sleeper begins. -/
theorem Wakeups.begin (h : Wakeups k) (hn : Named k) {t : TaskId} {l : List Instr}
    (ht : Sleeper k t) (hs : QueuesWf k'.sched) (hq : ∀ u, k'.sched.Queued u ↔ k.sched.Queued u)
    (hcont : k'.cont = set k.cont k.sched.current l)
    (hl : woken l = t :: woken (k.cont k.sched.current)) (hpids : k'.pids = k.pids) :
    Wakeups k' := by
  have hnone : ∀ u, t ∉ woken (k.cont u) := by
    intro u hu
    by_cases hlt : u < k.pids
    · exact ht.2 u hlt hu
    · rw [h.unborn u (not_lt.mp hlt)] at hu
      cases hu
  -- the wake-ups under way are the old ones and that of `t`, which the current task has
  have hmem : ∀ u v, v ∈ woken (k'.cont u) →
      (v = t ∧ u = k.sched.current) ∨ (v ≠ t ∧ v ∈ woken (k.cont u)) := by
    intro u v hv
    rw [woken_set hcont] at hv
    have hne : v ∈ woken (k.cont u) → v ≠ t := fun hv e => hnone u (e ▸ hv)
    split at hv
    · next hu =>
      subst hu
      rw [hl] at hv
      rcases List.mem_cons.mp hv with rfl | hv
      · exact Or.inl ⟨rfl, rfl⟩
      · exact Or.inr ⟨hne hv, hv⟩
    · exact Or.inr ⟨hne hv, hv⟩
  refine ⟨hs, ?_, ?_, ?_, ?_⟩
  · intro u hu
    have hcur : u ≠ k.sched.current := fun e =>
      absurd hn.current (not_lt.mpr (e ▸ hpids ▸ hu))
    rw [woken_set hcont, if_neg hcur]
    exact h.unborn u (hpids ▸ hu)
  · intro u v hv
    rw [hq]
    rcases hmem u v hv with ⟨rfl, -⟩ | ⟨-, hv⟩
    · exact ht.1
    · exact h.pending u v hv
  · intro u
    rw [woken_set hcont]
    split
    · rw [hl]
      exact List.nodup_cons.mpr ⟨hnone _, h.once _⟩
    · exact h.once u
  · intro v u u' hv hv'
    rcases hmem u v hv with ⟨rfl, hu⟩ | ⟨hne, hu⟩
    · rcases hmem u' v hv' with ⟨-, hu'⟩ | ⟨hne, -⟩
      · rw [hu, hu']
      · exact absurd rfl hne
    · rcases hmem u' v hv' with ⟨rfl, -⟩ | ⟨-, hu'⟩
      · exact absurd rfl hne
      · exact h.sole v u u' hu hu'

/-- The wake-up of a task ends: it is linked. -/
theorem Wakeups.finish (h : Wakeups k) {t : TaskId} {l : List Instr}
    (hc : woken (k.cont k.sched.current) = t :: woken l)
    (hs : k'.sched = k.sched.enqueueTask t) (hcont : k'.cont = set k.cont k.sched.current l)
    (hpids : k'.pids = k.pids) : Wakeups k' := by
  have ht : t ∈ woken (k.cont k.sched.current) := hc ▸ List.mem_cons_self
  have honce := List.nodup_cons.mp (hc ▸ h.once k.sched.current)
  -- no other wake-up of `t` is under way
  have hmem : ∀ u v, v ∈ woken (k'.cont u) → v ≠ t ∧ v ∈ woken (k.cont u) := by
    intro u v hv
    rw [woken_set hcont] at hv
    split at hv
    · next hu =>
      subst hu
      exact ⟨fun e => honce.1 (e ▸ hv), hc ▸ List.mem_cons_of_mem t hv⟩
    · next hu => exact ⟨fun e => hu (h.sole t u _ (e ▸ hv) ht), hv⟩
  refine ⟨?_, ?_, ?_, ?_, ?_⟩
  · rw [hs]
    exact h.queues.enqueueTask (h.pending _ t ht)
  · intro u hu
    apply List.eq_nil_iff_forall_not_mem.mpr
    intro v hv
    have := (hmem u v hv).2
    rw [h.unborn u (hpids ▸ hu)] at this
    cases this
  · intro u v hv
    obtain ⟨hne, hv⟩ := hmem u v hv
    rw [hs, Sched.queued_enqueueTask_of_ne hne]
    exact h.pending u v hv
  · intro u
    rw [woken_set hcont]
    split
    · exact honce.2
    · exact h.once u
  · intro v u u' hv hv'
    exact h.sole v u u' (hmem u v hv).2 (hmem u' v hv').2

/-- A task that was not created is linked nowhere. -/
theorem Named.not_queued (h : Named k) : ¬ k.sched.Queued k.pids := fun hq =>
  absurd (h.queued _ _ hq) (Nat.lt_irrefl _)

/-- A new task is linked. -/
theorem Wakeups.create (h : Wakeups k) (hn : Named k) {p : ℕ} {s : Sched}
    (hs : s = { k.sched with
      priority := fun u => if u = k.pids then p else k.sched.priority u })
    (hsched : k'.sched = (s.setTaskState k.pids .creating).enqueueTask k.pids)
    (hw : ∀ u, woken (k'.cont u) = woken (k.cont u)) (hpids : k'.pids = k.pids + 1) :
    Wakeups k' := by
  obtain ⟨hwf, hq⟩ := h.queues.setPriority hn.not_queued p
  rw [← hs] at hwf hq
  have hnot : ¬ (s.setTaskState k.pids .creating).Queued k.pids := fun hqt =>
    hn.not_queued ((hq _).mp hqt)
  refine ⟨?_, ?_, ?_, ?_, ?_⟩
  · rw [hsched]
    exact (hwf.setTaskState k.pids .creating).enqueueTask hnot
  · intro u hu
    rw [hw]
    exact h.unborn u (by omega)
  · intro u t ht
    rw [hw] at ht
    have hlt : t < k.pids := hn.cont u t (mem_tasksOf_of_mem_woken ht)
    rw [hsched, Sched.queued_enqueueTask_of_ne (Nat.ne_of_lt hlt), Sched.queued_setTaskState, hq]
    exact h.pending u t ht
  · intro u
    rw [hw]
    exact h.once u
  · intro t u u' ht ht'
    rw [hw] at ht ht'
    exact h.sole t u u' ht ht'

theorem woken_initialTaskFunc (entry : Entry) : woken (initialTaskFunc entry) = [] := by
  cases entry <;> rfl

theorem wakeups_primStep {path : ℕ} {p : Prim} {rest : List Instr} (h : Wakeups k) (hn : Named k)
    (hc : k.cont k.sched.current = .prim p :: rest) (hguard : WakesSleeper k (.run path))
    (hs : primStep k rest p = some k') : Wakeups k' := by
  simp only [WakesSleeper, hc, List.head?_cons, Option.bind_some] at hguard
  have hgo : Instr.woken (.prim p) = none → woken rest = woken (k.cont k.sched.current) := by
    intro hp
    rw [hc]
    exact (List.filterMap_cons_none hp).symm
  cases p with
  | enter | exit | irqExit | enableInts =>
    obtain rfl := Option.some.inj hs
    exact h.of_same h.queues (fun _ hq => hq) (woken_goOn rfl (hgo rfl)) rfl
  | state st | ready t =>
    obtain rfl := Option.some.inj hs
    exact h.of_same (h.queues.setTaskState _ _) (fun _ hq => hq)
      (woken_goOn rfl (hgo rfl)) rfl
  -- a wake-up begins: the task is runnable, and will be put on its queue
  | tryToWakeUp t | taskSleepFunction t =>
    obtain rfl := Option.some.inj hs
    refine h.begin hn (hguard t rfl) (h.queues.setTaskState _ _) (fun _ => Iff.rfl) rfl ?_ rfl
    rw [hc, woken_append]
    rfl
  -- and ends
  | enqueue t =>
    obtain rfl := Option.some.inj hs
    refine h.finish ?_ rfl rfl rfl
    rw [hc]
    rfl
  | dequeue =>
    obtain ⟨hq, hs⟩ := Option.ite_none_right_eq_some.mp hs
    obtain rfl := Option.some.inj hs
    exact h.of_same (h.queues.dequeueTask hq)
      (fun _ hqt => (h.queues.queued_dequeueTask.mp hqt).1)
      (woken_goOn rfl (hgo rfl)) rfl
  | schedule =>
    obtain ⟨-, hs⟩ := Option.ite_none_left_eq_some.mp hs
    obtain rfl := Option.some.inj hs
    exact h.of_same h.queues.pickNextTask (fun _ hqt => Sched.queued_pickNextTask.mp hqt)
      (woken_goOn rfl (hgo rfl)) rfl
  | create p entry =>
    have hrest := hgo rfl
    simp only [primStep] at hs
    split at hs
    · obtain rfl := Option.some.inj hs
      refine h.create hn (p := p) rfl rfl (fun u => ?_) rfl
      by_cases hu : u = k.pids
      · rw [h.unborn u (Nat.le_of_eq hu.symm)]
        simp only [set, if_pos hu, woken_initialTaskFunc]
      · simp only [set, if_neg hu]
        have hnext : woken ((k.goOn rest).cont u) = woken (k.cont u) := woken_goOn rfl hrest u
        exact hnext
    · obtain rfl := Option.some.inj hs
      exact h.of_same h.queues (fun _ hq => hq) (woken_goOn rfl hrest) rfl

/-- **Every step that wakes only a sleeper keeps the wake-ups in order.** -/
theorem wakeups_step {e : Event} (h : Wakeups k) (hn : Named k) (hguard : WakesSleeper k e)
    (hs : step k e = some k') : Wakeups k' := by
  cases stepped hs with
  | prim hc hp => exact wakeups_primStep h hn hc hguard hp
  | code hc hspec =>
    refine h.of_same h.queues (fun _ hq => hq) (woken_goOn rfl ?_) rfl
    rw [woken_append, hspec.quiet, hc]
    rfl
  | user hc =>
    refine h.of_same h.queues (fun _ hq => hq) (woken_goOn rfl ?_) rfl
    rw [hc]
    rfl
  | @call a rest hc =>
    refine h.of_same h.queues (fun _ hq => hq) (woken_goOn rfl ?_) rfl
    rw [woken_append, (api_spec a).1, hc]
    rfl
  | irq hspec =>
    refine h.of_same h.queues (fun _ hq => hq) (woken_goOn rfl ?_) rfl
    rw [woken_append, hspec.quiet]
    rfl

/-! ### Every task is linked once -/

theorem Wakeups.linkedOnce (h : Wakeups k) : LinkedOnce k := by
  refine List.nodup_flatMap.mpr ⟨fun i _ => h.queues.nodup i, ?_⟩
  refine List.nodup_range.imp fun {i j} hij t hti htj => hij ?_
  rw [← h.queues.own i t hti, h.queues.own j t htj]

theorem Wakeups.enqueuesUnlinked (h : Wakeups k) (hn : Named k) : EnqueuesUnlinked k := by
  intro t ht i hti
  obtain ⟨hq, -⟩ := h.queues.mem_allTask.mp hti
  simp only [enqueues] at ht
  split at ht
  · next u hu =>
    obtain rfl := Option.some.inj ht
    obtain ⟨rest, hc⟩ := List.head?_eq_some_iff.mp hu
    refine h.pending k.sched.current u ?_ hq
    rw [hc]
    exact List.mem_cons_self
  · obtain ⟨-, ht⟩ := Option.ite_none_right_eq_some.mp ht
    obtain rfl := Option.some.inj ht
    exact hn.not_queued hq
  · cases ht

end Steps

/-- **Every task is linked at most once** in every state of a run that wakes only tasks
that are on no run queue and are not being woken already. -/
theorem linked_once_of_wakes_sleepers {es : List Event}
    (hguard : Run.Guarded step WakesSleeper kmainBoot es) :
    Run.Always step (fun k => LinkedOnce k ∧ EnqueuesUnlinked k) kmainBoot es := by
  have hinv : Run.Always step (fun k => Wakeups k ∧ Named k) kmainBoot es := by
    refine Run.always_of_guarded ?_ ⟨wakeups_kmainBoot, named_kmainBoot⟩ hguard
    intro k e k' hk hg hs
    exact ⟨wakeups_step hk.1 hk.2 hg hs, named_step hk.2 hs⟩
  exact hinv.mono fun k hk => ⟨hk.1.linkedOnce, hk.1.enqueuesUnlinked hk.2⟩

/-- The boot up to the idle loop, with a wake-up of `init` by the first worker. -/
theorem linked_once_boot :
    (Run.exec step kmainBoot (List.replicate 100 (.run 0))).isSome = true ∧
      Run.Always step (fun k => LinkedOnce k ∧ EnqueuesUnlinked k) kmainBoot
        (List.replicate 100 (.run 0)) := by
  constructor
  · decide +kernel
  · apply linked_once_of_wakes_sleepers
    decide +kernel

/-- A task waits for a completion; two calls of `complete` come before it runs again. -/
def twoCompletes : List Event :=
  List.replicate 79 (Event.run 0) ++ [Event.call (.taskCreate 5)] ++ List.replicate 15 (Event.run 0) ++
    [Event.call (.taskCreate 5)] ++ List.replicate 15 (Event.run 0) ++
    [Event.call (.waitForCompletion (.user 0))] ++ List.replicate 8 (Event.run 0) ++
    [Event.run 0, .call (.complete (.user 0))] ++ List.replicate 7 (Event.run 0) ++
    [Event.run 0, .call (.complete (.user 0))] ++ List.replicate 6 (Event.run 0)

set_option maxRecDepth 100000 in
/-- The second `complete` links the task again. -/
theorem linked_twice :
    ¬ (∀ es, Run.Always step (fun k => LinkedOnce k ∧ EnqueuesUnlinked k) kmainBoot es) ∧
      ∃ k, Run.exec step kmainBoot twoCompletes = some k ∧ k.sched.allTask 5 = [3, 4, 2, 2] := by
  have hrun : (Run.exec step kmainBoot twoCompletes).any (fun k =>
      decide (k.sched.allTask 5 = [3, 4, 2, 2])) = true := by
    decide +kernel
  obtain ⟨k, hk, hbad⟩ := (Option.any_eq_true _ _).mp hrun
  have hlist := of_decide_eq_true hbad
  refine ⟨fun hall => ?_, k, hk, hlist⟩
  have honce : LinkedOnce k := ((hall _).exec hk).1
  have hmem : 5 ∈ List.range maxPriority := by decide
  have hnodup := (List.nodup_flatMap.mp honce).1 5 hmem
  rw [hlist] at hnodup
  exact absurd hnodup (by decide)

end Machine

end YakOS
