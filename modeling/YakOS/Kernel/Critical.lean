import YakOS.Kernel.Frame

/-!
# The count of critical sections

`critical_section_count` is one number for all tasks: a context switch carries it from
the task that is suspended to the task that is resumed.  So it counts the critical
sections of the running task only while each switch is between two tasks that are in
equally many of them.  `task_schedule` is called inside one critical section almost
everywhere, and a new task starts inside one; but `schedule_timeout` calls it outside of
all, and a task that is woken from there resumes outside of all.

## Main definitions

* `Matched` — the count is the number of critical sections of the running task.
* `Nested` — no task is going to leave a critical section it is not in.
* `LevelSwitch` — a switch is between tasks that are in equally many.

## Main results

* `critical_section_count_matched` — the count is right throughout a run exactly when
  all its switches are level.
-/

namespace YakOS

namespace Machine

/-- The count is the number of critical sections and interrupts the running task is in. -/
def Matched (k : Kernel) : Prop := k.criticalSectionCount = k.depth k.sched.current

/-- What is left to a task leaves only critical sections that the task is in. -/
def Nested (k : Kernel) : Prop := ∀ t, (nest (k.depth t) (k.cont t)).isSome = true

/-- If the step is a switch, the task it goes to is in as many critical sections as the
task it comes from. -/
def LevelSwitch (k : Kernel) : Event → Prop
  | .run _ =>
    (k.cont k.sched.current).head? = some taskSchedule → ¬ walksUnlinked k.sched →
      k.depth k.sched.pickNextTask.1.current = k.depth k.sched.current
  | _ => True

instance (k : Kernel) : Decidable (Matched k) := inferInstanceAs (Decidable (_ = _))

instance (k : Kernel) : ∀ e, Decidable (LevelSwitch k e)
  | .run _ => inferInstanceAs (Decidable (_ → _ → _))
  | .call _ => isTrue trivial
  | .irq _ => isTrue trivial

section Nesting

variable {k : Kernel}

/-- The current task goes on at depth `d` with `l`, the others stay where they are. -/
theorem Nested.update (h : Nested k) {k' : Kernel} {l : List Instr} {d : ℕ}
    (hcont : k'.cont = set k.cont k.sched.current l)
    (hdepth : k'.depth = set k.depth k.sched.current d)
    (hl : (nest d l).isSome = true) : Nested k' := by
  intro t
  rw [hcont, hdepth]
  by_cases ht : t = k.sched.current
  · simpa [set, ht] using hl
  · simpa [set, ht] using h t

theorem set_self {α β : Type} [DecidableEq α] (f : α → β) (a : α) : set f a (f a) = f := by
  funext x
  by_cases hx : x = a
  · simp [set, hx]
  · simp [set, hx]

/-- The current task goes on at the same depth. -/
theorem Nested.goOn (h : Nested k) {k' : Kernel} {l : List Instr}
    (hcont : k'.cont = set k.cont k.sched.current l) (hdepth : k'.depth = k.depth)
    (hl : (nest (k.depth k.sched.current) l).isSome = true) : Nested k' :=
  h.update hcont (hdepth.trans (set_self k.depth k.sched.current).symm) hl

/-- The first instruction of the current task can be run at its depth. -/
theorem Nested.head (h : Nested k) {i : Instr} {rest : List Instr}
    (hc : k.cont k.sched.current = i :: rest) :
    ∃ d, i.level (k.depth k.sched.current) = some d ∧ (nest d rest).isSome = true := by
  have hcur := h k.sched.current
  rw [hc, nest_cons] at hcur
  obtain ⟨n, hn⟩ := Option.isSome_iff_exists.mp hcur
  obtain ⟨d, hd, hrest⟩ := Option.bind_eq_some_iff.mp hn
  exact ⟨d, hd, Option.isSome_iff_exists.mpr ⟨n, hrest⟩⟩

/-- Leaving a critical section takes the depth down by one. -/
theorem level_leave {i : Instr} {d e : ℕ} (hi : i = .prim .exit ∨ i = .prim .irqExit)
    (h : i.level d = some e) : 0 < d ∧ e = d - 1 := by
  rcases hi with rfl | rfl
  · obtain ⟨hd, he⟩ := Option.ite_none_left_eq_some.mp h
    exact ⟨Nat.pos_of_ne_zero hd, (Option.some.inj he).symm⟩
  · obtain ⟨hd, he⟩ := Option.ite_none_left_eq_some.mp h
    exact ⟨Nat.pos_of_ne_zero hd, (Option.some.inj he).symm⟩

theorem nested_primStep {k' : Kernel} {p : Prim} {rest : List Instr} (h : Nested k)
    (hc : k.cont k.sched.current = .prim p :: rest) (hs : primStep k rest p = some k') :
    Nested k' := by
  obtain ⟨d, hd, hrest⟩ := h.head hc
  cases p with
  | enter =>
    obtain rfl := Option.some.inj hs
    obtain rfl := Option.some.inj hd
    exact h.update rfl rfl hrest
  | exit =>
    obtain rfl := Option.some.inj hs
    obtain ⟨-, rfl⟩ := level_leave (Or.inl rfl) hd
    exact h.update rfl rfl hrest
  | irqExit =>
    obtain rfl := Option.some.inj hs
    obtain ⟨-, rfl⟩ := level_leave (Or.inr rfl) hd
    exact h.update rfl rfl hrest
  | enableInts | state st | ready t | enqueue t =>
    obtain rfl := Option.some.inj hs
    obtain rfl := Option.some.inj hd
    exact h.goOn rfl rfl hrest
  -- the code put in front of the rest leaves the sections that it enters
  | tryToWakeUp t =>
    obtain rfl := Option.some.inj hs
    obtain rfl := Option.some.inj hd
    have hbal : nest 0 (wakeTail t) = some 0 := rfl
    exact h.goOn rfl rfl ((nest_balanced hbal _ rest).symm ▸ hrest)
  | taskSleepFunction t =>
    obtain rfl := Option.some.inj hs
    obtain rfl := Option.some.inj hd
    have hbal : nest 0 (sleepTail t) = some 0 := rfl
    exact h.goOn rfl rfl ((nest_balanced hbal _ rest).symm ▸ hrest)
  | dequeue =>
    obtain ⟨-, hs⟩ := Option.ite_none_right_eq_some.mp hs
    obtain rfl := Option.some.inj hs
    obtain rfl := Option.some.inj hd
    exact h.goOn rfl rfl hrest
  | schedule =>
    obtain ⟨-, hs⟩ := Option.ite_none_left_eq_some.mp hs
    obtain rfl := Option.some.inj hs
    obtain rfl := Option.some.inj hd
    exact h.goOn rfl rfl hrest
  | create p entry =>
    obtain rfl := Option.some.inj hd
    simp only [primStep] at hs
    split at hs
    · obtain rfl := Option.some.inj hs
      intro t
      by_cases ht : t = k.pids
      · -- the new task has one critical section to leave
        cases entry <;> simp only [set, if_pos ht] <;> rfl
      · simp only [set, if_neg ht]
        have hnext : Nested (k.goOn rest) := h.goOn rfl rfl hrest
        exact hnext t
    · obtain rfl := Option.some.inj hs
      exact h.goOn rfl rfl hrest

/-- **Every step keeps the critical sections nested.** -/
theorem nested_step {k' : Kernel} {e : Event} (h : Nested k) (hs : step k e = some k') :
    Nested k' := by
  cases stepped hs with
  | prim hc hp => exact nested_primStep h hc hp
  | code hc hspec =>
    obtain ⟨d, hd, hrest⟩ := h.head hc
    obtain rfl := Option.some.inj hd
    exact h.goOn rfl rfl ((nest_balanced hspec.balanced _ _).symm ▸ hrest)
  | user hc =>
    obtain ⟨d, hd, hrest⟩ := h.head hc
    obtain rfl := Option.some.inj hd
    exact h.goOn rfl rfl hrest
  | @call a rest hc =>
    obtain ⟨d, hd, hrest⟩ := h.head hc
    obtain rfl := Option.some.inj hd
    obtain ⟨n, hn⟩ := (api_spec a).2.2
    obtain ⟨m, hm⟩ := Option.isSome_iff_exists.mp hrest
    -- `task_exit` leaves its critical section to the task that runs next
    have hbody := nest_add hn (k.depth k.sched.current)
    have hmore := nest_add hm n
    rw [Nat.zero_add] at hbody
    rw [Nat.add_comm] at hmore
    refine h.goOn rfl rfl ?_
    rw [nest_append, hbody]
    exact Option.isSome_iff_exists.mpr ⟨_, hmore⟩
  | irq hspec =>
    refine h.update rfl rfl ?_
    rw [nest_balanced hspec.balanced]
    exact h k.sched.current

end Nesting

/-! ### The count -/

section Count

variable {k : Kernel}

/-- A step of a task changes the count by as much as the depth of that task, and a switch
changes neither. -/
structure LevelStep (k k' : Kernel) : Prop where
  count : k'.criticalSectionCount - k'.depth k.sched.current =
    k.criticalSectionCount - k.depth k.sched.current
  switch : k'.sched.current ≠ k.sched.current → k'.depth = k.depth

theorem levelStep_inner {k₁ : Kernel} (hcur : k₁.sched.current = k.sched.current)
    (hcount : k₁.criticalSectionCount = k.criticalSectionCount) (hdepth : k₁.depth = k.depth) :
    LevelStep k k₁.inner := by
  refine ⟨?_, fun hne => absurd hcur hne⟩
  simp only [Kernel.inner, hcur, hcount, hdepth, set, if_pos, Nat.cast_add, Nat.cast_one]
  omega

theorem levelStep_outer {k₁ : Kernel} (hpos : 0 < k.depth k.sched.current)
    (hcur : k₁.sched.current = k.sched.current)
    (hcount : k₁.criticalSectionCount = k.criticalSectionCount) (hdepth : k₁.depth = k.depth) :
    LevelStep k k₁.outer := by
  refine ⟨?_, fun hne => absurd hcur hne⟩
  simp only [Kernel.outer, hcur, hcount, hdepth, set, if_pos]
  omega

/-- A step that changes neither the count nor a depth. -/
theorem levelStep_same {k' : Kernel} (hcount : k'.criticalSectionCount = k.criticalSectionCount)
    (hdepth : k'.depth = k.depth) : LevelStep k k' :=
  ⟨by rw [hcount, hdepth], fun _ => hdepth⟩

/-- The new task is not the one that creates it. -/
theorem levelStep_create {k' : Kernel} (hn : Named k)
    (hcount : k'.criticalSectionCount = k.criticalSectionCount)
    (hdepth : k'.depth = set k.depth k.pids 1) (hcur : k'.sched.current = k.sched.current) :
    LevelStep k k' := by
  have hne : k.sched.current ≠ k.pids := Nat.ne_of_lt hn.current
  refine ⟨?_, fun h => absurd hcur h⟩
  rw [hcount, hdepth]
  simp [set, hne]

theorem levelStep_primStep {k' : Kernel} {p : Prim} {rest : List Instr} (h : Nested k)
    (hn : Named k) (hc : k.cont k.sched.current = .prim p :: rest)
    (hs : primStep k rest p = some k') : LevelStep k k' := by
  obtain ⟨d, hd, -⟩ := h.head hc
  cases p with
  | enter =>
    obtain rfl := Option.some.inj hs
    exact levelStep_inner rfl rfl rfl
  -- a task that leaves a section is in one, since its code is nested
  | exit =>
    obtain rfl := Option.some.inj hs
    obtain ⟨hpos, -⟩ := level_leave (Or.inl rfl) hd
    exact levelStep_outer hpos rfl rfl rfl
  | irqExit =>
    obtain rfl := Option.some.inj hs
    obtain ⟨hpos, -⟩ := level_leave (Or.inr rfl) hd
    exact levelStep_outer hpos rfl rfl rfl
  | enableInts | state st | ready t | enqueue t | tryToWakeUp t | taskSleepFunction t =>
    obtain rfl := Option.some.inj hs
    exact levelStep_same rfl rfl
  | dequeue =>
    obtain ⟨-, hs⟩ := Option.ite_none_right_eq_some.mp hs
    obtain rfl := Option.some.inj hs
    exact levelStep_same rfl rfl
  | schedule =>
    obtain ⟨-, hs⟩ := Option.ite_none_left_eq_some.mp hs
    obtain rfl := Option.some.inj hs
    exact levelStep_same rfl rfl
  | create p entry =>
    simp only [primStep] at hs
    split at hs
    · obtain rfl := Option.some.inj hs
      exact levelStep_create hn rfl rfl rfl
    · obtain rfl := Option.some.inj hs
      exact levelStep_same rfl rfl

theorem levelStep_step {k' : Kernel} {e : Event} (h : Nested k) (hn : Named k)
    (hs : step k e = some k') : LevelStep k k' := by
  cases stepped hs with
  | prim hc hp => exact levelStep_primStep h hn hc hp
  | code hc hspec => exact levelStep_same rfl rfl
  | user hc => exact levelStep_same rfl rfl
  | call hc => exact levelStep_same rfl rfl
  | irq hspec => exact levelStep_inner rfl rfl rfl

/-- A step keeps the count right exactly when it does not switch to a task at another
depth. -/
theorem LevelStep.matched_iff {k' : Kernel} (h : LevelStep k k') (hm : Matched k) :
    Matched k' ↔ k.depth k'.sched.current = k.depth k.sched.current := by
  have hcount := h.count
  unfold Matched at hm ⊢
  by_cases hcur : k'.sched.current = k.sched.current
  · rw [hcur]
    omega
  · rw [h.switch hcur] at hcount ⊢
    omega

/-- Only `task_schedule` changes the running task. -/
theorem current_step {k' : Kernel} {e : Event} (hs : step k e = some k') :
    k.depth k'.sched.current = k.depth k.sched.current ↔ LevelSwitch k e := by
  cases stepped hs with
  | @prim path p rest k' hc hp =>
    simp only [LevelSwitch, hc, List.head?_cons, Option.some.injEq, Instr.prim.injEq]
    cases p with
    | enter | exit | irqExit | enableInts | state st | ready t | enqueue t | tryToWakeUp t
    | taskSleepFunction t =>
      obtain rfl := Option.some.inj hp
      exact iff_of_true rfl fun h => by cases h
    | dequeue =>
      obtain ⟨-, hp⟩ := Option.ite_none_right_eq_some.mp hp
      obtain rfl := Option.some.inj hp
      exact iff_of_true rfl fun h => by cases h
    | schedule =>
      obtain ⟨hw, hp⟩ := Option.ite_none_left_eq_some.mp hp
      obtain rfl := Option.some.inj hp
      exact ⟨fun hd _ _ => hd, fun hd => hd rfl hw⟩
    | create p entry =>
      simp only [primStep] at hp
      split at hp
      · obtain rfl := Option.some.inj hp
        exact iff_of_true rfl fun h => by cases h
      · obtain rfl := Option.some.inj hp
        exact iff_of_true rfl fun h => by cases h
  | code hc _ | user hc =>
    simp only [LevelSwitch, hc]
    exact iff_of_true rfl fun h => by cases h
  | call hc => exact iff_of_true rfl trivial
  | irq _ => exact iff_of_true rfl trivial

theorem levelSwitch_of_stuck {e : Event} (hs : step k e = none) : LevelSwitch k e := by
  cases e with
  | run path =>
    intro hhead hw
    obtain ⟨rest, hc⟩ := List.head?_eq_some_iff.mp hhead
    simp only [step, hc, primStep, if_neg hw] at hs
    cases hs
  | call a => trivial
  | irq i => trivial

end Count

/-- **The count of critical sections.**  From a state in which it is right it stays right
throughout a run exactly when all switches of the run are level. -/
theorem critical_section_count_matched {k : Kernel} (hm : Matched k) (hd : Nested k)
    (hn : Named k) (es : List Event) :
    Run.Always step Matched k es ↔ Run.Guarded step LevelSwitch k es := by
  refine Run.always_iff_guarded_of_inv (J := fun s => Nested s ∧ Named s) ?_ ?_ ?_ ⟨hd, hn⟩ hm
  · intro s e s' hJ hs
    exact ⟨nested_step hJ.1 hs, named_step hJ.2 hs⟩
  · intro s e s' hJ hP hs
    rw [(levelStep_step hJ.1 hJ.2 hs).matched_iff hP, current_step hs]
  · intro s e _ _ hs
    exact levelSwitch_of_stuck hs

/-- The kernel of a `kmain` that creates no workqueue. -/
def plainBoot : Kernel :=
  { kmainBoot with
    cont := fun t =>
      if t = 0 then taskCreate 5 .user ++ [.prim .enableInts, .call .idle] else [] }

theorem nested_plainBoot : Nested plainBoot := by
  intro t
  simp only [plainBoot]
  split
  · rfl
  · rfl

theorem named_plainBoot : Named plainBoot where
  current := named_kmainBoot.current
  queued := named_kmainBoot.queued
  next := named_kmainBoot.next
  cont := by
    intro u t ht
    simp only [plainBoot] at ht
    split at ht
    · cases ht
    · cases ht
  objs := named_kmainBoot.objs

/-- `init` creates a task and idles; the task sleeps, and its timer breaks into `init` and
switches back. -/
def sleepingRun : List Event :=
  List.replicate 20 (.run 0) ++ [.call .taskSleep] ++ List.replicate 15 (.run 0) ++
    [.irq (.timer (.sleep 1))] ++ List.replicate 13 (.run 0)

/-- The switches of such a run are all inside one critical section. -/
theorem critical_section_count_matched_sleeping :
    (Run.exec step plainBoot sleepingRun).any (fun k => k.sched.current = 1) = true ∧
      Run.Always step Matched plainBoot sleepingRun := by
  constructor
  · decide +kernel
  · have hguard : Run.Guarded step LevelSwitch plainBoot sleepingRun := by decide +kernel
    exact (critical_section_count_matched (by decide) nested_plainBoot named_plainBoot _).mpr hguard

/-- `kmain` waits for the worker of its workqueue in `schedule_timeout`, outside of every
critical section; the worker starts by leaving one, and the count is negative. -/
theorem critical_section_count_negative :
    ¬ (∀ es, Run.Always step Matched kmainBoot es) ∧
      ∃ k, Run.exec step kmainBoot (List.replicate 32 (.run 0)) = some k ∧
        k.sched.current = 1 ∧ k.depth 1 = 0 ∧ k.criticalSectionCount = -1 := by
  have hrun : (Run.exec step kmainBoot (List.replicate 32 (.run 0))).any (fun k =>
      decide (k.sched.current = 1 ∧ k.depth 1 = 0 ∧ k.criticalSectionCount = -1)) = true := by
    decide +kernel
  obtain ⟨k, hk, hbad⟩ := (Option.any_eq_true _ _).mp hrun
  obtain ⟨hcur, hdepth, hcount⟩ := of_decide_eq_true hbad
  refine ⟨fun hall => ?_, k, hk, hcur, hdepth, hcount⟩
  have hm : k.criticalSectionCount = k.depth k.sched.current := (hall _).exec hk
  rw [hcur, hdepth, hcount] at hm
  exact absurd hm (by decide)

end Machine

end YakOS
