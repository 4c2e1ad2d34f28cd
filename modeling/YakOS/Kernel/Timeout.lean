import YakOS.Kernel.Completion
import YakOS.Kernel.Timer
import YakOS.Kernel.Transitions

/-!
# Timeouts

`schedule_timeout` and `task_sleep` of `kernel/task.c`.  `schedule_timeout` adds the time to the
timeout and passes the sum on as a delay; `timer_add` adds the time once more.  The sums are those of
32-bit words, so that the difference returned turns positive again when a task has slept long enough.

## Main definitions

* `taskSleep`, `scheduleTimeout` — the code, on the run queues and the timers.
* `Readings` — what `current_time` returns during a call.
* `SleepsRight` — what a call is to do.
* `ClockOk` — the condition under which it does.

## Main results

* `scheduleTimeout_eq_some` — what a call does.
* `schedule_timeout_iff` — **a call does what it has to exactly when the condition holds.**
-/

namespace YakOS

namespace Timers

open Links

/-- The address of `task_sleep_function`. -/
def taskSleepFunction : ℕ := 1

/-- The run queues, the timers and the messages. -/
structure SleepSys where
  sched : Sched
  timers : TimerSys
  printed : List String

/-- What `current_time` returns when `schedule_timeout` is called, when `timer_add` arms the timer, and
when the task runs again. -/
structure Readings where
  called : BitVec 64
  added : BitVec 64
  resumed : BitVec 64
  deriving DecidableEq, Repr

/-- The time that has passed when the task runs again. -/
def Readings.passed (c : Readings) : ℕ := (c.resumed - c.called).toNat

/-! ### The code -/

/-- `init_timer_value`. -/
def initTimerValue (s : TimerSys) (t : ℕ) : TimerSys :=
  { s.setTimer t .init with
    links := s.links.initListHead (.timer t)
    armed := Function.update s.armed t false }

/-- `task_sleep`, up to the switch to another task, with the timer `kmalloc` returns. -/
def taskSleep (s : SleepSys) (timer : ℕ) (delay : BitVec 32) (now : BitVec 64) : Option SleepSys :=
  (oneshotTimerAdd (initTimerValue s.timers timer) timer delay (some taskSleepFunction)
    (some s.sched.current) now).map fun timers =>
      { s with timers := timers, sched := (s.sched.leave .sleeping).pickNextTask.1 }

/-- `expire`. -/
def expire (timeout : BitVec 32) (now : BitVec 64) : BitVec 32 :=
  (timeout.signExtend 64 + now).setWidth 32

/-- `timeout < 0 ? 0 : timeout`, with the difference to `expire`. -/
def timeLeft (expire : BitVec 32) (now : BitVec 64) : BitVec 32 :=
  let timeout := (expire.setWidth 64 - now).setWidth 32
  if timeout.toInt < 0 then 0 else timeout

/-- `schedule_timeout`: the system when the task has left the processor, or at once, and what the call
returns. -/
def scheduleTimeout (s : SleepSys) (timer : ℕ) (c : Readings) (timeout : BitVec 32) :
    Option (SleepSys × BitVec 32) :=
  if timeout.toInt = maxScheduleTimeout then
    some ({ s with sched := (s.sched.leave .sleeping).pickNextTask.1 }, timeout)
  else if timeout.toInt < 0 then
    some ({ s with
      sched := s.sched.setTaskState s.sched.current .running
      printed := s.printed ++ ["schedule_timeout: wrong timeout value %lx\n"] }, 0)
  else
    (taskSleep s timer (expire timeout c.called) c.added).map fun s' =>
      (s', timeLeft (expire timeout c.called) c.resumed)

/-! ### What it is to do -/

/-- Between the two states the timer was armed for the task, to expire once and at the given time, and
no other timer was touched. -/
structure Arms (s s' : TimerSys) (timer : ℕ) (task : TaskId) (expiredTime : BitVec 32) : Prop where
  onList : OnList s' timer
  armed : s'.armed = Function.update s.armed timer true
  timer : s'.timer = Function.update s.timer timer
    { expiredTime := expiredTime
      periodicTime := 0
      function := some taskSleepFunction
      arg := some task }

/-- The call arms a timer that expires when the timeout has passed, after one millisecond at least, and
returns what is left of the timeout. -/
def SleepsRight (s : SleepSys) (timer : ℕ) (c : Readings) (timeout : BitVec 32) : Prop :=
  ∃ s' left, scheduleTimeout s timer c timeout = some (s', left) ∧
    Arms s.timers s'.timers timer s.sched.current
      (BitVec.ofNat 32 (c.added.toNat + max timeout.toNat 1)) ∧
    left.toInt = max 0 (timeout.toInt - c.passed)

/-- The condition: the low word of the clock is 0, or the delay of at least 1 makes up for it; and the
task does not run again so late that the difference turns positive. -/
structure ClockOk (c : Readings) (timeout : BitVec 32) : Prop where
  start : c.called.toNat % 2 ^ 32 = 0 ∨
    timeout.toNat = 0 ∧ c.called.toNat % 2 ^ 32 = 1 ∨
    timeout.toNat = 1 ∧ c.called.toNat % 2 ^ 32 = 2 ^ 32 - 1
  soon : c.passed ≤ timeout.toNat ∨ (c.passed - timeout.toNat) % 2 ^ 32 ≤ 2 ^ 31

section Words

variable {timeout : BitVec 32} {c : Readings}

/-- A timeout that is not negative is its unsigned value. -/
theorem toInt_eq_toNat (h : 0 ≤ timeout.toInt) : timeout.toInt = timeout.toNat ∧ timeout.toNat < 2 ^ 31 := by
  have := timeout.isLt
  rw [BitVec.toInt_eq_toNat_cond] at h ⊢
  split at h <;> omega

theorem toNat_expire (h : 0 ≤ timeout.toInt) (now : BitVec 64) :
    (expire timeout now).toNat = (timeout.toNat + now.toNat) % 2 ^ 32 := by
  have hlow := (toInt_eq_toNat h).2
  have hmsb : timeout.msb = false := by
    rw [BitVec.msb_eq_decide]
    simpa using hlow
  unfold expire
  rw [BitVec.toNat_setWidth, BitVec.toNat_add, BitVec.signExtend_eq_setWidth_of_msb_false hmsb,
    BitVec.toNat_setWidth]
  omega

/-- The delay that `oneshot_timer_add` makes of the sum is the timeout, or 1 for no timeout, exactly
under the condition. -/
theorem delay_eq_iff (h : 0 ≤ timeout.toInt) (added : BitVec 64) :
    added.setWidth 32 + (if expire timeout c.called = 0 then 1 else expire timeout c.called) =
        BitVec.ofNat 32 (added.toNat + max timeout.toNat 1) ↔
      (c.called.toNat % 2 ^ 32 = 0 ∨ timeout.toNat = 0 ∧ c.called.toNat % 2 ^ 32 = 1 ∨
        timeout.toNat = 1 ∧ c.called.toNat % 2 ^ 32 = 2 ^ 32 - 1) := by
  have hlow := (toInt_eq_toNat h).2
  have hexpire := toNat_expire h c.called
  rw [← BitVec.toNat_inj, BitVec.toNat_add, BitVec.toNat_setWidth, BitVec.toNat_ofNat]
  have hone : (1 : BitVec 32).toNat = 1 := rfl
  by_cases hzero : expire timeout c.called = 0
  · have htoNat : (expire timeout c.called).toNat = 0 := by rw [hzero]; rfl
    rw [if_pos hzero, hone]
    omega
  · have hne : (expire timeout c.called).toNat ≠ 0 := fun e => hzero (BitVec.eq_of_toNat_eq e)
    rw [if_neg hzero]
    omega

/-- What is returned is the difference of the words, or 0. -/
theorem toInt_timeLeft (h : 0 ≤ timeout.toInt) : (timeLeft (expire timeout c.called) c.resumed).toInt =
    max 0 ((timeout.toInt - c.passed).bmod (2 ^ 32)) := by
  have hword : ((expire timeout c.called).setWidth 64 - c.resumed).setWidth 32 =
      timeout - (c.resumed - c.called).setWidth 32 := by
    have hexpire := toNat_expire h c.called
    apply BitVec.eq_of_toNat_eq
    rw [BitVec.toNat_setWidth, BitVec.toNat_sub, BitVec.toNat_setWidth, BitVec.toNat_sub,
      BitVec.toNat_setWidth, BitVec.toNat_sub]
    omega
  have hint : (timeout - (c.resumed - c.called).setWidth 32).toInt =
      (timeout.toInt - c.passed).bmod (2 ^ 32) := by
    rw [BitVec.toInt_sub, BitVec.toInt_setWidth, Int.sub_bmod_bmod]
    rfl
  unfold timeLeft
  dsimp only
  rw [hword]
  split <;> rename_i hneg
  · rw [hint] at hneg
    rw [max_eq_left (by omega)]
    rfl
  · rw [hint] at hneg ⊢
    rw [max_eq_right (by omega)]

/-- The difference is not negative, or what is left of the timeout is 0, exactly under the condition. -/
theorem left_eq_iff (h : 0 ≤ timeout.toInt) :
    max 0 ((timeout.toInt - c.passed).bmod (2 ^ 32)) = max 0 (timeout.toInt - c.passed) ↔
      c.passed ≤ timeout.toNat ∨ (c.passed - timeout.toNat) % 2 ^ 32 ≤ 2 ^ 31 := by
  obtain ⟨hint, hlow⟩ := toInt_eq_toNat h
  rw [hint]
  rcases Nat.le_total c.passed timeout.toNat with hle | hle
  · refine iff_of_true ?_ (Or.inl hle)
    rw [Int.bmod_eq_of_le (by omega) (by omega)]
  · -- the task slept for longer than the timeout
    have hle0 : ((timeout.toNat : ℤ) - c.passed).bmod (2 ^ 32) ≤ 0 ↔
        (c.passed - timeout.toNat) % 2 ^ 32 ≤ 2 ^ 31 := by
      rw [Int.bmod_def]
      omega
    rw [max_eq_left (b := (timeout.toNat : ℤ) - c.passed) (by omega), max_eq_left_iff, hle0]
    constructor
    · exact Or.inr
    · rintro (heq | hmod)
      · rw [Nat.sub_eq_zero_of_le heq]
        decide
      · exact hmod

end Words

/-! ### A call -/

section Calls

variable {s s' : SleepSys} {timer : ℕ} {ts : List ℕ} {c : Readings} {timeout left : BitVec 32}

/-- `init_timer_value` of a timer that is not on the list. -/
theorem Linked.initTimerValue {s : TimerSys} (h : Linked s ts) (ht : timer ∉ ts) :
    Linked (initTimerValue s timer) ts where
  ring := by
    have hne : ∀ y ∈ Node.head :: ts.map .timer, y ≠ .timer timer := by
      rintro y hy rfl
      exact ht (node_mem.mp hy)
    refine h.ring.congr (fun y hy => ?_) fun y hy => ?_
    · exact Function.update_of_ne (hne y hy) _ _
    · exact Function.update_of_ne (hne y hy) _ _
  lt := h.lt
  entry u hu := by
    by_cases hut : u = timer
    · subst hut
      exact Or.inr (Function.update_self ..)
    · have hnode : Node.timer u ≠ .timer timer := fun e => hut (Node.timer.inj e)
      have hnext : (Timers.initTimerValue s timer).links.next (.timer u) = s.links.next (.timer u) :=
        Function.update_of_ne hnode _ _
      rw [hnext]
      exact h.entry u hu

/-- **`task_sleep`** arms the timer, with the delay or 1, for the task that calls it. -/
theorem taskSleep_spec (hlist : Linked s.timers ts) (ht : timer ∉ ts) (hlt : timer < s.timers.size)
    (delay : BitVec 32) (now : BitVec 64) : ∃ s', taskSleep s timer delay now = some s' ∧
      Arms s.timers s'.timers timer s.sched.current
        (now.setWidth 32 + if delay = 0 then 1 else delay) := by
  obtain ⟨timers, hadd, hlinked, hch⟩ := (hlist.initTimerValue ht).timerAdd
    (if delay = 0 then 1 else delay) 0 (some taskSleepFunction) (some s.sched.current) now ht hlt
  refine ⟨{ s with timers := timers, sched := (s.sched.leave .sleeping).pickNextTask.1 }, ?_, ?_⟩
  · unfold taskSleep oneshotTimerAdd
    rw [hadd]
    rfl
  · refine ⟨⟨_, hlinked.ring, Lists.mem_insertAfter.mpr (Or.inl rfl)⟩, ?_, ?_⟩
    · rw [hch.armed]
      exact Function.update_idem ..
    · rw [hch.timer]
      exact Function.update_idem ..

/-- **A call** with a timeout arms a timer at the sum of the timeout and two readings of the clock, and
returns the difference of words. -/
theorem scheduleTimeout_eq_some (hlist : Linked s.timers ts) (ht : timer ∉ ts)
    (hlt : timer < s.timers.size) (h0 : 0 ≤ timeout.toInt) (hmax : timeout.toInt < maxScheduleTimeout) :
    ∃ s', scheduleTimeout s timer c timeout =
        some (s', timeLeft (expire timeout c.called) c.resumed) ∧
      Arms s.timers s'.timers timer s.sched.current (c.added.setWidth 32 +
        if expire timeout c.called = 0 then 1 else expire timeout c.called) := by
  obtain ⟨s', hs', harms⟩ := taskSleep_spec hlist ht hlt (expire timeout c.called) c.added
  refine ⟨s', ?_, harms⟩
  unfold scheduleTimeout
  rw [if_neg hmax.ne, if_neg (by omega), hs']
  rfl

/-- **A call does what it has to exactly when the condition holds**, for every timeout that is neither
negative nor `MAX_SCHEDULE_TIMEOUT`, at all times, with a new timer. -/
theorem schedule_timeout_iff (s : SleepSys) (timer : ℕ) (ts : List ℕ) (c : Readings)
    (timeout : BitVec 32) (hlist : Linked s.timers ts) (ht : timer ∉ ts) (hlt : timer < s.timers.size)
    (h0 : 0 ≤ timeout.toInt) (hmax : timeout.toInt < maxScheduleTimeout) :
    SleepsRight s timer c timeout ↔ ClockOk c timeout := by
  obtain ⟨s', hs', harms⟩ := scheduleTimeout_eq_some (c := c) hlist ht hlt h0 hmax
  have hdelay := delay_eq_iff (c := c) h0 c.added
  have hleft := left_eq_iff (c := c) h0
  rw [← toInt_timeLeft h0] at hleft
  constructor
  · rintro ⟨s₁, left, hs₁, harms₁, hright⟩
    obtain ⟨rfl, rfl⟩ := Prod.mk.inj (Option.some.inj (hs'.symm.trans hs₁))
    refine ⟨hdelay.mp ?_, hleft.mp hright⟩
    -- the fields of the timer tell when it expires
    have hfields := congrFun (harms.timer.symm.trans harms₁.timer) timer
    rw [Function.update_self, Function.update_self] at hfields
    exact congrArg Timer.expiredTime hfields
  · rintro ⟨hstart, hsoon⟩
    exact ⟨s', _, hs', hdelay.mpr hstart ▸ harms, hleft.mpr hsoon⟩

end Calls

/-- A task and its timer, with an empty list. -/
def oneSleeper : SleepSys where
  sched := schedBoot
  timers := timerBoot 1
  printed := []

theorem linked_oneSleeper : Linked oneSleeper.timers [] := (listInv_boot 1).linked

/-- At the time 0 a call with a timeout of 5 is right. -/
theorem schedule_timeout_iff_five : SleepsRight oneSleeper 0 ⟨0, 0, 7⟩ 5 :=
  (schedule_timeout_iff oneSleeper 0 [] ⟨0, 0, 7⟩ 5 linked_oneSleeper (by decide) (by decide)
    (by decide) (by decide)).mpr ⟨by decide, by decide⟩

/-- At the time 1000 it arms a timer that expires at 2005. -/
theorem schedule_timeout_late : ¬ ∀ (s : SleepSys) (timer : ℕ) (ts : List ℕ) (c : Readings)
    (timeout : BitVec 32), Linked s.timers ts → timer ∉ ts → timer < s.timers.size →
      0 ≤ timeout.toInt → timeout.toInt < maxScheduleTimeout → SleepsRight s timer c timeout := by
  intro h
  obtain ⟨s', left, hs', harms, -⟩ := h oneSleeper 0 [] ⟨1000, 1000, 1005⟩ 5 linked_oneSleeper
    (by decide) (by decide) (by decide) (by decide)
  have hexpired := congrArg (fun x => ((x 0).expiredTime)) harms.timer
  have hrun : ((scheduleTimeout oneSleeper 0 ⟨1000, 1000, 1005⟩ 5).map
      fun r => ((r.1.timers.timer 0).expiredTime)) = some 2005 := by decide +kernel
  rw [hs'] at hrun
  dsimp only [Function.update_self] at hexpired
  rw [Option.map_some, hexpired] at hrun
  revert hrun
  decide

end Timers

end YakOS
