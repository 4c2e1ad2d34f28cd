import Mathlib.Data.BitVec
import Mathlib.Tactic.Tauto
import YakOS.Lib.Links
import YakOS.Lib.Lists
import YakOS.Lib.Run

/-!
# Timers

The timers of `kernel/timer.c`.  A timer is armed when its entry is on `timer_list`.  The
entry of a timer that is not armed is linked to itself after `init_timer_value` and after
`timer_delete`, and has null pointers when the timer has fired; `list_empty` tells the
first from an armed timer, and takes the second for an armed one.

`timer_tick` walks along the list with the next entry kept in `timer_tmp` while a callback
runs.  The callback may add and delete timers, so the walk is a sequence of steps here.

## Main definitions

* `TimerSys` — the timers, their list and the tick under way.
* `timerAdd`, `timerDelete`, `tickLoop`, `tickReturn` — the code.
* `timerStep` — the steps of callers, callbacks and ticks.
* `WellFormed`, `SafeTimerStep` — the list holds each armed timer once; a step unlinks only
  entries that are linked and calls back only for timers that are armed.
* `TimerGuard` — the steps that the code is right for.

## Main results

* `timer_list_safe` — in a run of such steps the list is well formed throughout, and every
  step is safe.
-/

namespace YakOS

namespace Timers

open Links

/-- The nodes of `timer_list`: its head and the entries of the timers. -/
inductive Node
  | head
  | timer (t : ℕ)
  deriving DecidableEq, Repr

/-- The timer of an entry. -/
def Node.timer? : Node → Option ℕ
  | head => none
  | timer t => some t

/-- A `timer_t`, apart from its entry. -/
structure Timer where
  expiredTime : BitVec 32
  periodicTime : BitVec 32
  function : Option ℕ
  arg : Option ℕ
  deriving DecidableEq, Repr

/-- The variables of `timer_tick`. -/
structure Tick where
  now : BitVec 64
  /-- `timer`. -/
  pos : Node
  /-- `timer_tmp`. -/
  tmp : Option Node
  /-- `periodic_time`, while the callback of `timer` runs. -/
  running : Option (BitVec 32)
  deriving DecidableEq, Repr

/-- The timers.  The last field is not in the code: which timers are armed, that is, were
added and since then neither deleted nor, unless they have a period, fired. -/
structure TimerSys where
  /-- The number of timers. -/
  size : ℕ
  links : Links Node
  timer : ℕ → Timer
  /-- `first_time`. -/
  firstTime : Bool
  tick : Option Tick
  armed : ℕ → Bool

/-- Change the fields of a timer. -/
def TimerSys.setTimer (s : TimerSys) (t : ℕ) (x : Timer) : TimerSys :=
  { s with timer := Function.update s.timer t x }

@[simp] theorem TimerSys.setTimer_links (s : TimerSys) (t : ℕ) (x : Timer) :
    (s.setTimer t x).links = s.links := rfl

/-- A timer with the values of `init_timer_value`. -/
def Timer.init : Timer :=
  { expiredTime := 0, periodicTime := 0, function := none, arg := none }

/-! ### The code -/

/-- The walk of `timer_list_add`: the first entry from `node` on for which `p` holds, or the
end of the list.  A walk over more nodes than there are never ends. -/
def findPlace (l : Links Node) (p : ℕ → Bool) : ℕ → Option Node → Option (Option Node)
  | 0, _ => none
  | _ + 1, none => none
  | _ + 1, some .head => some none
  | fuel + 1, some (.timer i) =>
    if p i then some (some (.timer i)) else findPlace l p fuel (l.next (.timer i))

/-- `timer_list_add`. -/
def timerListAdd (s : TimerSys) (t : ℕ) : Option (Links Node) :=
  if s.links.listEmpty .head then s.links.listAdd (.timer t) .head
  else
    (findPlace s.links (fun i => (s.timer i).expiredTime < (s.timer t).expiredTime) (s.size + 1)
      (s.links.next .head)).bind fun place =>
        match place with
        | some iterator => s.links.listAdd (.timer t) iterator
        | none => s.links.listAddTail (.timer t) .head

/-- `timer_add`; a timer that is armed only gets a message. -/
def timerAdd (s : TimerSys) (t : ℕ) (delay period : BitVec 32) (function arg : Option ℕ)
    (now : BitVec 64) : Option TimerSys :=
  let s' := s.setTimer t
    { expiredTime := now.setWidth 32 + delay
      periodicTime := period
      function := function
      arg := arg }
  (timerListAdd s' t).map fun l =>
    { s' with links := l, armed := Function.update s.armed t true }

/-- `oneshot_timer_add`. -/
def oneshotTimerAdd (s : TimerSys) (t : ℕ) (delay : BitVec 32) (function arg : Option ℕ)
    (now : BitVec 64) : Option TimerSys :=
  timerAdd s t (if delay = 0 then 1 else delay) 0 function arg now

/-- `periodic_timer_add`. -/
def periodicTimerAdd (s : TimerSys) (t : ℕ) (period : BitVec 32) (function arg : Option ℕ)
    (now : BitVec 64) : Option TimerSys :=
  let period := if period = 0 then 1 else period
  timerAdd s t period period function arg now

/-- `timer_delete`. -/
def timerDelete (s : TimerSys) (t : ℕ) : Option TimerSys :=
  (if s.links.listEmpty (.timer t) then some s.links else s.links.listDelInit (.timer t)).map
    fun l =>
      { s.setTimer t .init with links := l, armed := Function.update s.armed t false }

/-- The timer has expired: `(signed long)(expired_time - now) <= 0`. -/
def due (s : TimerSys) (now : BitVec 64) (t : ℕ) : Bool :=
  ¬ 0 < ((s.timer t).expiredTime - now.setWidth 32).toInt

/-- `timer_tick`, up to its loop. -/
def timerTick (s : TimerSys) (now : BitVec 64) : Option TimerSys :=
  if s.firstTime then some { s with firstTime := false }
  else (s.links.next .head).map fun pos =>
    { s with tick := some { now := now, pos := pos, tmp := s.links.next pos, running := none } }

/-- The loop of `timer_tick`, up to the callback; a null `function` cannot be called. -/
def tickLoop (s : TimerSys) (k : Tick) : Option TimerSys :=
  match k.pos with
  | .head => some { s with tick := none }
  | .timer t =>
    if due s k.now t then
      match s.links.listDel (.timer t), (s.timer t).function with
      | some l, some _ =>
        some { s with
          links := l
          tick := some { k with running := some (s.timer t).periodicTime }
          armed := Function.update s.armed t false }
      | _, _ => none
    else some { s with tick := none }

/-- The loop of `timer_tick` after the callback of `t`. -/
def tickReturn (s : TimerSys) (k : Tick) (t : ℕ) (period : BitVec 32) (reschedule : Bool) :
    Option TimerSys :=
  -- a timer with a period is to be armed again
  let armed := Function.update s.armed t (s.armed t || period ≠ 0)
  if reschedule then some { s with tick := none, armed := armed }
  else
    let s' := s.setTimer t { s.timer t with expiredTime := k.now.setWidth 32 + period }
    (if period ≠ 0 ∧ s.links.listEmpty (.timer t) then (timerListAdd s' t).map fun l =>
        { s' with links := l }
      else some s).bind fun s₁ =>
        k.tmp.map fun n =>
          { s₁ with
            tick := some { k with pos := n, tmp := s₁.links.next n, running := none }
            armed := armed }

/-! ### Runs -/

/-- What can happen next. -/
inductive Event
  | oneshotTimerAdd (t : ℕ) (delay : BitVec 32) (function : ℕ) (arg : Option ℕ) (now : BitVec 64)
  | periodicTimerAdd (t : ℕ) (period : BitVec 32) (function : ℕ) (arg : Option ℕ)
      (now : BitVec 64)
  | timerDelete (t : ℕ)
  | timerTick (now : BitVec 64)
  /-- The tick goes on to the timer it is at. -/
  | loop
  /-- The callback of the tick returns. -/
  | ret (reschedule : Bool)
  deriving DecidableEq, Repr

/-- Callers and callbacks may use the timers: the tick is not in its own code. -/
def TimerSys.free (s : TimerSys) : Bool := s.tick.all fun k => k.running.isSome

/-- One step. -/
def timerStep (s : TimerSys) : Event → Option TimerSys
  | .oneshotTimerAdd t delay function arg now =>
    if s.free ∧ t < s.size then Timers.oneshotTimerAdd s t delay (some function) arg now else none
  | .periodicTimerAdd t period function arg now =>
    if s.free ∧ t < s.size then Timers.periodicTimerAdd s t period (some function) arg now
    else none
  | .timerDelete t => if s.free ∧ t < s.size then Timers.timerDelete s t else none
  | .timerTick now => if s.tick = none then Timers.timerTick s now else none
  | .loop =>
    match s.tick with
    | some k => if k.running = none then tickLoop s k else none
    | none => none
  | .ret reschedule =>
    match s.tick with
    | some ⟨now, .timer t, tmp, some period⟩ =>
      tickReturn s ⟨now, .timer t, tmp, some period⟩ t period reschedule
    | _ => none

/-- `n` timers after `init_timer_value` and an empty list. -/
def timerBoot (n : ℕ) : TimerSys where
  size := n
  links := { next := some, prev := some }
  timer := fun _ => .init
  firstTime := true
  tick := none
  armed := fun _ => false

/-! ### The properties -/

/-- The timer is on the list. -/
def OnList (s : TimerSys) (t : ℕ) : Prop :=
  ∃ ts : List ℕ, Ring s.links .head (ts.map .timer) ∧ t ∈ ts

/-- `timer_list` is a circle that holds each armed timer once. -/
def WellFormed (s : TimerSys) : Prop :=
  ∃ ts : List ℕ, Ring s.links .head (ts.map .timer) ∧ ∀ t, t ∈ ts ↔ s.armed t = true

/-- The timer whose callback a step runs. -/
def calls (s : TimerSys) : Event → Option ℕ
  | .loop =>
    match s.tick with
    | some ⟨now, .timer t, _, none⟩ => if due s now t then some t else none
    | _ => none
  | _ => none

/-- The timer whose entry a step unlinks. -/
def unlinks (s : TimerSys) : Event → Option ℕ
  | .timerDelete t => if s.free ∧ t < s.size ∧ ¬ s.links.listEmpty (.timer t) then some t else none
  | e => calls s e

/-- The step unlinks only an entry that is linked and calls back only for an armed timer. -/
def SafeTimerStep (s : TimerSys) (e : Event) : Prop :=
  (∀ t ∈ unlinks s e, OnList s t) ∧ ∀ t ∈ calls s e, s.armed t = true

/-- The steps the code is right for: a timer that is added is not armed; one that is deleted
has not fired since it was added or initialised last; and when a callback returns, its own
timer has no period or was added again, and the timer the tick goes on to is still armed or
has not expired. -/
def TimerGuard (s : TimerSys) : Event → Prop
  | .oneshotTimerAdd t _ _ _ _ => s.armed t = false
  | .periodicTimerAdd t _ _ _ _ => s.armed t = false
  | .timerDelete t => s.links.next (.timer t) ≠ none
  | .timerTick _ => True
  | .loop => True
  | .ret reschedule =>
    ∀ k ∈ s.tick, (∀ t ∈ k.pos.timer?, k.running = some 0 ∨ s.armed t = true) ∧
      (reschedule = false → ∀ u ∈ k.tmp.bind Node.timer?,
        s.armed u = true ∨ due s k.now u = false)

instance (s : TimerSys) : ∀ e, Decidable (TimerGuard s e)
  | .oneshotTimerAdd _ _ _ _ _ => inferInstanceAs (Decidable (_ = _))
  | .periodicTimerAdd _ _ _ _ _ => inferInstanceAs (Decidable (_ = _))
  | .timerDelete _ => inferInstanceAs (Decidable (_ ≠ _))
  | .timerTick _ => isTrue trivial
  | .loop => isTrue trivial
  | .ret _ => inferInstanceAs (Decidable (∀ k ∈ s.tick, _))

/-! ### The list -/

/-- The invariant of the list: it holds the armed timers `ts`. -/
structure ListInv (s : TimerSys) (ts : List ℕ) : Prop where
  ring : Ring s.links .head (ts.map .timer)
  armed : ∀ t, t ∈ ts ↔ s.armed t = true
  lt : ∀ t ∈ ts, t < s.size
  function : ∀ t ∈ ts, (s.timer t).function ≠ none
  /-- The entry of a timer that is not armed has null pointers or is linked to itself. -/
  entry : ∀ t, t ∉ ts → s.links.next (.timer t) = none ∨ s.links.next (.timer t) = some (.timer t)

section List

variable {s : TimerSys} {ts : List ℕ}

theorem node_mem {t : ℕ} : (Node.timer t ∈ Node.head :: ts.map .timer) ↔ t ∈ ts := by
  simp

theorem timer_map_injective : Function.Injective (List.map Node.timer) :=
  List.map_injective_iff.mpr fun _ _ h => Node.timer.inj h

/-- The timers `ts` are on the list, in this order. -/
structure Linked (s : TimerSys) (ts : List ℕ) : Prop where
  ring : Ring s.links .head (ts.map .timer)
  lt : ∀ t ∈ ts, t < s.size
  /-- The entry of a timer that is not on the list has null pointers or is linked to itself. -/
  entry : ∀ t, t ∉ ts → s.links.next (.timer t) = none ∨ s.links.next (.timer t) = some (.timer t)

theorem ListInv.linked (h : ListInv s ts) : Linked s ts := ⟨h.ring, h.lt, h.entry⟩

theorem Linked.listInv (h : Linked s ts) (harmed : ∀ t, t ∈ ts ↔ s.armed t = true)
    (hfun : ∀ t ∈ ts, (s.timer t).function ≠ none) : ListInv s ts :=
  ⟨h.ring, harmed, h.lt, hfun, h.entry⟩

theorem Linked.nodup (h : Linked s ts) : ts.Nodup := (List.nodup_cons.mp h.ring.nodup).2.of_map

theorem ListInv.nodup (h : ListInv s ts) : ts.Nodup := h.linked.nodup

/-- The list is not longer than there are timers. -/
theorem length_le_size (hr : Ring s.links .head (ts.map .timer)) (hlt : ∀ t ∈ ts, t < s.size) :
    ts.length ≤ s.size := by
  have hnodup : ts.Nodup := (List.nodup_cons.mp hr.nodup).2.of_map
  have hsub : ts ⊆ List.range s.size := fun t ht => List.mem_range.mpr (hlt t ht)
  simpa using (hnodup.subperm hsub).length_le

/-- The walk along the list ends at its first entry that meets `p`, or at its end. -/
theorem findPlace_eq {l : Links Node} {p : ℕ → Bool} {as bs : List ℕ} {fuel : ℕ}
    (hr : Ring l .head ((as ++ bs).map Node.timer)) (hfuel : bs.length < fuel) :
    findPlace l p fuel ((bs.map Node.timer ++ [Node.head]).head?) =
      some ((bs.find? p).map Node.timer) := by
  induction bs generalizing as fuel with
  | nil =>
    obtain ⟨f, rfl⟩ := Nat.exists_eq_succ_of_ne_zero (Nat.ne_of_gt hfuel)
    rfl
  | cons b bs ih =>
    obtain ⟨f, rfl⟩ := Nat.exists_eq_succ_of_ne_zero (Nat.ne_of_gt (Nat.zero_lt_of_lt hfuel))
    simp only [List.map_cons, List.cons_append, List.head?_cons, findPlace]
    by_cases hb : p b = true
    · rw [if_pos hb, List.find?_cons_of_pos hb]
      rfl
    · rw [if_neg hb, List.find?_cons_of_neg hb]
      have hnext : l.next (.timer b) = (bs.map Node.timer ++ [Node.head]).head? := by
        have hsplit : Ring l .head (as.map Node.timer ++ .timer b :: bs.map .timer) := by simpa using hr
        exact hsplit.next_mem
      have hr' : Ring l .head ((as ++ [b] ++ bs).map .timer) := by simpa using hr
      rw [hnext]
      exact ih hr' (Nat.lt_of_succ_lt_succ hfuel)

/-- The timers that `timer_list_add` of `t` stops at. -/
def expiresBefore (s : TimerSys) (t i : ℕ) : Bool :=
  (s.timer i).expiredTime < (s.timer t).expiredTime

/-- `timer_list_add` of a timer that is not on the list. -/
theorem timerListAdd_spec {t : ℕ} (hr : Ring s.links .head (ts.map .timer))
    (hlen : ts.length ≤ s.size) (ht : t ∉ ts) :
    ∃ l', timerListAdd s t = some l' ∧
      Ring l' .head ((Lists.insertAfter (expiresBefore s t) t ts).map .timer) ∧
      Frame s.links l' (.timer t) (.head :: ts.map .timer) := by
  have hn : Node.timer t ∉ Node.head :: ts.map .timer := fun h => ht (node_mem.mp h)
  unfold timerListAdd
  by_cases hempty : s.links.listEmpty .head = true
  · rw [if_pos hempty]
    obtain rfl : ts = [] := by
      cases ts with
      | nil => rfl
      | cons i is =>
        have hhead := (of_decide_eq_true hempty).symm.trans hr.next_head
        cases Option.some.inj hhead
    obtain ⟨l', hl', hr', hf⟩ := hr.listAdd_head hn
    exact ⟨l', hl', hr', hf⟩
  · rw [if_neg hempty, hr.next_head]
    have hwhole : Ring s.links .head (([] ++ ts).map Node.timer) := hr
    rw [findPlace_eq hwhole (show ts.length < s.size + 1 from Nat.lt_succ_of_le hlen),
      Option.bind_some]
    cases hplace : ts.find? (expiresBefore s t) with
    -- no timer expires before, and the entry goes to the end
    | none =>
      rw [show ts.find? (fun i => decide ((s.timer i).expiredTime < (s.timer t).expiredTime)) = none
        from hplace]
      obtain ⟨l', hl', hr', hf⟩ := hr.listAddTail hn
      have hmiss : ∀ i ∈ ts, expiresBefore s t i = false := fun i hi =>
        Bool.eq_false_iff.mpr (List.find?_eq_none.mp hplace i hi)
      refine ⟨l', hl', ?_, hf⟩
      rw [Lists.insertAfter_eq_append hmiss]
      simpa using hr'
    -- the entry goes behind the first timer that expires before
    | some i =>
      rw [show ts.find? (fun i => decide ((s.timer i).expiredTime < (s.timer t).expiredTime)) =
        some i from hplace]
      obtain ⟨hi, as, bs, rfl, hmiss⟩ := List.find?_eq_some_iff_append.mp hplace
      rw [List.map_append, List.map_cons] at hr hn ⊢
      obtain ⟨l', hl', hr', hf⟩ := hr.listAdd_mem hn
      refine ⟨l', hl', ?_, hf⟩
      rw [Lists.insertAfter_split _ (fun c hc => by simpa using hmiss c hc) hi]
      simpa using hr'

/-- `timer_list_add` of a timer that is on the list already puts its entry between another node of
the list and the one after that. -/
theorem timerListAdd_again {t : ℕ} (hr : Ring s.links .head (ts.map .timer))
    (hlen : ts.length ≤ s.size) (ht : t ∈ ts) :
    ∃ a ∈ Node.head :: ts.map .timer, ∃ b, s.links.next a = some b ∧
      timerListAdd s t = some (s.links.insert (.timer t) a b) := by
  have hempty : ¬ s.links.listEmpty .head = true := by
    intro he
    cases ts with
    | nil => cases ht
    | cons i is =>
      have hhead := (of_decide_eq_true he).symm.trans hr.next_head
      cases Option.some.inj hhead
  unfold timerListAdd
  have hwhole : Ring s.links .head (([] ++ ts).map Node.timer) := hr
  rw [if_neg hempty, hr.next_head,
    findPlace_eq hwhole (show ts.length < s.size + 1 from Nat.lt_succ_of_le hlen), Option.bind_some]
  cases hplace : ts.find? fun i => decide ((s.timer i).expiredTime < (s.timer t).expiredTime) with
  | none =>
    obtain ⟨a, ha, hnext, hprev⟩ := hr.exists_next_eq List.mem_cons_self
    refine ⟨a, ha, .head, hnext, ?_⟩
    simp [listAddTail, hprev]
  | some i =>
    have hi : Node.timer i ∈ Node.head :: ts.map .timer := node_mem.mpr (List.mem_of_find?_eq_some hplace)
    obtain ⟨b, hnext, -⟩ := hr.prev_next hi
    refine ⟨.timer i, hi, b, hnext, ?_⟩
    simp [listAdd, hnext]

/-- Which entries are null does not change where only `t` is linked or unlinked. -/
theorem null_iff_of_frame {l l' : Links Node} {ts ts' : List ℕ} {t u : ℕ}
    (hr : Ring l .head (ts.map .timer)) (hr' : Ring l' .head (ts'.map .timer))
    (hmem : u ∈ ts' ↔ u ∈ ts) (hf : Frame l l' (.timer t) (.head :: ts.map .timer)) (hu : u ≠ t) :
    l'.next (.timer u) = none ↔ l.next (.timer u) = none := by
  by_cases hts : u ∈ ts
  · exact iff_of_false (hr'.next_ne (List.mem_map_of_mem (hmem.mpr hts))).1
      (hr.next_ne (List.mem_map_of_mem hts)).1
  · rw [(hf (.timer u) (fun e => hu (by injection e)) fun hm => hts (node_mem.mp hm)).1]

/-- What `timer_add` and `timer_delete` of `t` do besides linking and unlinking: the timer gets
the fields `x`, and no other entry becomes null or ceases to be. -/
structure Changes (s s' : TimerSys) (t : ℕ) (x : Timer) (armed : Bool) : Prop where
  size : s'.size = s.size
  tick : s'.tick = s.tick
  firstTime : s'.firstTime = s.firstTime
  timer : s'.timer = Function.update s.timer t x
  armed : s'.armed = Function.update s.armed t armed
  null : ∀ u, u ≠ t → (s'.links.next (.timer u) = none ↔ s.links.next (.timer u) = none)
  self : s'.links.next (.timer t) ≠ none

theorem Changes.next {s s' : TimerSys} {t : ℕ} {x : Timer} {armed : Bool}
    (h : Changes s s' t x armed) {u : ℕ} (hu : s.links.next (.timer u) ≠ none) :
    s'.links.next (.timer u) ≠ none := by
  by_cases hut : u = t
  · exact hut ▸ h.self
  · exact (not_congr (h.null u hut)).mpr hu

/-- Linking a timer. -/
theorem Linked.link (s' : TimerSys) {t : ℕ} {p : ℕ → Bool} (h : Linked s ts) (hlt : t < s.size)
    (hsize : s'.size = s.size) (hr : Ring s'.links .head ((Lists.insertAfter p t ts).map .timer))
    (hf : Frame s.links s'.links (.timer t) (.head :: ts.map .timer)) :
    Linked s' (Lists.insertAfter p t ts) ∧
      (∀ u, u ≠ t → (s'.links.next (.timer u) = none ↔ s.links.next (.timer u) = none)) ∧
      s'.links.next (.timer t) ≠ none := by
  have hself : t ∈ Lists.insertAfter p t ts := Lists.mem_insertAfter.mpr (Or.inl rfl)
  refine ⟨⟨hr, fun u hu => ?_, fun u hu => ?_⟩, fun u hut => ?_,
    (hr.next_ne (List.mem_map_of_mem hself)).1⟩
  · rw [hsize]
    rcases Lists.mem_insertAfter.mp hu with rfl | hu
    · exact hlt
    · exact h.lt u hu
  · rw [Lists.mem_insertAfter, not_or] at hu
    rw [(hf (.timer u) (fun e => hu.1 (by injection e)) fun hm => hu.2 (node_mem.mp hm)).1]
    exact h.entry u hu.2
  · refine null_iff_of_frame h.ring hr ?_ hf hut
    rw [Lists.mem_insertAfter]
    exact or_iff_right hut

/-- Adding a timer that is not on the list. -/
theorem Linked.timerAdd {t : ℕ} (delay period : BitVec 32) (function arg : Option ℕ)
    (now : BitVec 64) (h : Linked s ts) (ht : t ∉ ts) (hlt : t < s.size) :
    ∃ s', timerAdd s t delay period function arg now = some s' ∧
      Linked s' (Lists.insertAfter (expiresBefore s' t) t ts) ∧
      Changes s s' t ⟨now.setWidth 32 + delay, period, function, arg⟩ true := by
  unfold Timers.timerAdd
  obtain ⟨l', hl', hr', hf⟩ := timerListAdd_spec (t := t)
    (s := s.setTimer t ⟨now.setWidth 32 + delay, period, function, arg⟩) h.ring
    (length_le_size h.ring h.lt) ht
  dsimp only
  rw [hl', Option.map_some]
  obtain ⟨hlinked, hnull, hself⟩ := h.link ({ s.setTimer t ⟨now.setWidth 32 + delay, period,
    function, arg⟩ with links := l', armed := Function.update s.armed t true }) hlt rfl hr' hf
  exact ⟨_, rfl, hlinked, rfl, rfl, rfl, rfl, rfl, hnull, hself⟩

/-- Adding a timer that is not armed. -/
theorem ListInv.timerAdd {t : ℕ} (delay period : BitVec 32) (function : ℕ) (arg : Option ℕ)
    (now : BitVec 64) (h : ListInv s ts) (ht : t ∉ ts) (hlt : t < s.size) :
    ∃ (s' : TimerSys) (ts' : List ℕ), timerAdd s t delay period (some function) arg now = some s' ∧
      ListInv s' ts' ∧ Changes s s' t ⟨now.setWidth 32 + delay, period, some function, arg⟩ true := by
  obtain ⟨s', hs', hlinked, hch⟩ := h.linked.timerAdd delay period (some function) arg now ht hlt
  refine ⟨s', _, hs', hlinked.listInv (fun u => ?_) (fun u hu => ?_), hch⟩
  · rw [Lists.mem_insertAfter, hch.armed]
    by_cases hu : u = t
    · simp [hu]
    · rw [Function.update_of_ne hu, ← h.armed u]
      tauto
  · rw [hch.timer]
    by_cases hut : u = t
    · simp [hut]
    · rw [Function.update_of_ne hut]
      exact h.function u ((Lists.mem_insertAfter.mp hu).resolve_left hut)

/-- A timer is on the list exactly when its entry is linked to another one. -/
theorem Linked.listEmpty_iff (h : Linked s ts) {t : ℕ}
    (hne : s.links.next (.timer t) ≠ none) : s.links.listEmpty (.timer t) = true ↔ t ∉ ts := by
  unfold Links.listEmpty
  rw [decide_eq_true_eq]
  constructor
  · intro hself hmem
    exact (h.ring.next_ne (List.mem_map_of_mem hmem)).2 hself
  · intro hmem
    exact (h.entry t hmem).resolve_left hne

/-- Unlinking an entry leaves the entries of the timers that are not on the list alone. -/
theorem next_eq_of_frame {l' : Links Node} {as bs : List ℕ} {t u : ℕ}
    (hf : Frame s.links l' (.timer t) (.head :: (as.map .timer ++ .timer t :: bs.map .timer)))
    (hut : u ≠ t) (hu : u ∉ as ++ t :: bs) : l'.next (.timer u) = s.links.next (.timer u) := by
  refine (hf (.timer u) (fun e => hut (by injection e)) fun hm => hu ?_).1
  rw [← List.map_cons (f := Node.timer), ← List.map_append] at hm
  exact node_mem.mp hm

/-- The list without one of its timers, after either kind of unlinking. -/
theorem Linked.unlink (s' : TimerSys) {as bs : List ℕ} {t : ℕ} (h : Linked s (as ++ t :: bs))
    (hr : Ring s'.links .head ((as ++ bs).map .timer))
    (hentry : s'.links.next (.timer t) = none ∨ s'.links.next (.timer t) = some (.timer t))
    (hf : Frame s.links s'.links (.timer t) (.head :: (as.map .timer ++ .timer t :: bs.map .timer)))
    (hsize : s'.size = s.size) : Linked s' (as ++ bs) := by
  have hback : ∀ u, u ∈ as ++ bs ↔ u ≠ t ∧ u ∈ as ++ t :: bs := fun u =>
    Lists.mem_append_of_nodup h.nodup
  refine ⟨hr, ?_, ?_⟩
  · intro u hu
    rw [hsize]
    exact h.lt u ((hback u).mp hu).2
  · intro u hu
    by_cases hut : u = t
    · rw [hut]
      exact hentry
    · have hu' : u ∉ as ++ t :: bs := fun hm => hu ((hback u).mpr ⟨hut, hm⟩)
      rw [next_eq_of_frame hf hut hu']
      exact h.entry u hu'

/-- The armed timers without one of them. -/
theorem ListInv.unlink {s' : TimerSys} {as bs : List ℕ} {t : ℕ} (h : ListInv s (as ++ t :: bs))
    (hlinked : Linked s' (as ++ bs)) (harmed : s'.armed = Function.update s.armed t false)
    (htimer : ∀ u, u ≠ t → s'.timer u = s.timer u) : ListInv s' (as ++ bs) := by
  have hback : ∀ u, u ∈ as ++ bs ↔ u ≠ t ∧ u ∈ as ++ t :: bs := fun u =>
    Lists.mem_append_of_nodup h.nodup
  apply hlinked.listInv
  · intro u
    rw [hback, harmed]
    by_cases hut : u = t
    · simp [hut]
    · rw [Function.update_of_ne hut, ← h.armed u]
      tauto
  · intro u hu
    obtain ⟨hut, hu⟩ := (hback u).mp hu
    rw [htimer u hut]
    exact h.function u hu

/-- `timer_delete` of a timer on the list. -/
theorem Linked.timerDelete_mem {as bs : List ℕ} {t : ℕ} (h : Linked s (as ++ t :: bs)) :
    ∃ s', timerDelete s t = some s' ∧ Linked s' (as ++ bs) ∧
      s'.links.next (.timer t) = some (.timer t) ∧ Changes s s' t .init false := by
  unfold Timers.timerDelete
  have hmem : t ∈ as ++ t :: bs := List.mem_append_right as List.mem_cons_self
  have hne := (h.ring.next_ne (List.mem_map_of_mem hmem)).1
  have hempty : ¬ s.links.listEmpty (.timer t) = true := fun he => (h.listEmpty_iff hne).mp he hmem
  have hring := h.ring
  rw [List.map_append, List.map_cons] at hring
  obtain ⟨l', hl', hr', hself, -, hf⟩ := hring.listDelInit
  rw [← List.map_append] at hr'
  rw [if_neg hempty, hl', Option.map_some]
  refine ⟨_, rfl, h.unlink _ hr' (Or.inr hself) hf rfl, hself, rfl, rfl, rfl, rfl, rfl, fun u hut => ?_,
    (congrArg (· ≠ none) hself).mpr (Option.some_ne_none _)⟩
  rw [← List.map_cons, ← List.map_append] at hf
  exact null_iff_of_frame h.ring hr' ((Lists.mem_append_of_nodup h.nodup).trans (and_iff_right hut))
    hf hut

/-- `timer_delete` of a timer that is not on the list and has not fired. -/
theorem Linked.timerDelete_not_mem {t : ℕ} (h : Linked s ts) (ht : t ∉ ts)
    (hne : s.links.next (.timer t) ≠ none) :
    ∃ s', timerDelete s t = some s' ∧ Linked s' ts ∧ s'.links = s.links ∧
      Changes s s' t .init false := by
  unfold Timers.timerDelete
  rw [if_pos ((h.listEmpty_iff hne).mpr ht), Option.map_some]
  exact ⟨_, rfl, ⟨h.ring, h.lt, h.entry⟩, rfl, rfl, rfl, rfl, rfl, rfl, fun _ _ => Iff.rfl, hne⟩

/-- Deleting a timer that has not fired. -/
theorem ListInv.timerDelete {t : ℕ} (h : ListInv s ts) (hne : s.links.next (.timer t) ≠ none) :
    ∃ (s' : TimerSys) (ts' : List ℕ), timerDelete s t = some s' ∧ ListInv s' ts' ∧
      Changes s s' t .init false := by
  by_cases hmem : t ∈ ts
  · obtain ⟨as, bs, rfl⟩ := List.append_of_mem hmem
    obtain ⟨s', hs', hlinked, -, hch⟩ := h.linked.timerDelete_mem
    refine ⟨s', as ++ bs, hs', h.unlink hlinked hch.armed fun u hu => ?_, hch⟩
    rw [hch.timer, Function.update_of_ne hu]
  · obtain ⟨s', hs', hlinked, -, hch⟩ := h.linked.timerDelete_not_mem hmem hne
    refine ⟨s', ts, hs', hlinked.listInv (fun u => ?_) (fun u hu => ?_), hch⟩
    · rw [hch.armed]
      by_cases hut : u = t
      · simp [hut, hmem]
      · rw [Function.update_of_ne hut]
        exact h.armed u
    · have hut : u ≠ t := fun e => hmem (e ▸ hu)
      rw [hch.timer, Function.update_of_ne hut]
      exact h.function u hu

/-- The node a list of timers starts with, at the end of `timer_list`. -/
def nodeAt : List ℕ → Node
  | [] => .head
  | t :: _ => .timer t

theorem mem_of_nodeAt {t : ℕ} (h : nodeAt ts = .timer t) : t ∈ ts := by
  cases ts with
  | nil => cases h
  | cons u us =>
    obtain rfl := Node.timer.inj h
    exact List.mem_cons_self

theorem Linked.next_head (h : Linked s ts) : s.links.next .head = some (nodeAt ts) := by
  rw [h.ring.next_head]
  cases ts <;> rfl

theorem Linked.next_eq {t : ℕ} {as bs : List ℕ} (h : Linked s (as ++ t :: bs)) :
    s.links.next (.timer t) = some (nodeAt bs) := by
  have hr := h.ring
  rw [List.map_append, List.map_cons] at hr
  rw [hr.next_mem]
  cases bs <;> rfl

/-- The loop of `timer_tick` unlinks a timer of the list that has expired.  The next one stays
linked. -/
theorem Linked.fire {t : ℕ} {as bs : List ℕ} {k : Tick} (h : Linked s (as ++ t :: bs))
    (hk : k.pos = .timer t) (hdue : due s k.now t = true) (hfun : (s.timer t).function ≠ none) :
    ∃ s', tickLoop s k = some s' ∧ s'.size = s.size ∧ s'.timer = s.timer ∧
      s'.tick = some { k with running := some (s.timer t).periodicTime } ∧
      s'.armed = Function.update s.armed t false ∧ Linked s' (as ++ bs) ∧
      s'.links.next (.timer t) = none ∧
      (∀ u, u ≠ t → (s'.links.next (.timer u) = none ↔ s.links.next (.timer u) = none)) ∧
      ∀ u, nodeAt bs = .timer u → s'.links.next (.timer u) ≠ none := by
  have hring := h.ring
  rw [List.map_append, List.map_cons] at hring
  obtain ⟨l', hl', hr', hnull, -, hf⟩ := hring.listDel
  obtain ⟨f, hfun'⟩ := Option.ne_none_iff_exists'.mp hfun
  rw [← List.map_append] at hr'
  unfold tickLoop
  rw [hk]
  dsimp only
  rw [if_pos hdue, hl', hfun']
  refine ⟨_, rfl, rfl, rfl, rfl, rfl, h.unlink _ hr' (Or.inl hnull) hf rfl, hnull, fun u hut => ?_,
    fun u hu => ?_⟩
  · rw [← List.map_cons, ← List.map_append] at hf
    exact null_iff_of_frame h.ring hr'
      ((Lists.mem_append_of_nodup h.nodup).trans (and_iff_right hut)) hf hut
  · -- the node after it is another one of the list
    exact (hr'.next_ne (List.mem_map_of_mem (List.mem_append_right as (mem_of_nodeAt hu)))).1

end List

/-! ### The tick -/

/-- The invariant of a tick: the timer it is at is armed or has not expired, and the one it
has kept for later has not fired. -/
structure TickInv (s : TimerSys) : Prop where
  loop : ∀ k, s.tick = some k → k.running = none → k.tmp = s.links.next k.pos ∧
    ∀ u, k.pos = .timer u → s.armed u = true ∨ due s k.now u = false
  callback : ∀ k p, s.tick = some k → k.running = some p → ∃ n, k.tmp = some n ∧
    ∀ u, n = .timer u → s.links.next (.timer u) ≠ none

theorem TickInv.of_idle {s : TimerSys} (htick : s.tick = none) : TickInv s := by
  refine ⟨?_, ?_⟩
  · intro k hk
    cases htick.symm.trans hk
  · intro k p hk
    cases htick.symm.trans hk

/-- The invariant of the timers. -/
def TimerInv (s : TimerSys) : Prop := (∃ ts, ListInv s ts) ∧ TickInv s

theorem listInv_boot (n : ℕ) : ListInv (timerBoot n) [] := by
  refine ⟨?_, by simp [timerBoot], nofun, nofun, fun t _ => Or.inr rfl⟩
  exact ⟨List.nodup_singleton _, fun p hp => by rw [List.mem_singleton.mp hp]; rfl,
    fun p hp => by rw [List.mem_singleton.mp hp]; rfl⟩

theorem timerInv_boot (n : ℕ) : TimerInv (timerBoot n) := ⟨⟨[], listInv_boot n⟩, .of_idle rfl⟩

section Steps

variable {s s' : TimerSys}

/-- What callers and callbacks do leaves the tick as it is. -/
theorem TickInv.of_free (h : TickInv s) (hfree : s.free = true) (htick : s'.tick = s.tick)
    (hnext : ∀ u, s.links.next (.timer u) ≠ none → s'.links.next (.timer u) ≠ none) :
    TickInv s' where
  loop k hk hrun := by
    rw [htick] at hk
    rw [TimerSys.free, hk] at hfree
    simp [hrun] at hfree
  callback k p hk hrun := by
    rw [htick] at hk
    obtain ⟨n, hn, hu⟩ := h.callback k p hk hrun
    exact ⟨n, hn, fun u hnu => hnext u (hu u hnu)⟩

theorem timerInv_add {t : ℕ} {delay period : BitVec 32} {function : ℕ} {arg : Option ℕ}
    {now : BitVec 64} (h : TimerInv s) (hfree : s.free = true) (hlt : t < s.size)
    (hguard : s.armed t = false)
    (hs : timerAdd s t delay period (some function) arg now = some s') : TimerInv s' := by
  obtain ⟨⟨ts, hlist⟩, htick⟩ := h
  have ht : t ∉ ts := fun hm => by
    rw [(hlist.armed t).mp hm] at hguard
    cases hguard
  obtain ⟨s₁, ts', hs₁, hlist', hch⟩ := hlist.timerAdd delay period function arg now ht hlt
  obtain rfl : s₁ = s' := Option.some.inj (hs₁.symm.trans hs)
  exact ⟨⟨ts', hlist'⟩, htick.of_free hfree hch.tick fun u => hch.next⟩

theorem timerInv_delete {t : ℕ} (h : TimerInv s) (hfree : s.free = true)
    (hguard : s.links.next (.timer t) ≠ none) (hs : timerDelete s t = some s') : TimerInv s' := by
  obtain ⟨⟨ts, hlist⟩, htick⟩ := h
  obtain ⟨s₁, ts', hs₁, hlist', hch⟩ := hlist.timerDelete hguard
  obtain rfl : s₁ = s' := Option.some.inj (hs₁.symm.trans hs)
  exact ⟨⟨ts', hlist'⟩, htick.of_free hfree hch.tick fun u => hch.next⟩

theorem timerInv_tick {now : BitVec 64} (h : TimerInv s) (htick : s.tick = none)
    (hs : timerTick s now = some s') : TimerInv s' := by
  obtain ⟨⟨ts, hlist⟩, hk⟩ := h
  unfold timerTick at hs
  split at hs
  · obtain rfl := Option.some.inj hs
    have hnone : ∀ k, s.tick = some k → False := fun k hk => by
      rw [htick] at hk
      cases hk
    exact ⟨⟨ts, hlist.ring, hlist.armed, hlist.lt, hlist.function, hlist.entry⟩,
      fun k hk _ => (hnone k hk).elim, fun k _ hk _ => (hnone k hk).elim⟩
  · obtain ⟨pos, hpos, rfl⟩ := Option.map_eq_some_iff.mp hs
    refine ⟨⟨ts, hlist.ring, hlist.armed, hlist.lt, hlist.function, hlist.entry⟩, ?_, ?_⟩
    · intro k hk _
      obtain rfl := Option.some.inj hk
      refine ⟨rfl, fun u hu => Or.inl ?_⟩
      obtain rfl := Option.some.inj (hpos.symm.trans hlist.linked.next_head)
      exact (hlist.armed u).mp (mem_of_nodeAt hu)
    · intro k p hk hrun
      obtain rfl := Option.some.inj hk
      cases hrun

/-- A tick at a timer that has expired: the timer is armed. -/
theorem TickInv.armed_of_calls (h : TickInv s) {t : ℕ} (ht : t ∈ calls s .loop) :
    s.armed t = true := by
  simp only [calls] at ht
  split at ht
  · next now u tmp hk =>
    obtain ⟨hdue, ht⟩ := Option.ite_none_right_eq_some.mp ht
    obtain rfl := Option.some.inj ht
    refine ((h.loop _ hk rfl).2 u rfl).resolve_right ?_
    intro hnot
    rw [hdue] at hnot
    cases hnot
  · cases ht

/-- The tick ends. -/
theorem TimerInv.endTick (h : TimerInv s) : TimerInv { s with tick := none } := by
  obtain ⟨⟨ts, hlist⟩, -⟩ := h
  exact ⟨⟨ts, hlist.ring, hlist.armed, hlist.lt, hlist.function, hlist.entry⟩, .of_idle rfl⟩

/-- The loop ends, or it is at a timer that has expired and has a function. -/
theorem tickLoop_cases {k : Tick} (hs : tickLoop s k = some s') :
    s' = { s with tick := none } ∧ (∀ t, k.pos = .timer t → due s k.now t = false) ∨
      ∃ t, k.pos = .timer t ∧ due s k.now t = true ∧ (s.timer t).function ≠ none := by
  unfold tickLoop at hs
  split at hs
  · next hpos =>
    refine Or.inl ⟨(Option.some.inj hs).symm, ?_⟩
    intro t ht
    rw [hpos] at ht
    cases ht
  · next t hpos =>
    split at hs
    · next hdue =>
      split at hs
      · next hfun => exact Or.inr ⟨t, hpos, hdue, hfun ▸ Option.some_ne_none _⟩
      · cases hs
    · next hdue =>
      refine Or.inl ⟨(Option.some.inj hs).symm, ?_⟩
      intro u hu
      obtain rfl := Node.timer.inj (hpos.symm.trans hu)
      exact Bool.eq_false_iff.mpr hdue

theorem timerInv_loop {k : Tick} (h : TimerInv s) (hk : s.tick = some k) (hrun : k.running = none)
    (hs : tickLoop s k = some s') : TimerInv s' := by
  obtain ⟨htmp, hpos⟩ := h.2.loop k hk hrun
  rcases tickLoop_cases hs with ⟨rfl, -⟩ | ⟨t, ht, hdue, hfun⟩
  · exact h.endTick
  · -- the timer is armed, so its entry is linked
    obtain ⟨⟨ts, hlist⟩, htick⟩ := h
    have harmed : s.armed t = true := by
      refine (hpos t ht).resolve_right ?_
      intro hnot
      rw [hdue] at hnot
      cases hnot
    obtain ⟨as, bs, rfl⟩ := List.append_of_mem ((hlist.armed t).mpr harmed)
    obtain ⟨s₁, hs₁, -, htimer, htick₁, harmed₁, hlinked, -, -, hkept⟩ :=
      hlist.linked.fire ht hdue hfun
    obtain rfl : s₁ = s' := Option.some.inj (hs₁.symm.trans hs)
    refine ⟨⟨as ++ bs, hlist.unlink hlinked harmed₁ fun u _ => congrFun htimer u⟩, ?_, ?_⟩
    · intro k' hk' hrun'
      obtain rfl := Option.some.inj (htick₁.symm.trans hk')
      cases hrun'
    · intro k' p hk' _
      obtain rfl := Option.some.inj (htick₁.symm.trans hk')
      refine ⟨nodeAt bs, ?_, hkept⟩
      dsimp only
      rw [htmp, ht]
      exact hlist.linked.next_eq

theorem timerInv_return {now : BitVec 64} {t : ℕ} {tmp : Option Node} {period : BitVec 32}
    {reschedule : Bool} (h : TimerInv s) (hk : s.tick = some ⟨now, .timer t, tmp, some period⟩)
    (hguard : TimerGuard s (.ret reschedule))
    (hs : tickReturn s ⟨now, .timer t, tmp, some period⟩ t period reschedule = some s') :
    TimerInv s' := by
  obtain ⟨hperiod, hnext⟩ := hguard _ hk
  replace hperiod : period = 0 ∨ s.armed t = true := (hperiod t rfl).imp_left Option.some.inj
  have hupd : Function.update s.armed t (s.armed t || decide (period ≠ 0)) = s.armed := by
    rcases hperiod with rfl | harmed
    · simp
    · rw [harmed, Bool.true_or, ← harmed, Function.update_eq_self]
  unfold tickReturn at hs
  simp only [hupd] at hs
  split at hs
  · obtain rfl := Option.some.inj hs
    exact h.endTick
  · next hre =>
    obtain ⟨⟨ts, hlist⟩, htick⟩ := h
    -- the code takes the entry of a timer that has fired for a linked one
    have hno : ¬ (period ≠ 0 ∧ s.links.listEmpty (.timer t) = true) := by
      rintro ⟨hp, hempty⟩
      have hmem := (hlist.armed t).mpr (hperiod.resolve_left hp)
      have hne := (hlist.ring.next_ne (List.mem_map_of_mem hmem)).1
      exact (hlist.linked.listEmpty_iff hne).mp hempty hmem
    rw [if_neg hno, Option.bind_some] at hs
    obtain ⟨n, rfl, rfl⟩ := Option.map_eq_some_iff.mp hs
    refine ⟨⟨ts, hlist.ring, hlist.armed, hlist.lt, hlist.function, hlist.entry⟩, ?_, ?_⟩
    · intro k hk' _
      obtain rfl := Option.some.inj hk'
      refine ⟨rfl, ?_⟩
      intro u hu
      dsimp only at hu
      subst hu
      exact hnext (by simpa using hre) u rfl
    · intro k p hk' hrun
      obtain rfl := Option.some.inj hk'
      cases hrun

/-- **Every guarded step keeps the invariant.** -/
theorem timerInv_step {e : Event} (h : TimerInv s) (hguard : TimerGuard s e)
    (hs : timerStep s e = some s') : TimerInv s' := by
  cases e with
  | oneshotTimerAdd t delay function arg now =>
    obtain ⟨⟨hfree, hlt⟩, hs⟩ := Option.ite_none_right_eq_some.mp hs
    exact timerInv_add h hfree hlt hguard hs
  | periodicTimerAdd t period function arg now =>
    obtain ⟨⟨hfree, hlt⟩, hs⟩ := Option.ite_none_right_eq_some.mp hs
    exact timerInv_add h hfree hlt hguard hs
  | timerDelete t =>
    obtain ⟨⟨hfree, -⟩, hs⟩ := Option.ite_none_right_eq_some.mp hs
    exact timerInv_delete h hfree hguard hs
  | timerTick now =>
    obtain ⟨htick, hs⟩ := Option.ite_none_right_eq_some.mp hs
    exact timerInv_tick h htick hs
  | loop =>
    simp only [timerStep] at hs
    split at hs
    · next k hk =>
      obtain ⟨hrun, hs⟩ := Option.ite_none_right_eq_some.mp hs
      exact timerInv_loop h hk hrun hs
    · cases hs
  | ret reschedule =>
    simp only [timerStep] at hs
    split at hs
    · next now t tmp period hk => exact timerInv_return h hk hguard hs
    · cases hs

theorem TimerInv.wellFormed (h : TimerInv s) : WellFormed s := by
  obtain ⟨⟨ts, hlist⟩, -⟩ := h
  exact ⟨ts, hlist.ring, hlist.armed⟩

theorem ListInv.onList {ts : List ℕ} (h : ListInv s ts) {t : ℕ} (ht : t ∈ ts) : OnList s t :=
  ⟨ts, h.ring, ht⟩

/-- A guarded step unlinks only what is linked and calls back only for armed timers. -/
theorem TimerInv.safe {e : Event} (h : TimerInv s) (hguard : TimerGuard s e) :
    SafeTimerStep s e := by
  obtain ⟨⟨ts, hlist⟩, htick⟩ := h
  have hcalls : ∀ e, ∀ t ∈ calls s e, s.armed t = true := by
    intro e t ht
    cases e with
    | loop => exact htick.armed_of_calls ht
    | _ => cases ht
  refine ⟨fun t ht => hlist.onList ?_, hcalls e⟩
  cases e with
  | timerDelete u =>
    obtain ⟨⟨-, -, hempty⟩, ht⟩ := Option.ite_none_right_eq_some.mp ht
    obtain rfl := Option.some.inj ht
    by_contra hmem
    exact hempty ((hlist.linked.listEmpty_iff hguard).mpr hmem)
  | loop => exact (hlist.armed t).mpr (hcalls .loop t ht)
  | _ => cases ht

end Steps

/-- **The timer list.**  In a run of guarded steps the list holds each armed timer once in
every state, and every step unlinks only entries that are linked and calls back only for
timers that are armed. -/
theorem timer_list_safe {n : ℕ} {es : List Event}
    (hguard : Run.Guarded timerStep TimerGuard (timerBoot n) es) :
    Run.Always timerStep WellFormed (timerBoot n) es ∧
      Run.Guarded timerStep SafeTimerStep (timerBoot n) es := by
  have hinv : Run.Always timerStep TimerInv (timerBoot n) es :=
    Run.always_of_guarded (fun s e s' h hg hs => timerInv_step h hg hs) (timerInv_boot n) hguard
  exact ⟨hinv.mono fun s h => h.wellFormed, hinv.guarded (fun s e h hg => h.safe hg) hguard⟩

/-- Three timers; the callback of the first deletes the last and adds its own again, the
callback of the second asks for a new pick. -/
def threeTimers : List Event :=
  [.timerTick 0, .oneshotTimerAdd 0 1 7 none 0, .oneshotTimerAdd 1 1 8 none 0,
    .oneshotTimerAdd 2 1 9 none 0, .timerTick 1, .loop, .timerDelete 2,
    .oneshotTimerAdd 0 5 7 none 1, .ret false, .loop, .ret true, .timerDelete 0]

theorem timer_list_safe_three :
    (Run.exec timerStep (timerBoot 3) threeTimers).isSome = true ∧
      Run.Always timerStep WellFormed (timerBoot 3) threeTimers ∧
      Run.Guarded timerStep SafeTimerStep (timerBoot 3) threeTimers := by
  constructor
  · decide +kernel
  · apply timer_list_safe
    decide +kernel

/-- A timer that has fired has null pointers, and `timer_delete` takes it for an armed one. -/
theorem timer_delete_fired :
    ¬ (∀ n es, Run.Always timerStep WellFormed (timerBoot n) es ∧
        Run.Guarded timerStep SafeTimerStep (timerBoot n) es) ∧
      ∃ s, Run.exec timerStep (timerBoot 1) [.timerTick 0, .oneshotTimerAdd 0 1 7 none 0,
          .timerTick 1, .loop, .ret false, .loop] = some s ∧
        unlinks s (.timerDelete 0) = some 0 ∧ s.links.next (.timer 0) = none ∧
        timerStep s (.timerDelete 0) = none := by
  have hrun : (Run.exec timerStep (timerBoot 1) [.timerTick 0, .oneshotTimerAdd 0 1 7 none 0,
      .timerTick 1, .loop, .ret false, .loop]).any (fun s =>
        decide (unlinks s (.timerDelete 0) = some 0 ∧ s.links.next (.timer 0) = none) &&
          (timerStep s (.timerDelete 0)).isNone) = true := by
    decide +kernel
  obtain ⟨s, hs, hbad⟩ := (Option.any_eq_true _ _).mp hrun
  obtain ⟨hbad, hstuck⟩ := Bool.and_eq_true_iff.mp hbad
  obtain ⟨hunlinks, hnull⟩ := of_decide_eq_true hbad
  refine ⟨fun hall => ?_, s, hs, hunlinks, hnull, Option.isNone_iff_eq_none.mp hstuck⟩
  have hsafe := (hall 1 ([.timerTick 0, .oneshotTimerAdd 0 1 7 none 0, .timerTick 1, .loop,
    .ret false, .loop] ++ [.timerDelete 0])).2.append hs
  obtain ⟨ts, hring, hmem⟩ := hsafe.1.1 0 hunlinks
  exact (hring.next_ne (List.mem_map_of_mem hmem)).1 hnull

end Timers

end YakOS
