import YakOS.Kernel.Timer

/-!
# A whole tick

`timer_tick` from its call to its return, with the callbacks it runs.  A callback leaves the
timers of others alone; its own timer, which the tick has just unlinked, it may add again and
delete.  What that does to the entry is followed by an `Entry`: the pointers that `list_del`
leaves are null, those of `timer_delete` lead back to the entry.

## Main definitions

* `OwnCall`, `Callback` — the calls a callback makes for its timer, and what it returns.
* `tickRun`, `timerTickRun` — the loop of `timer_tick`, and all of it.
* `Entry`, `entryAfter` — what has become of the entry of the timer that has fired.
* `TickContract` — what a tick is for.
* `TurnOk` — the condition on one callback of the batch.

## Main results

* `tickRun_turn` — one turn of the loop.
* `tickRun_stays`, `tickRun_stops` — what is left alone stays where it is, and nothing behind a
  timer that has not expired is called.
* `timer_tick_iff` — a tick meets its contract exactly when each callback of the batch meets the
  condition; `tick_stops_early` is one that does not.
-/

namespace YakOS

namespace Timers

open Links

/-! ### Callbacks -/

/-- A call that a callback makes for its own timer. -/
inductive OwnCall
  | oneshotTimerAdd (delay : BitVec 32) (function : ℕ) (arg : Option ℕ) (now : BitVec 64)
  | periodicTimerAdd (period : BitVec 32) (function : ℕ) (arg : Option ℕ) (now : BitVec 64)
  | timerDelete
  deriving DecidableEq, Repr

/-- The call, for the timer `t`. -/
def ownCall (t : ℕ) (s : TimerSys) : OwnCall → Option TimerSys
  | .oneshotTimerAdd delay function arg now => oneshotTimerAdd s t delay (some function) arg now
  | .periodicTimerAdd period function arg now => periodicTimerAdd s t period (some function) arg now
  | .timerDelete => timerDelete s t

/-- The calls of a callback. -/
def ownCalls (t : ℕ) : TimerSys → List OwnCall → Option TimerSys
  | s, [] => some s
  | s, c :: cs => (ownCall t s c).bind fun s' => ownCalls t s' cs

/-- The entry of the timer whose callback runs: unlinked by the tick, linked to itself, or on the
list again with an expiry time. -/
inductive Entry
  | fired
  | idle
  | armed (expiredTime : BitVec 32)
  deriving DecidableEq, Repr

/-- The call adds the timer. -/
def OwnCall.Adds : OwnCall → Prop
  | .timerDelete => False
  | _ => True

/-- What a call does to the entry.  `timer_delete` of a timer that has fired steps through a null
pointer. -/
def OwnCall.effect : OwnCall → Entry → Option Entry
  | .oneshotTimerAdd delay _ _ now, _ =>
    some (.armed (now.setWidth 32 + if delay = 0 then 1 else delay))
  | .periodicTimerAdd period _ _ now, _ =>
    some (.armed (now.setWidth 32 + if period = 0 then 1 else period))
  | .timerDelete, .fired => none
  | .timerDelete, _ => some .idle

/-- The entry after a sequence of calls. -/
def entryAfter : Entry → List OwnCall → Option Entry
  | e, [] => some e
  | e, c :: cs => (c.effect e).bind fun e' => entryAfter e' cs

/-- The timer is added only while it is not armed: otherwise `timer_add` reports an error. -/
def AddsUnarmed : Entry → List OwnCall → Prop
  | _, [] => True
  | e, c :: cs => (c.Adds → ∀ x, e ≠ .armed x) ∧ ∀ e' ∈ c.effect e, AddsUnarmed e' cs

/-- What a callback does when it is called. -/
structure Callback where
  own : List OwnCall
  /-- It returns `INT_RESCHEDULE`. -/
  reschedule : Bool
  unarmed : AddsUnarmed .fired own

/-! ### The tick -/

/-- The loop of `timer_tick`: the timers called, and whether `INT_RESCHEDULE` is returned.  What a
callback does may depend on those that were called before. -/
def tickRun (cb : List ℕ → ℕ → Callback) : ℕ → TimerSys → List ℕ → Option (TimerSys × List ℕ × Bool)
  | 0, _, _ => none
  | fuel + 1, s, called =>
    s.tick.bind fun k =>
      (tickLoop s k).bind fun s₁ =>
        match s₁.tick with
        | some ⟨now, .timer t, tmp, some period⟩ =>
          let c := cb called t
          (ownCalls t s₁ c.own).bind fun s₂ =>
            (tickReturn s₂ ⟨now, .timer t, tmp, some period⟩ t period c.reschedule).bind fun s₃ =>
              if c.reschedule then some (s₃, called ++ [t], true)
              else tickRun cb fuel s₃ (called ++ [t])
        | _ => some (s₁, called, false)

/-- `timer_tick`. -/
def timerTickRun (cb : List ℕ → ℕ → Callback) (fuel : ℕ) (s : TimerSys) (now : BitVec 64) :
    Option (TimerSys × List ℕ × Bool) :=
  (timerTick s now).bind fun s₁ =>
    if s.firstTime then some (s₁, [], true) else tickRun cb fuel s₁ []

/-! ### The calls of a callback -/

/-- Where the entry stands, the other timers of the list being `ts`. -/
def Entry.place (s : TimerSys) (t : ℕ) (ts : List ℕ) : Entry → List ℕ
  | .armed x => Lists.insertAfter (fun i => (s.timer i).expiredTime < x) t ts
  | _ => ts

/-- What the entry looks like. -/
def Entry.Shows (s : TimerSys) (t : ℕ) : Entry → Prop
  | .fired => s.links.next (.timer t) = none
  | .idle => s.links.next (.timer t) = some (.timer t)
  | .armed x => (s.timer t).expiredTime = x

/-- The callback of `t` has come from `s₀` to `s`, and the entry of `t` is `e`. -/
structure EntryAt (s₀ s : TimerSys) (t : ℕ) (ts : List ℕ) (e : Entry) : Prop where
  size : s.size = s₀.size
  others : ∀ u, u ≠ t → s.timer u = s₀.timer u
  linked : Linked s (e.place s₀ t ts)
  shows : e.Shows s t

variable {s₀ s s' : TimerSys} {t : ℕ} {ts : List ℕ} {e e' : Entry}

theorem mem_place {u : ℕ} : u ∈ e.place s t ts → u = t ∨ u ∈ ts := by
  intro hu
  cases e with
  | armed x => exact Lists.mem_insertAfter.mp hu
  | _ => exact Or.inr hu

/-- What is kept does not depend on the tick and on who is armed. -/
theorem EntryAt.congr (h : EntryAt s₀ s t ts e) (hsize : s'.size = s.size)
    (hlinks : s'.links = s.links) (htimer : s'.timer = s.timer) : EntryAt s₀ s' t ts e := by
  refine ⟨hsize.trans h.size, fun u hu => ?_, ⟨?_, fun u hu => ?_, fun u hu => ?_⟩, ?_⟩
  · rw [htimer]
    exact h.others u hu
  · rw [hlinks]
    exact h.linked.ring
  · rw [hsize]
    exact h.linked.lt u hu
  · rw [hlinks]
    exact h.linked.entry u hu
  · have hshows := h.shows
    unfold Entry.Shows at hshows ⊢
    rw [hlinks, htimer]
    exact hshows

/-- `timer_list_add`, from an entry that is not on the list; the fields of the timer are `y`. -/
theorem EntryAt.listAdd (y : Timer) (h : EntryAt s₀ s t ts e) (ht : t ∉ ts) (hlt : t < s₀.size)
    (he : ∀ x, e ≠ .armed x) :
    ∃ l, timerListAdd (s.setTimer t y) t = some l ∧
      EntryAt s₀ { s.setTimer t y with links := l } t ts (.armed y.expiredTime) := by
  have hlinked : Linked s ts := by
    cases e with
    | armed x => exact absurd rfl (he x)
    | fired => exact h.linked
    | idle => exact h.linked
  obtain ⟨l, hl, hr, hf⟩ := timerListAdd_spec (s := s.setTimer t y) hlinked.ring
    (length_le_size hlinked.ring hlinked.lt) ht
  have hothers : ∀ u, u ≠ t → (s.setTimer t y).timer u = s₀.timer u := by
    intro u hu
    exact (Function.update_of_ne hu _ _).trans (h.others u hu)
  have hself : (s.setTimer t y).timer t = y := Function.update_self _ _ _
  have hplace : Lists.insertAfter (expiresBefore (s.setTimer t y) t) t ts =
      (Entry.armed y.expiredTime).place s₀ t ts := by
    apply Lists.insertAfter_congr
    intro i hi
    have hit : i ≠ t := fun e => ht (e ▸ hi)
    rw [expiresBefore, hothers i hit, hself]
  obtain ⟨hl', -⟩ := hlinked.link { s.setTimer t y with links := l } (h.size ▸ hlt) rfl hr hf
  rw [hplace] at hl'
  exact ⟨l, hl, h.size, hothers, hl', congrArg Timer.expiredTime hself⟩

/-- Adding the timer, from an entry that is not on the list. -/
theorem EntryAt.add {delay period : BitVec 32} {function arg : Option ℕ} {now : BitVec 64}
    (h : EntryAt s₀ s t ts e) (ht : t ∉ ts) (hlt : t < s₀.size) (he : ∀ x, e ≠ .armed x) :
    ∃ s', timerAdd s t delay period function arg now = some s' ∧ s'.tick = s.tick ∧
      EntryAt s₀ s' t ts (.armed (now.setWidth 32 + delay)) := by
  obtain ⟨l, hl, h'⟩ := h.listAdd ⟨now.setWidth 32 + delay, period, function, arg⟩ ht hlt he
  unfold timerAdd
  dsimp only
  rw [hl, Option.map_some]
  exact ⟨_, rfl, rfl, h'.congr rfl rfl rfl⟩

/-- Deleting the timer, from an entry that has not the null pointers of a timer that has fired. -/
theorem EntryAt.delete (h : EntryAt s₀ s t ts e) (ht : t ∉ ts) (he : e ≠ .fired) :
    ∃ s', timerDelete s t = some s' ∧ s'.tick = s.tick ∧ EntryAt s₀ s' t ts .idle := by
  cases e with
  | fired => exact absurd rfl he
  | idle =>
    have hself : s.links.next (.timer t) = some (.timer t) := h.shows
    have hne : s.links.next (.timer t) ≠ none := by
      rw [hself]
      exact Option.some_ne_none _
    obtain ⟨s', hs', hl, hlinks, hch⟩ := Linked.timerDelete_not_mem h.linked ht hne
    refine ⟨s', hs', hch.tick, hch.size.trans h.size, ?_, hl, ?_⟩
    · intro u hu
      rw [hch.timer, Function.update_of_ne hu, h.others u hu]
    · show s'.links.next (.timer t) = some (.timer t)
      rw [hlinks]
      exact hself
  | armed x =>
    obtain ⟨as, bs, hsplit, rfl⟩ := Lists.exists_insertAfter_eq
      (fun i => decide ((s₀.timer i).expiredTime < x)) t ts
    have hlinked : Linked s (as ++ t :: bs) := hsplit ▸ h.linked
    obtain ⟨s', hs', hl, hself, hch⟩ := hlinked.timerDelete_mem
    refine ⟨s', hs', hch.tick, hch.size.trans h.size, fun u hu => ?_, hl, hself⟩
    rw [hch.timer, Function.update_of_ne hu, h.others u hu]

/-- One call: it goes through exactly when it has an effect on the entry. -/
theorem EntryAt.ownCall {c : OwnCall} (h : EntryAt s₀ s t ts e) (ht : t ∉ ts) (hlt : t < s₀.size)
    (hadd : c.Adds → ∀ x, e ≠ .armed x) :
    (c.effect e = none ∧ ownCall t s c = none) ∨
      ∃ e' s', c.effect e = some e' ∧ Timers.ownCall t s c = some s' ∧ s'.tick = s.tick ∧
        EntryAt s₀ s' t ts e' := by
  cases c with
  | oneshotTimerAdd delay function arg now =>
    obtain ⟨s', hs', h'⟩ := h.add ht hlt (hadd trivial)
    exact Or.inr ⟨_, s', rfl, hs', h'⟩
  | periodicTimerAdd period function arg now =>
    obtain ⟨s', hs', h'⟩ := h.add ht hlt (hadd trivial)
    exact Or.inr ⟨_, s', rfl, hs', h'⟩
  | timerDelete =>
    by_cases he : e = .fired
    · subst he
      have hnull : s.links.next (.timer t) = none := h.shows
      refine Or.inl ⟨rfl, ?_⟩
      simp [Timers.ownCall, Timers.timerDelete, listEmpty, listDelInit, hnull]
    · obtain ⟨s', hs', h'⟩ := h.delete ht he
      refine Or.inr ⟨.idle, s', ?_, hs', h'⟩
      cases e with
      | fired => exact absurd rfl he
      | _ => rfl

/-- All the calls of a callback. -/
theorem EntryAt.ownCalls {cs : List OwnCall} (h : EntryAt s₀ s t ts e) (ht : t ∉ ts)
    (hlt : t < s₀.size) (hadd : AddsUnarmed e cs) :
    (entryAfter e cs = none ∧ ownCalls t s cs = none) ∨
      ∃ e' s', entryAfter e cs = some e' ∧ Timers.ownCalls t s cs = some s' ∧ s'.tick = s.tick ∧
        EntryAt s₀ s' t ts e' := by
  induction cs generalizing s e with
  | nil => exact Or.inr ⟨e, s, rfl, rfl, rfl, h⟩
  | cons c cs ih =>
    unfold entryAfter Timers.ownCalls
    rcases h.ownCall ht hlt hadd.1 with ⟨heff, hcall⟩ | ⟨e', s', heff, hcall, htick, h'⟩
    · rw [heff, hcall]
      exact Or.inl ⟨rfl, rfl⟩
    · rw [heff, hcall, Option.bind_some, Option.bind_some, ← htick]
      exact ih h' (hadd.2 e' heff)

/-! ### One turn -/

/-- The tick is in its loop, at the first of the timers `vs`; it has passed over `us`. -/
structure AtLoop (s : TimerSys) (now : BitVec 64) (us vs : List ℕ) : Prop where
  linked : Linked s (us ++ vs)
  tick : s.tick = some ⟨now, nodeAt vs, s.links.next (nodeAt vs), none⟩

/-- Where the entry ends up when the callback has returned: the code adds a timer with a period
again whose entry it finds linked to itself. -/
def Entry.returned (e : Entry) (reschedule : Bool) (period : BitVec 32) (now : BitVec 64) : Entry :=
  if reschedule = false ∧ period ≠ 0 ∧ e = .idle then .armed (now.setWidth 32 + period) else e

/-- The entry of a timer at the end of its turn. -/
def turnEntry (c : Callback) (period : BitVec 32) (now : BitVec 64) : Option Entry :=
  (entryAfter .fired c.own).map fun e => e.returned c.reschedule period now

/-- Unlinking the timer that is due. -/
theorem AtLoop.fire {now : BitVec 64} {us vs : List ℕ} (h : AtLoop s now us (t :: vs))
    (hdue : due s now t = true) (hfun : (s.timer t).function ≠ none) :
    ∃ s₁, tickLoop s ⟨now, .timer t, s.links.next (.timer t), none⟩ = some s₁ ∧
      s₁.tick = some ⟨now, .timer t, some (nodeAt vs), some (s.timer t).periodicTime⟩ ∧
      EntryAt s s₁ t (us ++ vs) .fired := by
  obtain ⟨s₁, hs₁, hsize, htimer, htick, -, hlinked, hnull, -⟩ := h.linked.fire
    (k := ⟨now, .timer t, s.links.next (.timer t), none⟩) rfl hdue hfun
  refine ⟨s₁, hs₁, ?_, hsize, fun u _ => congrFun htimer u, hlinked, hnull⟩
  rw [htick, h.linked.next_eq]

/-- The return of the callback. -/
theorem EntryAt.tickReturn (now : BitVec 64) (n : Node) (period : BitVec 32) (reschedule : Bool)
    (h : EntryAt s₀ s t ts e) (ht : t ∉ ts) (hlt : t < s₀.size) :
    ∃ s', tickReturn s ⟨now, .timer t, some n, some period⟩ t period reschedule = some s' ∧
      EntryAt s₀ s' t ts (e.returned reschedule period now) ∧
      (reschedule = false → s'.tick = some ⟨now, n, s'.links.next n, none⟩) := by
  unfold Timers.tickReturn Entry.returned
  dsimp only
  cases reschedule with
  | true => exact ⟨_, rfl, h.congr rfl rfl rfl, fun h => nomatch h⟩
  | false =>
    -- the entry is found linked to itself exactly when it is idle
    have hempty : s.links.listEmpty (.timer t) = true ↔ e = .idle := by
      unfold listEmpty
      rw [decide_eq_true_eq]
      cases e with
      | fired =>
        have hnull : s.links.next (.timer t) = none := h.shows
        rw [hnull]
        simp
      | idle =>
        have hself : s.links.next (.timer t) = some (.timer t) := h.shows
        simp [hself]
      | armed x =>
        have hmem : t ∈ (Entry.armed x).place s₀ t ts := Lists.mem_insertAfter.mpr (Or.inl rfl)
        have hne := (h.linked.ring.next_ne (List.mem_map_of_mem hmem)).2
        simp [hne]
    rw [if_neg Bool.false_ne_true]
    by_cases hagain : period ≠ 0 ∧ e = .idle
    · obtain ⟨l, hl, h'⟩ := h.listAdd { s.timer t with expiredTime := now.setWidth 32 + period } ht
        hlt fun x hx => by rw [hagain.2] at hx; cases hx
      rw [if_pos ⟨hagain.1, hempty.mpr hagain.2⟩, if_pos ⟨rfl, hagain⟩, hl]
      exact ⟨_, rfl, h'.congr rfl rfl rfl, fun _ => rfl⟩
    · rw [if_neg fun h => hagain ⟨h.1, hempty.mp h.2⟩, if_neg fun h => hagain h.2]
      exact ⟨_, rfl, h.congr rfl rfl rfl, fun _ => rfl⟩

/-- **One turn of the loop.**  A callback whose calls fault stops everything; after any other one
only its own timer has changed, and the tick returns or goes on with the next timer. -/
theorem tickRun_turn {cb : List ℕ → ℕ → Callback} {now : BitVec 64} {us vs called : List ℕ}
    (fuel : ℕ) (h : AtLoop s now us (t :: vs)) (hdue : due s now t = true)
    (hfun : (s.timer t).function ≠ none) :
    (turnEntry (cb called t) (s.timer t).periodicTime now = none ∧
        tickRun cb (fuel + 1) s called = none) ∨
      ∃ e s', turnEntry (cb called t) (s.timer t).periodicTime now = some e ∧
        EntryAt s s' t (us ++ vs) e ∧
        tickRun cb (fuel + 1) s called =
          (if (cb called t).reschedule then some (s', called ++ [t], true)
          else tickRun cb fuel s' (called ++ [t])) ∧
        ((cb called t).reschedule = false →
          s'.tick = some ⟨now, nodeAt vs, s'.links.next (nodeAt vs), none⟩) := by
  have ht : t ∉ us ++ vs := (List.nodup_cons.mp (List.nodup_middle.mp h.linked.nodup)).1
  have hlt : t < s.size := h.linked.lt t (List.mem_append_right us List.mem_cons_self)
  obtain ⟨s₁, hs₁, htick₁, h₁⟩ := h.fire hdue hfun
  unfold turnEntry
  rw [tickRun, h.tick]
  show (_ ∧ (tickLoop s ⟨now, .timer t, s.links.next (.timer t), none⟩).bind _ = _) ∨ _
  rw [show nodeAt (t :: vs) = .timer t from rfl, Option.bind_some, hs₁, Option.bind_some, htick₁]
  dsimp only
  rcases h₁.ownCalls ht hlt (cb called t).unarmed with ⟨hnone, hcalls⟩ | ⟨e, s₂, he, hcalls, -, h₂⟩
  · rw [hnone, hcalls]
    exact Or.inl ⟨rfl, rfl⟩
  · obtain ⟨s₃, hs₃, h₃, htick₃⟩ := h₂.tickReturn now (nodeAt vs)
      (s.timer t).periodicTime (cb called t).reschedule ht hlt
    rw [he, hcalls, Option.map_some, Option.bind_some, hs₃, Option.bind_some]
    exact Or.inr ⟨_, s₃, rfl, h₃, rfl, htick₃⟩

/-- At the end of the list, or at a timer that has not expired, the tick returns. -/
theorem tickRun_end {cb : List ℕ → ℕ → Callback} {now : BitVec 64} {us vs called : List ℕ}
    (fuel : ℕ) (h : AtLoop s now us vs) (hdue : ∀ t ∈ vs.head?, due s now t = false) :
    tickRun cb (fuel + 1) s called = some ({ s with tick := none }, called, false) := by
  unfold tickRun
  rw [h.tick, Option.bind_some]
  unfold tickLoop
  cases vs with
  | nil => rfl
  | cons t vs =>
    have hnot := hdue t rfl
    simp [nodeAt, hnot]

/-! ### Whatever a tick does -/

theorem nodeAt_eq_of_head? {us vs : List ℕ} (h : us.head? = vs.head?) : nodeAt us = nodeAt vs := by
  cases us <;> cases vs <;> simp_all [nodeAt]

/-- The list is cut where it was before the turn. -/
theorem exists_place_cut (e : Entry) (us vs : List ℕ) :
    ∃ us' vs', e.place s t (us ++ vs) = us' ++ vs' ∧ vs'.head? = vs.head? := by
  cases e with
  | armed x => exact Lists.insertAfter_cut _ _ _ _
  | fired => exact ⟨us, vs, rfl, rfl⟩
  | idle => exact ⟨us, vs, rfl, rfl⟩

/-- The tick goes on after a turn. -/
theorem EntryAt.exists_atLoop {now : BitVec 64} (us vs : List ℕ) (h : EntryAt s s' t (us ++ vs) e)
    (htick : s'.tick = some ⟨now, nodeAt vs, s'.links.next (nodeAt vs), none⟩) :
    ∃ us' vs', e.place s t (us ++ vs) = us' ++ vs' ∧ AtLoop s' now us' vs' := by
  obtain ⟨us', vs', hplace, hhead⟩ := exists_place_cut (s := s) (t := t) e us vs
  refine ⟨us', vs', hplace, hplace ▸ h.linked, ?_⟩
  rw [nodeAt_eq_of_head? hhead]
  exact htick

theorem mem_place_of_mem {u : ℕ} (hu : u ∈ ts) : u ∈ e.place s t ts := by
  cases e with
  | armed x => exact Lists.mem_insertAfter.mpr (Or.inr hu)
  | _ => exact hu

/-- A tick that comes to a timer that has expired calls its function. -/
theorem function_of_tickRun {cb : List ℕ → ℕ → Callback} {now : BitVec 64} {us vs called : List ℕ}
    {fuel : ℕ} {r : TimerSys × List ℕ × Bool} (h : AtLoop s now us (t :: vs))
    (hdue : due s now t = true) (hs : tickRun cb (fuel + 1) s called = some r) :
    (s.timer t).function ≠ none := by
  rw [tickRun, h.tick, Option.bind_some] at hs
  obtain ⟨s₁, hloop, hs⟩ := Option.bind_eq_some_iff.mp hs
  rcases tickLoop_cases hloop with ⟨-, hnot⟩ | ⟨u, hu, -, hfun⟩
  · rw [hnot t rfl] at hdue
    cases hdue
  · obtain rfl := Node.timer.inj hu
    exact hfun

/-- **What is not called stays.**  A tick leaves alone the timers that it does not call. -/
theorem tickRun_stays {cb : List ℕ → ℕ → Callback} {now : BitVec 64} {fuel : ℕ}
    {us vs called out : List ℕ} {ret : Bool} (h : AtLoop s now us vs)
    (hs : tickRun cb fuel s called = some (s', out, ret)) :
    ∃ zs ts', out = called ++ zs ∧ Linked s' ts' ∧
      ∀ u, u ∉ zs → s'.timer u = s.timer u ∧ (u ∈ us ++ vs → u ∈ ts') := by
  induction fuel generalizing s us vs called with
  | zero => cases hs
  | succ fuel ih =>
    by_cases hend : ∀ t ∈ vs.head?, due s now t = false
    · rw [tickRun_end fuel h hend] at hs
      obtain ⟨rfl, rfl, -⟩ := by simpa using hs
      exact ⟨[], us ++ vs, (List.append_nil called).symm, ⟨h.linked.ring, h.linked.lt, h.linked.entry⟩,
        fun u _ => ⟨rfl, id⟩⟩
    -- the first timer has expired and is called; the others stay where they are
    · cases vs with
      | nil => exact absurd (fun t ht => nomatch ht) hend
      | cons t vs =>
        have hdue : due s now t = true := by simpa using hend
        rcases tickRun_turn fuel h hdue (function_of_tickRun h hdue hs) with
          ⟨-, hnone⟩ | ⟨e, s₁, -, h₁, hrun, htick⟩
        · rw [hnone] at hs
          cases hs
        have hmem : ∀ u, u ≠ t → u ∈ us ++ t :: vs → u ∈ e.place s t (us ++ vs) := by
          intro u hut hu
          exact mem_place_of_mem ((Lists.mem_append_of_nodup h.linked.nodup).mpr ⟨hut, hu⟩)
        rw [hrun] at hs
        split at hs
        · obtain ⟨rfl, rfl, -⟩ := by simpa using hs
          refine ⟨[t], _, rfl, h₁.linked, ?_⟩
          intro u hu
          have hut : u ≠ t := fun e => hu (List.mem_singleton.mpr e)
          exact ⟨h₁.others u hut, hmem u hut⟩
        · next hre =>
          obtain ⟨us', vs', hplace, hnext⟩ := h₁.exists_atLoop us vs (htick (Bool.eq_false_iff.mpr hre))
          obtain ⟨zs, ts', rfl, hlinked, hstay⟩ := ih hnext hs
          refine ⟨t :: zs, ts', by simp, hlinked, ?_⟩
          intro u hu
          rw [List.mem_cons, not_or] at hu
          obtain ⟨htimer, hin⟩ := hstay u hu.2
          exact ⟨htimer.trans (h₁.others u hu.1), fun hu' => hin (hplace ▸ hmem u hu.1 hu')⟩

/-- Where an entry goes in a list with `c` in it: before `c` or behind it. -/
theorem exists_place_around (e : Entry) (us as cs : List ℕ) (c : ℕ) :
    ∃ us' as' cs', e.place s t (us ++ (as ++ c :: cs)) = us' ++ (as' ++ c :: cs') ∧
      (as' ++ c :: cs').head? = (as ++ c :: cs).head? ∧ ∀ y ∈ cs, y ∈ cs' := by
  cases e with
  | fired => exact ⟨us, as, cs, rfl, rfl, fun y hy => hy⟩
  | idle => exact ⟨us, as, cs, rfl, rfl, fun y hy => hy⟩
  | armed x => exact Lists.insertAfter_around _ _ _ _ _ _

/-- **Where a tick stops.**  Nothing behind a timer that has not expired is called. -/
theorem tickRun_stops {cb : List ℕ → ℕ → Callback} {now : BitVec 64} {fuel c y : ℕ}
    {us as cs called out : List ℕ} {ret : Bool} (h : AtLoop s now us (as ++ c :: cs))
    (hc : due s now c = false) (hy : y ∈ cs)
    (hs : tickRun cb fuel s called = some (s', out, ret)) : ∃ zs, out = called ++ zs ∧ y ∉ zs := by
  induction fuel generalizing s us as cs called with
  | zero => cases hs
  | succ fuel ih =>
    by_cases hend : ∀ t ∈ (as ++ c :: cs).head?, due s now t = false
    · rw [tickRun_end fuel h hend] at hs
      obtain ⟨-, rfl, -⟩ := by simpa using hs
      exact ⟨[], (List.append_nil called).symm, List.not_mem_nil⟩
    · cases as with
      -- the walk has come to `c`
      | nil =>
        refine absurd (fun t ht => ?_) hend
        obtain rfl := Option.some.inj ht
        exact hc
      | cons t as =>
        have hdue : due s now t = true := by simpa using hend
        have hnot := (List.nodup_cons.mp (List.nodup_middle.mp h.linked.nodup)).1
        have hty : y ≠ t := by
          rintro rfl
          exact hnot (by simp [hy])
        have htc : c ≠ t := by
          rintro rfl
          exact hnot (by simp)
        rcases tickRun_turn fuel h hdue (function_of_tickRun h hdue hs) with
          ⟨-, hnone⟩ | ⟨e, s₁, -, h₁, hrun, htick⟩
        · rw [hnone] at hs
          cases hs
        rw [hrun] at hs
        split at hs
        · obtain ⟨-, rfl, -⟩ := by simpa using hs
          exact ⟨[t], rfl, fun hm => hty (List.mem_singleton.mp hm)⟩
        · next hre =>
          obtain ⟨us', as', cs', hplace, hhead, hsub⟩ :=
            exists_place_around (s := s) (t := t) e us as cs c
          have hnext : AtLoop s₁ now us' (as' ++ c :: cs') := by
            refine ⟨hplace ▸ h₁.linked, ?_⟩
            rw [nodeAt_eq_of_head? hhead]
            exact htick (Bool.eq_false_iff.mpr hre)
          have hc₁ : due s₁ now c = false := by
            unfold due
            rw [h₁.others c htc]
            exact hc
          obtain ⟨zs, rfl, hzs⟩ := ih hnext hc₁ (hsub y hy) hs
          refine ⟨t :: zs, by simp, ?_⟩
          intro hm
          exact (List.mem_cons.mp hm).elim hty hzs

/-! ### The batch -/

/-- A time that has come, `(signed long)(x - now) <= 0`. -/
def expired (now : BitVec 64) (x : BitVec 32) : Bool := ¬ 0 < (x - now.setWidth 32).toInt

theorem due_eq_expired (s : TimerSys) (now : BitVec 64) (t : ℕ) :
    due s now t = expired now (s.timer t).expiredTime := rfl

/-- The turn of `d` goes well, with the timers `bs` of the batch still to be called: the calls of
the callback `c` do not fault; unless `d` is the last one the callback does not ask for a new pick;
and if `d` is on the list again afterwards, its new time has not come, and is not later than that
of one of the `bs` but the last. -/
def TurnOk (c : Callback) (s : TimerSys) (now : BitVec 64) (d : ℕ) (bs : List ℕ) : Prop :=
  ∃ e, turnEntry c (s.timer d).periodicTime now = some e ∧
    (bs ≠ [] → c.reschedule = false) ∧
    ∀ x, e = .armed x → expired now x = false ∧
      ∀ b ∈ bs.dropLast, ¬ (s.timer b).expiredTime < x

/-- Every turn of the batch `ds` goes well. -/
def BatchOk (cb : List ℕ → ℕ → Callback) (s : TimerSys) (now : BitVec 64) (called ds : List ℕ) :
    Prop :=
  ∀ as d bs, ds = as ++ d :: bs → TurnOk (cb (called ++ as) d) s now d bs

variable {cb : List ℕ → ℕ → Callback} {now : BitVec 64} {called ds bs rest : List ℕ}

theorem TurnOk.congr {c : Callback} {d : ℕ} (h : TurnOk c s now d bs)
    (hd : s'.timer d = s.timer d) (hbs : ∀ b ∈ bs, s'.timer b = s.timer b) :
    TurnOk c s' now d bs := by
  obtain ⟨e, he, hre, hx⟩ := h
  refine ⟨e, hd ▸ he, hre, fun x hex => ⟨(hx x hex).1, ?_⟩⟩
  intro b hb
  rw [hbs b (List.mem_of_mem_dropLast hb)]
  exact (hx x hex).2 b hb

/-- A batch is the turn of its first timer and the rest of it. -/
theorem batchOk_cons : BatchOk cb s now called (t :: bs) ↔
    TurnOk (cb called t) s now t bs ∧ BatchOk cb s now (called ++ [t]) bs := by
  unfold BatchOk
  rw [Lists.forall_split_cons, List.append_nil]
  simp only [List.append_assoc, List.singleton_append]

/-- One of the callbacks asks for a new pick. -/
def AsksReschedule (cb : List ℕ → ℕ → Callback) (called ds : List ℕ) : Prop :=
  ∃ as d bs, ds = as ++ d :: bs ∧ (cb (called ++ as) d).reschedule = true

theorem asksReschedule_cons : AsksReschedule cb called (t :: bs) ↔
    (cb called t).reschedule = true ∨ AsksReschedule cb (called ++ [t]) bs := by
  unfold AsksReschedule
  rw [Lists.exists_split_cons, List.append_nil]
  simp only [List.append_assoc, List.singleton_append]

theorem BatchOk.congr (h : BatchOk cb s now called bs) (hbs : ∀ b ∈ bs, s'.timer b = s.timer b) :
    BatchOk cb s' now called bs := by
  rintro as d cs rfl
  refine (h as d cs rfl).congr (hbs d (by simp)) fun b hb => hbs b (by simp [hb])

/-- The timers that were left waiting have not expired. -/
def NoneDue (s : TimerSys) (now : BitVec 64) (ts : List ℕ) : Prop := ∀ t ∈ ts, due s now t = false

/-- A timer that is put back has not expired either. -/
theorem EntryAt.noneDue (h : EntryAt s s' t ts e) (ht : t ∉ ts) (hrest : NoneDue s now ts)
    (hx : ∀ x, e = .armed x → expired now x = false) : NoneDue s' now (e.place s t ts) := by
  intro u hu
  by_cases hut : u = t
  · subst hut
    cases e with
    | armed x =>
      have hself : (s'.timer u).expiredTime = x := h.shows
      rw [due_eq_expired, hself]
      exact hx x rfl
    | fired => exact absurd hu ht
    | idle => exact absurd hu ht
  · rw [due_eq_expired, h.others u hut]
    exact hrest u ((mem_place hu).resolve_left hut)

/-- The turn of a timer that is not the last of the batch: the tick goes on with the others. -/
theorem EntryAt.atLoop (h : EntryAt s s' t (bs ++ rest) e) (ht : t ∉ bs ++ rest) (hne : bs ≠ [])
    (htick : s'.tick = some ⟨now, nodeAt (bs ++ rest), s'.links.next (nodeAt (bs ++ rest)), none⟩)
    (hrest : NoneDue s now rest)
    (hx : ∀ x, e = .armed x → expired now x = false ∧ ∀ b ∈ bs.dropLast, ¬ (s.timer b).expiredTime < x) :
    ∃ rest', AtLoop s' now [] (bs ++ rest') ∧ NoneDue s' now rest' := by
  have hplace : ∃ rest', e.place s t (bs ++ rest) = bs ++ rest' ∧
      ∀ u ∈ rest', (u = t ∧ ∃ x, e = .armed x) ∨ u ∈ rest := by
    cases e with
    | fired => exact ⟨rest, rfl, fun u hu => Or.inr hu⟩
    | idle => exact ⟨rest, rfl, fun u hu => Or.inr hu⟩
    | armed x =>
      obtain ⟨rest', hins, hsub⟩ := Lists.insertAfter_append_of_dropLast (a := t) rest hne
        fun b hb => decide_eq_false ((hx x rfl).2 b hb)
      exact ⟨rest', hins, fun u hu => (hsub u hu).imp_left fun hut => ⟨hut, x, rfl⟩⟩
  obtain ⟨rest', hplace, hsub⟩ := hplace
  refine ⟨rest', ⟨hplace ▸ h.linked, ?_⟩, fun u hu => ?_⟩
  · have hhead : (bs ++ rest').head? = (bs ++ rest).head? := by
      cases bs with
      | nil => exact absurd rfl hne
      | cons b bs => rfl
    rw [nodeAt_eq_of_head? hhead]
    exact htick
  · rcases hsub u hu with ⟨rfl, x, rfl⟩ | hu
    · have hself : (s'.timer u).expiredTime = x := h.shows
      rw [due_eq_expired, hself]
      exact (hx x rfl).1
    · have hut : u ≠ t := by
        rintro rfl
        exact ht (List.mem_append_right bs hu)
      rw [due_eq_expired, h.others u hut]
      exact hrest u hu

/-- The turn of the last timer of the batch: the tick returns. -/
theorem EntryAt.last (h : EntryAt s s' t rest e) (ht : t ∉ rest) (hrest : NoneDue s now rest)
    (htick : s'.tick = some ⟨now, nodeAt rest, s'.links.next (nodeAt rest), none⟩)
    (hx : ∀ x, e = .armed x → expired now x = false) (fuel : ℕ) :
    tickRun cb (fuel + 1) s' called = some ({ s' with tick := none }, called, false) := by
  have hnone := h.noneDue ht hrest hx
  obtain ⟨us', vs', hplace, hloop⟩ := h.exists_atLoop [] _ htick
  apply tickRun_end fuel hloop
  intro u hu
  apply hnone
  rw [List.nil_append] at hplace
  rw [hplace]
  exact List.mem_append_right us' (List.mem_of_mem_head? hu)

/-- **A batch that goes well.** -/
theorem tickRun_batch {fuel : ℕ} (h : AtLoop s now [] (ds ++ rest)) (hrest : NoneDue s now rest)
    (hds : ∀ d ∈ ds, due s now d = true) (hfun : ∀ d ∈ ds, (s.timer d).function ≠ none)
    (hok : BatchOk cb s now called ds) (hfuel : ds.length < fuel) :
    ∃ s' ts' ret, tickRun cb fuel s called = some (s', called ++ ds, ret) ∧ Linked s' ts' ∧
      NoneDue s' now ts' ∧ (ret = true ↔ AsksReschedule cb called ds) := by
  induction ds generalizing s called rest fuel with
  | nil =>
    obtain ⟨f, rfl⟩ := Nat.exists_eq_add_of_le' (Nat.one_le_of_lt hfuel)
    refine ⟨{ s with tick := none }, rest, false, ?_, ⟨h.linked.ring, h.linked.lt, h.linked.entry⟩,
      hrest, ?_⟩
    · rw [List.append_nil]
      exact tickRun_end f h fun t ht => hrest t (List.mem_of_mem_head? ht)
    · simp [AsksReschedule]
  | cons t bs ih =>
    obtain ⟨f, rfl⟩ := Nat.exists_eq_add_of_le' (Nat.one_le_of_lt hfuel)
    rw [List.length_cons] at hfuel
    rw [List.forall_mem_cons] at hds hfun
    obtain ⟨⟨e, he, hre, hx⟩, hlater⟩ := batchOk_cons.mp hok
    have ht : t ∉ bs ++ rest := (List.nodup_cons.mp h.linked.nodup).1
    rcases tickRun_turn f h hds.1 hfun.1 with ⟨hnone, -⟩ | ⟨e', s₁, he', h₁, hrun, htick⟩
    · rw [hnone] at he
      cases he
    obtain rfl := Option.some.inj (he'.symm.trans he)
    replace h₁ : EntryAt s s₁ t (bs ++ rest) e' := h₁
    rw [asksReschedule_cons, hrun]
    -- the last one of the batch may ask for a reschedule, which ends the tick
    by_cases hbs : bs = []
    · subst hbs
      have hno : ¬ AsksReschedule cb (called ++ [t]) [] := by simp [AsksReschedule]
      rw [or_iff_left hno]
      have hnone : NoneDue s₁ now (e'.place s t rest) := h₁.noneDue ht hrest fun x hex => (hx x hex).1
      by_cases hr : (cb called t).reschedule = true
      · rw [if_pos hr]
        exact ⟨s₁, _, true, rfl, h₁.linked, hnone, (iff_true_left rfl).mpr hr⟩
      · obtain ⟨f, rfl⟩ := Nat.exists_eq_add_of_le' (Nat.one_le_of_lt (Nat.lt_of_succ_lt_succ hfuel))
        rw [if_neg hr, h₁.last ht hrest (htick (Bool.eq_false_iff.mpr hr)) (fun x hex => (hx x hex).1) f]
        exact ⟨_, _, false, rfl, ⟨h₁.linked.ring, h₁.linked.lt, h₁.linked.entry⟩, hnone,
          by simp [hr]⟩
    · have hr := hre hbs
      obtain ⟨rest', hnext, hrest'⟩ := h₁.atLoop ht hbs (htick hr) hrest hx
      have hsame : ∀ b ∈ bs, s₁.timer b = s.timer b := by
        intro b hb
        apply h₁.others
        rintro rfl
        exact ht (List.mem_append_left rest hb)
      obtain ⟨s', ts', ret, hrun', hlinked, hnone, hret⟩ := ih hnext hrest'
        (fun d hd => by rw [due_eq_expired, hsame d hd]; exact hds.2 d hd)
        (fun d hd => by rw [hsame d hd]; exact hfun.2 d hd) (hlater.congr hsame)
        (Nat.lt_of_succ_lt_succ hfuel)
      refine ⟨s', ts', ret, ?_, hlinked, hnone, ?_⟩
      · rw [hr, if_neg Bool.false_ne_true, hrun', List.append_assoc]
        rfl
      · rw [hr, hret]
        simp

/-- A timer that was put back and is not called again has not expired, if no timer that has expired
is left in the end. -/
theorem expired_eq_false_of_tickRun {fuel : ℕ} {ret : Bool} {ts' : List ℕ} {x : BitVec 32}
    {s₁ : TimerSys} (h : EntryAt s s₁ t ts (.armed x)) (ht : t ∉ bs)
    (htick : s₁.tick = some ⟨now, nodeAt ts, s₁.links.next (nodeAt ts), none⟩)
    (hs : tickRun cb fuel s₁ called = some (s', called ++ bs, ret)) (hlinked : Linked s' ts')
    (hnone : NoneDue s' now ts') : expired now x = false := by
  have hself : (s₁.timer t).expiredTime = x := h.shows
  have hmem : t ∈ (Entry.armed x).place s t ts := Lists.mem_insertAfter.mpr (Or.inl rfl)
  obtain ⟨us', vs', hplace, hloop⟩ := h.exists_atLoop [] _ htick
  obtain ⟨zs, ts'', hzs, hlinked', hstay⟩ := tickRun_stays hloop hs
  obtain rfl := List.append_cancel_left hzs
  obtain ⟨htimer, hin⟩ := hstay t ht
  obtain rfl := timer_map_injective (hlinked'.ring.unique hlinked.ring)
  have hdue := hnone t (hin (hplace ▸ hmem))
  rwa [due_eq_expired, htimer, hself] at hdue

/-- A timer that was put back behind one of those still to be called, but not the last of them,
hides the ones behind itself. -/
theorem not_lt_of_tickRun {fuel b : ℕ} {ret : Bool} {x : BitVec 32} {s₁ : TimerSys}
    (h : EntryAt s s₁ t (bs ++ rest) (.armed x)) (hx : expired now x = false)
    (htick : s₁.tick = some ⟨now, nodeAt (bs ++ rest), s₁.links.next (nodeAt (bs ++ rest)), none⟩)
    (hs : tickRun cb fuel s₁ called = some (s', called ++ bs, ret)) (hb : b ∈ bs.dropLast) :
    ¬ (s.timer b).expiredTime < x := by
  intro hlt
  have hself : (s₁.timer t).expiredTime = x := h.shows
  obtain ⟨as, cs, y, hplace, hybs, hycs, hhead⟩ := Lists.insertAfter_before_getLast
    (p := fun i => decide ((s.timer i).expiredTime < x)) (a := t) rest hb (decide_eq_true hlt)
  have hloop : AtLoop s₁ now [] (as ++ t :: cs) := by
    refine ⟨hplace ▸ h.linked, ?_⟩
    rw [nodeAt_eq_of_head? hhead]
    exact htick
  have hdue : due s₁ now t = false := by
    rw [due_eq_expired, hself]
    exact hx
  obtain ⟨zs, hzs, hnot⟩ := tickRun_stops hloop hdue hycs hs
  obtain rfl := List.append_cancel_left hzs
  exact hnot hybs

/-- **A batch that is called in whole has gone well**, if no timer that has expired is left. -/
theorem batchOk_of_tickRun {fuel : ℕ} {ret : Bool} {ts' : List ℕ}
    (h : AtLoop s now [] (ds ++ rest)) (hrest : NoneDue s now rest)
    (hds : ∀ d ∈ ds, due s now d = true)
    (hs : tickRun cb fuel s called = some (s', called ++ ds, ret)) (hlinked : Linked s' ts')
    (hnone : NoneDue s' now ts') : BatchOk cb s now called ds := by
  induction ds generalizing s called rest fuel with
  | nil =>
    intro as d bs hsplit
    simp at hsplit
  | cons t bs ih =>
    cases fuel with
    | zero => cases hs
    | succ f =>
    rw [List.forall_mem_cons] at hds
    have ht : t ∉ bs ++ rest := (List.nodup_cons.mp h.linked.nodup).1
    have htbs : t ∉ bs := fun hm => ht (List.mem_append_left rest hm)
    rcases tickRun_turn f h hds.1 (function_of_tickRun h hds.1 hs) with
      ⟨-, hfault⟩ | ⟨e, s₁, he, h₁, hrun, htick⟩
    · rw [hfault] at hs
      cases hs
    replace h₁ : EntryAt s s₁ t (bs ++ rest) e := h₁
    rw [hrun] at hs
    rw [batchOk_cons]
    split at hs
    · -- the tick returns after this callback
      obtain ⟨rfl, hcalled, -⟩ := by simpa using hs
      obtain rfl : bs = [] := by simpa using hcalled
      have hts : ts' = e.place s t rest := timer_map_injective (hlinked.ring.unique h₁.linked.ring)
      refine ⟨⟨e, he, fun hne => absurd rfl hne, fun x hx => ⟨?_, nofun⟩⟩, fun as d cs hsplit => ?_⟩
      · subst hx
        have hself : (s₁.timer t).expiredTime = x := h₁.shows
        rw [← hself, ← due_eq_expired]
        apply hnone
        rw [hts]
        exact Lists.mem_insertAfter.mpr (Or.inl rfl)
      · simp at hsplit
    · next hr =>
      have hr' : (cb called t).reschedule = false := Bool.eq_false_iff.mpr hr
      have hcalled : called ++ t :: bs = (called ++ [t]) ++ bs := by simp
      rw [hcalled] at hs
      -- one put back as expired would be left in the end, one put back too early would hide others
      have hx : ∀ x, e = .armed x → expired now x = false ∧
          ∀ b ∈ bs.dropLast, ¬ (s.timer b).expiredTime < x := by
        rintro x rfl
        have hx := expired_eq_false_of_tickRun h₁ htbs (htick hr') hs hlinked hnone
        exact ⟨hx, fun b hb => not_lt_of_tickRun h₁ hx (htick hr') hs hb⟩
      refine ⟨⟨e, he, fun _ => hr', hx⟩, ?_⟩
      by_cases hbs : bs = []
      · subst hbs
        intro as d cs hsplit
        simp at hsplit
      · obtain ⟨rest', hnext, hrest'⟩ := h₁.atLoop ht hbs (htick hr') hrest hx
        have hsame : ∀ b ∈ bs, s.timer b = s₁.timer b := by
          intro b hb
          refine (h₁.others b ?_).symm
          rintro rfl
          exact htbs hb
        refine (ih hnext hrest' (fun d hd => ?_) hs).congr hsame
        rw [due_eq_expired, ← hsame d hd]
        exact hds.2 d hd

/-! ### The tick as a whole -/

/-- What a tick at the time `now` is for, on the list `ts`: the timers that have expired, and no
others, are called, each once and in the order of the list; none that has expired is left waiting;
and `INT_RESCHEDULE` is returned exactly when one of the callbacks has asked for it. -/
def TickContract (cb : List ℕ → ℕ → Callback) (s : TimerSys) (now : BitVec 64) (ts : List ℕ) : Prop :=
  ∃ fuel s' ret, timerTickRun cb fuel s now = some (s', ts.filter (due s now), ret) ∧
    (∀ t, OnList s' t → due s' now t = false) ∧
    (ret = true ↔ AsksReschedule cb [] (ts.filter (due s now)))

/-- The timers expire in the order of the list, seen from `now`. -/
def SortedFrom (s : TimerSys) (now : BitVec 64) (ts : List ℕ) : Prop :=
  ts.Pairwise fun i j => ((s.timer i).expiredTime - now.setWidth 32).toInt ≤
    ((s.timer j).expiredTime - now.setWidth 32).toInt

theorem SortedFrom.exists_split (h : SortedFrom s now ts) :
    ∃ rest, ts = ts.filter (due s now) ++ rest ∧ NoneDue s now rest := by
  apply Lists.exists_eq_filter_append
  apply h.imp
  intro hij hj
  simp only [due, decide_eq_true_eq] at hj ⊢
  omega

/-- A tick enters its loop at the first timer. -/
theorem Linked.timerTickRun_eq (h : Linked s ts) (cb : List ℕ → ℕ → Callback) (now : BitVec 64)
    (hfirst : s.firstTime = false) (fuel : ℕ) :
    ∃ s₁, timerTickRun cb fuel s now = tickRun cb fuel s₁ [] ∧ AtLoop s₁ now [] ts ∧
      s₁.timer = s.timer := by
  have hnext := h.next_head
  refine ⟨{ s with tick := some ⟨now, nodeAt ts, s.links.next (nodeAt ts), none⟩ }, ?_,
    ⟨⟨h.ring, h.lt, h.entry⟩, rfl⟩, rfl⟩
  simp [timerTickRun, timerTick, hfirst, hnext]

/-- **The contract of a tick.**  On a list sorted by expiry, a tick after the first one meets its
contract exactly when the turn of every timer that has expired goes well. -/
theorem timer_tick_iff (cb : List ℕ → ℕ → Callback) (now : BitVec 64) (hlist : Linked s ts)
    (hfun : ∀ t ∈ ts, (s.timer t).function ≠ none) (hfirst : s.firstTime = false)
    (hsorted : SortedFrom s now ts) :
    TickContract cb s now ts ↔ BatchOk cb s now [] (ts.filter (due s now)) := by
  obtain ⟨rest, hsplit, hrest⟩ := hsorted.exists_split
  have hdue : ∀ d ∈ ts.filter (due s now), due s now d = true := fun d hd => (List.mem_filter.mp hd).2
  set ds := ts.filter (due s now)
  constructor
  · rintro ⟨fuel, s', ret, hrun, hleft, -⟩
    obtain ⟨s₁, heq, hloop, htimer⟩ := hlist.timerTickRun_eq cb now hfirst fuel
    have hsame : ∀ t, due s₁ now t = due s now t := fun t => by unfold due; rw [htimer]
    rw [heq] at hrun
    obtain ⟨zs, ts', -, hlinked, -⟩ := tickRun_stays hloop hrun
    rw [hsplit] at hloop
    have hok := batchOk_of_tickRun hloop (fun t ht => (hsame t).trans (hrest t ht))
      (fun d hd => (hsame d).trans (hdue d hd)) hrun hlinked
      fun t ht => hleft t ⟨ts', hlinked.ring, ht⟩
    exact hok.congr fun b _ => by rw [htimer]
  · intro hok
    obtain ⟨s₁, heq, hloop, htimer⟩ := hlist.timerTickRun_eq cb now hfirst (ds.length + 1)
    have hsame : ∀ t, due s₁ now t = due s now t := fun t => by unfold due; rw [htimer]
    rw [hsplit] at hloop
    obtain ⟨s', ts', ret, hrun, hlinked, hnone, hret⟩ := tickRun_batch hloop
      (fun t ht => (hsame t).trans (hrest t ht)) (fun d hd => (hsame d).trans (hdue d hd))
      (fun d hd => by rw [htimer]; exact hfun d (List.mem_filter.mp hd).1)
      (hok.congr fun b _ => by rw [htimer]) (Nat.lt_succ_self ds.length)
    refine ⟨ds.length + 1, s', ret, heq.trans hrun, ?_, hret⟩
    rintro t ⟨ts'', hring, ht⟩
    obtain rfl := timer_map_injective (hring.unique hlinked.ring)
    exact hnone t ht

/-- A callback that does not use the timers. -/
def plainCallback (reschedule : Bool) : Callback := ⟨[], reschedule, trivial⟩

/-- Two timers that expire at 1, on the list. -/
def twoTimers : TimerSys where
  size := 2
  links :=
    { next := fun
        | .head => some (.timer 0)
        | .timer 0 => some (.timer 1)
        | .timer 1 => some .head
        | n => some n
      prev := fun
        | .head => some (.timer 1)
        | .timer 0 => some .head
        | .timer 1 => some (.timer 0)
        | n => some n }
  timer := fun t => ⟨1, 0, some (7 + t), none⟩
  firstTime := false
  tick := none
  armed := fun t => t = 0 ∨ t = 1

theorem linked_twoTimers : Linked twoTimers [0, 1] where
  ring := ⟨by decide, by decide, by decide⟩
  lt := by decide
  entry t ht := by
    match t, ht with
    | 0, ht => exact absurd (by decide) ht
    | 1, ht => exact absurd (by decide) ht
    | t + 2, _ => exact Or.inr rfl

/-- Both timers have expired, and no callback asks for a new pick. -/
theorem timer_tick_iff_two : TickContract (fun _ _ => plainCallback false) twoTimers 1 [0, 1] := by
  refine (timer_tick_iff (fun _ _ => plainCallback false) 1 linked_twoTimers
    (fun t _ => Option.some_ne_none _) rfl ?_).mpr ?_
  · unfold SortedFrom
    decide
  · intro as d bs _
    exact ⟨.fired, rfl, fun _ => rfl, fun x hx => nomatch hx⟩

/-- Both have expired, and the first callback asks for a new pick, as that of a sleep timer does:
the second one is left waiting. -/
theorem tick_stops_early :
    ¬ ∀ (cb : List ℕ → ℕ → Callback) (s : TimerSys) (now : BitVec 64) (ts : List ℕ), Linked s ts →
      (∀ t ∈ ts, (s.timer t).function ≠ none) → s.firstTime = false → SortedFrom s now ts →
      TickContract cb s now ts := by
  intro h
  obtain ⟨fuel, s', ret, hrun, -⟩ := h (fun _ _ => plainCallback true) twoTimers 1 [0, 1]
    linked_twoTimers (fun t _ => Option.some_ne_none _) rfl (by unfold SortedFrom; decide)
  cases fuel with
  | zero => cases hrun
  | succ fuel =>
    have hcalled : (timerTickRun (fun _ _ => plainCallback true) (fuel + 1) twoTimers 1).map
        (fun r => r.2.1) = some [0] := rfl
    rw [hrun, Option.map_some] at hcalled
    have hboth : [0, 1].filter (due twoTimers 1) = [0, 1] := by decide
    rw [hboth] at hcalled
    cases Option.some.inj hcalled

end Timers

end YakOS
