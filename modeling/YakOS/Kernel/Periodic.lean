import YakOS.Kernel.Timer

/-!
# Periodic timers

`timer_tick` adds a periodic timer again when its callback has returned, if its entry is found
empty.  But `list_del` has left null pointers in the entry, and `list_empty` asks for pointers
that lead back to it: the timer is never added again.

Here the timers are used as the list needs it, apart from what `timer_tick` itself does.

## Main definitions

* `LinkGuard` — a timer is added when it is not linked, and deleted when its entry is not null.
* `LinkInv` — the list is a circle, and the tick is at one of its timers.
* `KeptArmed` — what is promised of a periodic timer that has fired.

## Main results

* `linkInv_step` — a guarded step keeps the invariant, and leaves a null entry null unless it adds
  the timer.
* `periodic_timer_lost` — a timer that has fired, periodic or not, is on the list in no later
  state, and is not called again, until someone else adds it.
-/

namespace YakOS

namespace Timers

open Links

/-- The step adds the timer `t`. -/
def Adds (t : ℕ) : Event → Prop
  | .oneshotTimerAdd u _ _ _ _ => u = t
  | .periodicTimerAdd u _ _ _ _ => u = t
  | _ => False

instance (t : ℕ) : ∀ e, Decidable (Adds t e)
  | .oneshotTimerAdd u _ _ _ _ => inferInstanceAs (Decidable (u = t))
  | .periodicTimerAdd u _ _ _ _ => inferInstanceAs (Decidable (u = t))
  | .timerDelete _ => inferInstanceAs (Decidable False)
  | .timerTick _ => inferInstanceAs (Decidable False)
  | .loop => inferInstanceAs (Decidable False)
  | .ret _ => inferInstanceAs (Decidable False)

/-- The entry of the timer is not linked to others. -/
def Unlinked (s : TimerSys) (t : ℕ) : Prop :=
  s.links.next (.timer t) = none ∨ s.links.next (.timer t) = some (.timer t)

instance (s : TimerSys) (t : ℕ) : Decidable (Unlinked s t) := inferInstanceAs (Decidable (_ ∨ _))

/-- What the list needs of the steps: a timer that is added is not on it; one that is deleted has
not fired since it was added or initialised last; and when a callback returns, the timer the tick
goes on to is still on the list or has not expired. -/
def LinkGuard (s : TimerSys) : Event → Prop
  | .oneshotTimerAdd t _ _ _ _ => Unlinked s t
  | .periodicTimerAdd t _ _ _ _ => Unlinked s t
  | .timerDelete t => s.links.next (.timer t) ≠ none
  | .timerTick _ => True
  | .loop => True
  | .ret reschedule =>
    reschedule = false → ∀ k ∈ s.tick, ∀ u ∈ k.tmp.bind Node.timer?,
      ¬ Unlinked s u ∨ due s k.now u = false

instance (s : TimerSys) : ∀ e, Decidable (LinkGuard s e)
  | .oneshotTimerAdd _ _ _ _ _ => inferInstanceAs (Decidable (Unlinked _ _))
  | .periodicTimerAdd _ _ _ _ _ => inferInstanceAs (Decidable (Unlinked _ _))
  | .timerDelete _ => inferInstanceAs (Decidable (_ ≠ _))
  | .timerTick _ => isTrue trivial
  | .loop => isTrue trivial
  | .ret _ => inferInstanceAs (Decidable (_ → ∀ k ∈ s.tick, _))

/-- The list is a circle.  In its loop the tick is at the head, at a timer of the list or at one
that has not expired; while a callback runs it has a node kept for later. -/
structure LinkInv (s : TimerSys) : Prop where
  linked : ∃ ts, Linked s ts
  loop : ∀ k, s.tick = some k → k.running = none → k.tmp = s.links.next k.pos ∧
    ∀ u, k.pos = .timer u → ¬ Unlinked s u ∨ due s k.now u = false
  callback : ∀ k p, s.tick = some k → k.running = some p → (∃ n, k.tmp = some n) ∧
    ∀ u, k.pos = .timer u → u < s.size

variable {s s' : TimerSys} {ts : List ℕ} {t : ℕ}

theorem Linked.unlinked_iff (h : Linked s ts) : Unlinked s t ↔ t ∉ ts := by
  constructor
  · rintro hun hmem
    obtain ⟨hnull, hself⟩ := h.ring.next_ne (List.mem_map_of_mem hmem)
    exact hun.elim hnull hself
  · exact h.entry t

/-- What one step does to the null entries. -/
def KeepsNull (s s' : TimerSys) (e : Event) : Prop :=
  ∀ u, s.links.next (.timer u) = none → ¬ Adds u e → s'.links.next (.timer u) = none

/-- Between two ticks the circle is all there is. -/
theorem LinkInv.of_idle (hlinked : ∃ ts, Linked s ts) (htick : s.tick = none) : LinkInv s := by
  refine ⟨hlinked, ?_, ?_⟩
  · intro k hk
    cases htick.symm.trans hk
  · intro k p hk
    cases htick.symm.trans hk

theorem linkInv_boot (n : ℕ) : LinkInv (timerBoot n) := .of_idle ⟨[], (listInv_boot n).linked⟩ rfl

/-- What callers and callbacks do leaves the tick as it is. -/
theorem LinkInv.of_free (h : LinkInv s) (hfree : s.free = true) (htick : s'.tick = s.tick)
    (hsize : s'.size = s.size) (hlinked : ∃ ts, Linked s' ts) : LinkInv s' := by
  refine ⟨hlinked, ?_, ?_⟩
  · intro k hk hrun
    rw [htick] at hk
    rw [TimerSys.free, hk] at hfree
    simp [hrun] at hfree
  · intro k p hk hrun
    rw [htick] at hk
    rw [hsize]
    exact h.callback k p hk hrun

theorem LinkInv.endTick (h : LinkInv s) : LinkInv { s with tick := none } := by
  obtain ⟨⟨ts, hlist⟩, -, -⟩ := h
  exact .of_idle ⟨ts, hlist.ring, hlist.lt, hlist.entry⟩ rfl

theorem linkInv_add {delay period : BitVec 32} {function arg : Option ℕ} {now : BitVec 64}
    (h : LinkInv s) (hfree : s.free = true) (hlt : t < s.size) (hguard : Unlinked s t)
    (hs : timerAdd s t delay period function arg now = some s') :
    LinkInv s' ∧ ∀ u, s.links.next (.timer u) = none → u ≠ t → s'.links.next (.timer u) = none := by
  obtain ⟨ts, hlist⟩ := h.linked
  obtain ⟨s₁, hs₁, hlist', hch⟩ :=
    hlist.timerAdd delay period function arg now (hlist.unlinked_iff.mp hguard) hlt
  obtain rfl : s₁ = s' := Option.some.inj (hs₁.symm.trans hs)
  exact ⟨h.of_free hfree hch.tick hch.size ⟨_, hlist'⟩, fun u hu hut => (hch.null u hut).mpr hu⟩

theorem linkInv_delete (h : LinkInv s) (hfree : s.free = true)
    (hguard : s.links.next (.timer t) ≠ none) (hs : timerDelete s t = some s') :
    LinkInv s' ∧ ∀ u, s.links.next (.timer u) = none → s'.links.next (.timer u) = none := by
  obtain ⟨ts, hlist⟩ := h.linked
  have hdel : ∃ s₁ ts', timerDelete s t = some s₁ ∧ Linked s₁ ts' ∧ Changes s s₁ t .init false := by
    by_cases hmem : t ∈ ts
    · obtain ⟨as, bs, rfl⟩ := List.append_of_mem hmem
      obtain ⟨s₁, hs₁, hlist', -, hch⟩ := hlist.timerDelete_mem
      exact ⟨s₁, _, hs₁, hlist', hch⟩
    · obtain ⟨s₁, hs₁, hlist', -, hch⟩ := hlist.timerDelete_not_mem hmem hguard
      exact ⟨s₁, _, hs₁, hlist', hch⟩
  obtain ⟨s₁, ts', hs₁, hlist', hch⟩ := hdel
  obtain rfl : s₁ = s' := Option.some.inj (hs₁.symm.trans hs)
  refine ⟨h.of_free hfree hch.tick hch.size ⟨_, hlist'⟩, ?_⟩
  intro u hu
  have hut : u ≠ t := fun e => hguard (e ▸ hu)
  exact (hch.null u hut).mpr hu

theorem linkInv_tick {now : BitVec 64} (h : LinkInv s) (htick : s.tick = none)
    (hs : timerTick s now = some s') : LinkInv s' ∧ s'.links = s.links := by
  obtain ⟨ts, hlist⟩ := h.linked
  unfold timerTick at hs
  split at hs
  · obtain rfl := Option.some.inj hs
    refine ⟨⟨⟨ts, hlist.ring, hlist.lt, hlist.entry⟩, fun k hk => ?_, fun k p hk => ?_⟩, rfl⟩
    · cases htick.symm.trans hk
    · cases htick.symm.trans hk
  · obtain ⟨pos, hpos, rfl⟩ := Option.map_eq_some_iff.mp hs
    refine ⟨⟨⟨ts, hlist.ring, hlist.lt, hlist.entry⟩, fun k hk _ => ?_, fun k p hk hrun => ?_⟩, rfl⟩
    · obtain rfl := Option.some.inj hk
      refine ⟨rfl, fun u hu => Or.inl ?_⟩
      intro hun
      obtain rfl := Option.some.inj (hpos.symm.trans hlist.next_head)
      exact hlist.unlinked_iff.mp hun (mem_of_nodeAt hu)
    · obtain rfl := Option.some.inj hk
      cases hrun

/-- A tick at a timer that has expired: the timer is on the list. -/
theorem LinkInv.not_unlinked {k : Tick} (h : LinkInv s) (hk : s.tick = some k)
    (hrun : k.running = none) (hpos : k.pos = .timer t) (hdue : due s k.now t = true) :
    ¬ Unlinked s t := by
  refine ((h.loop k hk hrun).2 t hpos).resolve_right ?_
  intro hnot
  rw [hdue] at hnot
  cases hnot

theorem linkInv_loop {k : Tick} (h : LinkInv s) (hk : s.tick = some k) (hrun : k.running = none)
    (hs : tickLoop s k = some s') :
    LinkInv s' ∧ ∀ u, s.links.next (.timer u) = none → s'.links.next (.timer u) = none := by
  rcases tickLoop_cases hs with ⟨rfl, -⟩ | ⟨t, hpos, hdue, hfun⟩
  · exact ⟨h.endTick, fun u hu => hu⟩
  · obtain ⟨ts, hlist⟩ := h.linked
    have hmem : t ∈ ts := by
      by_contra hnot
      exact h.not_unlinked hk hrun hpos hdue (hlist.unlinked_iff.mpr hnot)
    obtain ⟨as, bs, rfl⟩ := List.append_of_mem hmem
    obtain ⟨s₁, hs₁, hsize, -, htick, -, hlist', hnull, hothers, -⟩ := hlist.fire hpos hdue hfun
    obtain rfl : s₁ = s' := Option.some.inj (hs₁.symm.trans hs)
    refine ⟨⟨⟨_, hlist'⟩, fun k' hk' hrun' => ?_, fun k' p hk' _ => ?_⟩, fun u hu => ?_⟩
    · obtain rfl := Option.some.inj (htick.symm.trans hk')
      cases hrun'
    · obtain rfl := Option.some.inj (htick.symm.trans hk')
      refine ⟨⟨nodeAt bs, ?_⟩, fun u hu => ?_⟩
      · dsimp only
        rw [(h.loop k hk hrun).1, hpos]
        exact hlist.next_eq
      · obtain rfl := Node.timer.inj (hpos.symm.trans hu)
        rw [hsize]
        exact hlist.lt t hmem
    · by_cases hut : u = t
      · exact hut ▸ hnull
      · exact (hothers u hut).mpr hu

/-- The code adds a timer again only when it finds its entry linked to itself. -/
theorem linkInv_rearm {now : BitVec 64} {period : BitVec 32} (hlist : Linked s ts) (hlt : t < s.size)
    (hs : (if period ≠ 0 ∧ s.links.listEmpty (.timer t) then
        (timerListAdd (s.setTimer t { s.timer t with expiredTime := now.setWidth 32 + period }) t).map
          fun l => { s.setTimer t { s.timer t with expiredTime := now.setWidth 32 + period } with
            links := l }
      else some s) = some s') :
    ∃ ts', Linked s' ts' ∧ (∀ u, s.links.next (.timer u) = none → s'.links.next (.timer u) = none) ∧
      ∀ u, ¬ Unlinked s u ∨ due s now u = false → ¬ Unlinked s' u ∨ due s' now u = false := by
  split at hs
  -- the timer is unlinked, so that it may be put back
  · next hagain =>
    obtain ⟨l, hl, rfl⟩ := Option.map_eq_some_iff.mp hs
    have hself : s.links.next (.timer t) = some (.timer t) := of_decide_eq_true hagain.2
    have ht : t ∉ ts := hlist.unlinked_iff.mp (Or.inr hself)
    set x : Timer := { s.timer t with expiredTime := now.setWidth 32 + period }
    obtain ⟨l', hl', hr, hf⟩ := timerListAdd_spec (s := s.setTimer t x) hlist.ring
      (length_le_size hlist.ring hlist.lt) ht
    obtain rfl := Option.some.inj (hl'.symm.trans hl)
    obtain ⟨hlist', hnull, -⟩ := hlist.link { s.setTimer t x with links := l' } hlt rfl hr hf
    refine ⟨_, hlist', ?_, ?_⟩
    · intro u hu
      have hut : u ≠ t := by
        rintro rfl
        cases hself.symm.trans hu
      exact (hnull u hut).mpr hu
    · intro u hu
      rw [hlist'.unlinked_iff, Lists.mem_insertAfter, not_not]
      rw [hlist.unlinked_iff, not_not] at hu
      by_cases hut : u = t
      · exact Or.inl (Or.inl hut)
      · have hsame : due { s.setTimer t x with links := l' } now u = due s now u := by
          unfold due
          rw [show ({ s.setTimer t x with links := l' } : TimerSys).timer u = s.timer u from
            Function.update_of_ne hut _ _]
        rw [hsame]
        exact hu.imp_left Or.inr
  · obtain rfl := Option.some.inj hs
    exact ⟨ts, hlist, fun u hu => hu, fun u hu => hu⟩

theorem linkInv_return {now : BitVec 64} {tmp : Option Node} {period : BitVec 32}
    {reschedule : Bool} (h : LinkInv s) (hk : s.tick = some ⟨now, .timer t, tmp, some period⟩)
    (hguard : LinkGuard s (.ret reschedule))
    (hs : tickReturn s ⟨now, .timer t, tmp, some period⟩ t period reschedule = some s') :
    LinkInv s' ∧ ∀ u, s.links.next (.timer u) = none → s'.links.next (.timer u) = none := by
  obtain ⟨ts, hlist⟩ := h.linked
  unfold tickReturn at hs
  dsimp only at hs
  split at hs
  · obtain rfl := Option.some.inj hs
    exact ⟨.of_idle ⟨ts, hlist.ring, hlist.lt, hlist.entry⟩ rfl, fun u hu => hu⟩
  -- the walk goes on, with the timer put back or not
  · next hre =>
    obtain ⟨s₁, hs₁, hs⟩ := Option.bind_eq_some_iff.mp hs
    obtain ⟨n, hn, rfl⟩ := Option.map_eq_some_iff.mp hs
    obtain ⟨ts', hlist', hnull, hkept⟩ :=
      linkInv_rearm hlist ((h.callback _ period hk rfl).2 t rfl) hs₁
    refine ⟨⟨⟨ts', hlist'.ring, hlist'.lt, hlist'.entry⟩, fun k hk' _ => ?_, fun k p hk' hrun => ?_⟩,
      hnull⟩
    · obtain rfl := Option.some.inj hk'
      refine ⟨rfl, ?_⟩
      intro u hu
      dsimp only at hn hu
      subst hn hu
      exact hkept u (hguard (by simpa using hre) _ hk u rfl)
    · obtain rfl := Option.some.inj hk'
      cases hrun

/-- **Every guarded step keeps the invariant**, and a null entry stays null unless the step adds
the timer. -/
theorem linkInv_step {e : Event} (h : LinkInv s) (hguard : LinkGuard s e)
    (hs : timerStep s e = some s') : LinkInv s' ∧ KeepsNull s s' e := by
  cases e with
  | oneshotTimerAdd t delay function arg now =>
    obtain ⟨⟨hfree, hlt⟩, hs⟩ := Option.ite_none_right_eq_some.mp hs
    obtain ⟨h', hnull⟩ := linkInv_add h hfree hlt hguard hs
    exact ⟨h', fun u hu hadd => hnull u hu (Ne.symm hadd)⟩
  | periodicTimerAdd t period function arg now =>
    obtain ⟨⟨hfree, hlt⟩, hs⟩ := Option.ite_none_right_eq_some.mp hs
    obtain ⟨h', hnull⟩ := linkInv_add h hfree hlt hguard hs
    exact ⟨h', fun u hu hadd => hnull u hu (Ne.symm hadd)⟩
  | timerDelete t =>
    obtain ⟨⟨hfree, -⟩, hs⟩ := Option.ite_none_right_eq_some.mp hs
    obtain ⟨h', hnull⟩ := linkInv_delete h hfree hguard hs
    exact ⟨h', fun u hu _ => hnull u hu⟩
  | timerTick now =>
    obtain ⟨htick, hs⟩ := Option.ite_none_right_eq_some.mp hs
    obtain ⟨h', hlinks⟩ := linkInv_tick h htick hs
    exact ⟨h', fun u hu _ => hlinks ▸ hu⟩
  | loop =>
    simp only [timerStep] at hs
    split at hs
    · next k hk =>
      obtain ⟨hrun, hs⟩ := Option.ite_none_right_eq_some.mp hs
      obtain ⟨h', hnull⟩ := linkInv_loop h hk hrun hs
      exact ⟨h', fun u hu _ => hnull u hu⟩
    · cases hs
  | ret reschedule =>
    simp only [timerStep] at hs
    split at hs
    · next now t tmp period hk =>
      obtain ⟨h', hnull⟩ := linkInv_return h hk hguard hs
      exact ⟨h', fun u hu _ => hnull u hu⟩
    · cases hs

/-! ### Timers that have fired -/

/-- Where the tick is when it calls a timer. -/
theorem exists_tick_of_calls {e : Event} (h : t ∈ calls s e) :
    e = .loop ∧ ∃ k, s.tick = some k ∧ k.running = none ∧ k.pos = .timer t ∧ due s k.now t = true := by
  cases e with
  | loop =>
    refine ⟨rfl, ?_⟩
    simp only [calls] at h
    split at h
    · next now u tmp hk =>
      obtain ⟨hdue, h⟩ := Option.ite_none_right_eq_some.mp h
      obtain rfl := Option.some.inj h
      exact ⟨_, hk, rfl, rfl, hdue⟩
    · cases h
  | _ => cases h

/-- A timer with a null entry is not on the list and is not called. -/
theorem LinkInv.not_calls (h : LinkInv s) (hnull : s.links.next (.timer t) = none) (e : Event) :
    ¬ OnList s t ∧ t ∉ calls s e := by
  constructor
  · rintro ⟨ts, hring, ht⟩
    exact (hring.next_ne (List.mem_map_of_mem ht)).1 hnull
  · intro hcall
    obtain ⟨-, k, hk, hrun, hpos, hdue⟩ := exists_tick_of_calls hcall
    exact h.not_unlinked hk hrun hpos hdue (Or.inl hnull)

/-- The timer that a tick calls has a null entry from then on. -/
theorem LinkInv.null_of_calls (h : LinkInv s) (hcall : t ∈ calls s .loop)
    (hs : timerStep s .loop = some s') : s'.links.next (.timer t) = none := by
  obtain ⟨-, k, hk, hrun, hpos, hdue⟩ := exists_tick_of_calls hcall
  simp only [timerStep, hk, hrun, if_true] at hs
  rcases tickLoop_cases hs with ⟨-, hnot⟩ | ⟨u, hu, -, hfun⟩
  · rw [hnot t hpos] at hdue
    cases hdue
  · obtain rfl := Node.timer.inj (hpos.symm.trans hu)
    obtain ⟨ts, hlist⟩ := h.linked
    have hmem : t ∈ ts := by
      by_contra hnot
      exact h.not_unlinked hk hrun hpos hdue (hlist.unlinked_iff.mpr hnot)
    obtain ⟨as, bs, rfl⟩ := List.append_of_mem hmem
    obtain ⟨s₁, hs₁, -, -, -, -, -, hnull, -⟩ := hlist.fire hpos hdue hfun
    obtain rfl : s₁ = s' := Option.some.inj (hs₁.symm.trans hs)
    exact hnull

/-- What is promised of a timer that was added by `periodic_timer_add` and has fired at `now`: it
is on the list, to expire a period later. -/
def KeptArmed (t : ℕ) (now : BitVec 64) (period : BitVec 32) (s : TimerSys) : Prop :=
  OnList s t ∧ (s.timer t).expiredTime = now.setWidth 32 + if period = 0 then 1 else period

/-- As long as nobody adds the timer, its null entry keeps it off the list. -/
theorem LinkInv.lost {fs : List Event} (h : LinkInv s) (hnull : s.links.next (.timer t) = none)
    (hguard : Run.Guarded timerStep LinkGuard s fs) (hadd : ∀ e ∈ fs, ¬ Adds t e) :
    Run.Always timerStep (fun s' => ¬ OnList s' t) s fs ∧
      Run.Guarded timerStep (fun s' e => t ∉ calls s' e) s fs := by
  induction fs generalizing s with
  | nil => exact ⟨(h.not_calls hnull .loop).1, trivial⟩
  | cons e fs ih =>
    rw [List.forall_mem_cons] at hadd
    obtain ⟨hlist, hcall⟩ := h.not_calls hnull e
    have hnext : ∀ s', timerStep s e = some s' →
        Run.Always timerStep (fun s' => ¬ OnList s' t) s' fs ∧
          Run.Guarded timerStep (fun s' e => t ∉ calls s' e) s' fs := by
      intro s' hs'
      obtain ⟨h', hkeep⟩ := linkInv_step h hguard.1 hs'
      exact ih h' (hkeep t hnull hadd.1) (hguard.2 s' hs') hadd.2
    exact ⟨⟨hlist, fun s' hs' => (hnext s' hs').1⟩, hcall, fun s' hs' => (hnext s' hs').2⟩

/-- **Periodic timers.**  In a run in which the list is used as it should be, when a tick calls a
timer, in no later state of the run is the timer on the list, let alone armed for a period later,
and no later step of the run calls it, unless a caller adds it again. -/
theorem periodic_timer_lost {n t : ℕ} {es fs : List Event} {s s₁ : TimerSys}
    (hes : Run.exec timerStep (timerBoot n) es = some s)
    (hguard : Run.Guarded timerStep LinkGuard (timerBoot n) (es ++ .loop :: fs))
    (hcall : t ∈ calls s .loop) (hs₁ : timerStep s .loop = some s₁)
    (hadd : ∀ e ∈ fs, ¬ Adds t e) :
    Run.Always timerStep (fun s' => ∀ now period, ¬ KeptArmed t now period s') s₁ fs ∧
      Run.Guarded timerStep (fun s' e => t ∉ calls s' e) s₁ fs := by
  have hinv : LinkInv s := by
    have halways : Run.Always timerStep LinkInv (timerBoot n) es :=
      Run.always_of_guarded (fun s e s' h hg hs => (linkInv_step h hg hs).1) (linkInv_boot n)
        hguard.left
    exact halways.exec hes
  obtain ⟨-, hguard₁⟩ := hguard.append hes
  have hinv₁ := (linkInv_step (e := .loop) hinv trivial hs₁).1
  obtain ⟨hoff, hcalls⟩ := hinv₁.lost (hinv.null_of_calls hcall hs₁) (hguard₁ s₁ hs₁) hadd
  exact ⟨hoff.mono fun s' hlist now period hkept => hlist hkept.1, hcalls⟩

/-- A timer with the period 3, and the tick in which it fires. -/
def untilFired : List Event := [.timerTick 0, .periodicTimerAdd 0 3 7 none 0, .timerTick 3]

theorem periodic_timer_lost_three :
    ∃ s s₁, Run.exec timerStep (timerBoot 1) untilFired = some s ∧ timerStep s .loop = some s₁ ∧
      Run.Always timerStep (fun s' => ∀ now period, ¬ KeptArmed 0 now period s') s₁
        [.ret false, .loop, .timerTick 6, .loop] := by
  have hrun : (Run.exec timerStep (timerBoot 1) untilFired).any (fun s =>
      decide (0 ∈ calls s .loop) && (timerStep s .loop).isSome) = true := by decide +kernel
  obtain ⟨s, hs, hfires⟩ := (Option.any_eq_true _ _).mp hrun
  obtain ⟨hcall, hloop⟩ := Bool.and_eq_true_iff.mp hfires
  obtain ⟨s₁, hs₁⟩ := Option.isSome_iff_exists.mp hloop
  exact ⟨s, s₁, hs, hs₁, (periodic_timer_lost hs (by decide +kernel) (of_decide_eq_true hcall) hs₁
    (by decide)).1⟩

/-- It fires at 3, its callback does nothing, and it is not armed again. -/
theorem periodic_timer_not_kept :
    ∃ s s', Run.exec timerStep (timerBoot 1) untilFired = some s ∧ 0 ∈ calls s .loop ∧
      Run.exec timerStep s [.loop, .ret false] = some s' ∧ ¬ KeptArmed 0 3 3 s' := by
  have hrun : (Run.exec timerStep (timerBoot 1) untilFired).any (fun s =>
      decide (0 ∈ calls s .loop) && (Run.exec timerStep s [.loop, .ret false]).any fun s' =>
        decide (s'.links.next (.timer 0) = none)) = true := by decide +kernel
  obtain ⟨s, hs, hfires⟩ := (Option.any_eq_true _ _).mp hrun
  obtain ⟨hcall, hreturn⟩ := Bool.and_eq_true_iff.mp hfires
  obtain ⟨s', hs', hnull⟩ := (Option.any_eq_true _ _).mp hreturn
  refine ⟨s, s', hs, of_decide_eq_true hcall, hs', ?_⟩
  rintro ⟨⟨ts, hring, ht⟩, -⟩
  exact (hring.next_ne (List.mem_map_of_mem ht)).1 (of_decide_eq_true hnull)

end Timers

end YakOS
