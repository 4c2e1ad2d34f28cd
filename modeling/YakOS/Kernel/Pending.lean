import YakOS.Kernel.Timer

/-!
# The pending bit of a work

The bit is set by `queue_work` and `queue_delayed_work` and cleared by the worker, and it
should be set exactly while the work is on a worklist or its timer is armed.  The one
operation that takes a work out of that state without the worker, `cancel_delayed_work`,
deletes the timer and leaves the bit.

Here each call, each tick and each execution by a worker is one step, and the timers are
those of `Timers`: the timer of the work `w` is the timer `w`.

## Main definitions

* `PendingSys`, `pendingStep` — the works and their steps.
* `PendingExact` — the bit is set exactly when the work is on a worklist or its timer is
  armed, so that any other work can be queued.
* `CancelsUnarmed` — a work that is cancelled is not armed.

## Main results

* `pending_exact_iff` — the bits are exact throughout a run exactly when no armed work is
  cancelled.
-/

namespace YakOS

namespace Pending

open Timers

/-- The works, their timers and the worklists. -/
structure PendingSys where
  timers : TimerSys
  worklist : ℕ → List ℕ
  pending : ℕ → Bool
  wqData : ℕ → Option ℕ
  /-- The work whose function the worker of a workqueue executes. -/
  running : ℕ → Option ℕ

/-! ### The code -/

/-- The common part of `queue_work` and `delayed_work_timer_fn`. -/
def PendingSys.insert (s : PendingSys) (wq w : ℕ) : PendingSys :=
  { s with worklist := Function.update s.worklist wq (s.worklist wq ++ [w]) }

/-- The first lines of `queue_work` and `queue_delayed_work`, when the bit is clear. -/
def PendingSys.claim (s : PendingSys) (wq w : ℕ) : PendingSys :=
  { s with
    pending := Function.update s.pending w true
    wqData := Function.update s.wqData w (some wq) }

/-- `queue_work`; the second component is its result. -/
def queueWork (s : PendingSys) (wq w : ℕ) : PendingSys × ℕ :=
  if s.pending w then (s, 0) else ((s.claim wq w).insert wq w, 1)

/-- `delayed_work_timer_fn`, as the function of a timer. -/
def delayedWorkTimerFn : ℕ := 0

/-- `queue_delayed_work`. -/
def queueDelayedWork (s : PendingSys) (wq w : ℕ) (delay : BitVec 32) (now : BitVec 64) :
    Option PendingSys :=
  if s.pending w then some s
  else (oneshotTimerAdd s.timers w delay (some delayedWorkTimerFn) (some w) now).map fun t =>
    { s.claim wq w with timers := t }

/-- `cancel_delayed_work`. -/
def cancelDelayedWork (s : PendingSys) (w : ℕ) : Option PendingSys :=
  (timerDelete s.timers w).map fun t => { s with timers := t }

/-- `timer_tick`; `delayed_work_timer_fn` asks for a new pick, so the tick ends after one
timer. -/
def tick (s : PendingSys) (now : BitVec 64) : Option PendingSys :=
  (timerTick s.timers now).bind fun t₁ =>
    match t₁.tick with
    | none => some { s with timers := t₁ }
    | some k =>
      (tickLoop t₁ k).bind fun t₂ =>
        match t₂.tick, k.pos with
        | some k₂, .timer w =>
          (s.wqData w).bind fun wq =>
            (tickReturn t₂ k₂ w (t₁.timer w).periodicTime true).map fun t₃ =>
              { s.insert wq w with timers := t₃ }
        | _, _ => some { s with timers := t₂ }

/-- `run_workqueue`, up to the call of the function. -/
def runWork (s : PendingSys) (wq : ℕ) : Option PendingSys :=
  match s.running wq, s.worklist wq with
  | none, w :: ws =>
    some { s with
      worklist := Function.update s.worklist wq ws
      pending := Function.update s.pending w false
      running := Function.update s.running wq (some w) }
  | _, _ => none

/-- What can happen next. -/
inductive Event
  | queueWork (wq w : ℕ)
  | queueDelayedWork (wq w : ℕ) (delay : BitVec 32) (now : BitVec 64)
  | cancelDelayedWork (w : ℕ)
  | tick (now : BitVec 64)
  /-- The worker takes a work and calls its function. -/
  | run (wq : ℕ)
  /-- The function returns. -/
  | done (wq : ℕ)
  deriving DecidableEq, Repr

/-- One step; only works that exist are used. -/
def pendingStep (s : PendingSys) : Event → Option PendingSys
  | .queueWork wq w => some (queueWork s wq w).1
  | .queueDelayedWork wq w delay now =>
    if w < s.timers.size then queueDelayedWork s wq w delay now else none
  | .cancelDelayedWork w => cancelDelayedWork s w
  | .tick now => tick s now
  | .run wq => runWork s wq
  | .done wq => some { s with running := Function.update s.running wq none }

/-- `n` works after `INIT_WORK`, or, where `declared` says so, `DECLARE_WORK`, which leaves
null pointers in the entry of the timer. -/
def pendingBoot (n : ℕ) (declared : ℕ → Bool) : PendingSys where
  timers := { timerBoot n with
    links :=
      { next := fun x => if x.timer?.any declared then none else some x
        prev := fun x => if x.timer?.any declared then none else some x } }
  worklist := fun _ => []
  pending := fun _ => false
  wqData := fun _ => none
  running := fun _ => none

/-! ### The properties -/

/-- The work is on a worklist. -/
def OnWorklist (s : PendingSys) (w : ℕ) : Prop := ∃ wq, w ∈ s.worklist wq

/-- The bit is set exactly when the work is on a worklist or its timer is armed; so a work
that is neither can be queued. -/
def PendingExact (s : PendingSys) : Prop :=
  (∀ w, s.pending w = true ↔ OnWorklist s w ∨ OnList s.timers w) ∧
    ∀ wq w, ¬ OnWorklist s w → ¬ OnList s.timers w → (queueWork s wq w).2 = 1

/-- A work that is cancelled is not armed. -/
def CancelsUnarmed (s : PendingSys) : Event → Prop
  | .cancelDelayedWork w => s.timers.armed w = false
  | _ => True

/-! ### The invariant -/

/-- What holds in every state, cancelled works or not. -/
structure PendingInv (s : PendingSys) : Prop where
  timers : TimerInv s.timers
  tick : s.timers.tick = none
  oneshot : ∀ w, s.timers.armed w = true → (s.timers.timer w).periodicTime = 0
  armed : ∀ w, s.timers.armed w = true → s.pending w = true ∧ ¬ OnWorklist s w
  listed : ∀ w, OnWorklist s w → s.pending w = true
  nodup : ∀ wq, (s.worklist wq).Nodup
  sole : ∀ w wq wq', w ∈ s.worklist wq → w ∈ s.worklist wq' → wq = wq'

section Steps

variable {s s' : PendingSys}

/-- A timer is on the list exactly when it is armed. -/
theorem onList_iff {t : TimerSys} (h : TimerInv t) {w : ℕ} : OnList t w ↔ t.armed w = true := by
  obtain ⟨⟨ts, hlist⟩, -⟩ := h
  constructor
  · rintro ⟨ts', hring, hmem⟩
    obtain ⟨hnull, hself⟩ := hring.next_ne (List.mem_map_of_mem hmem)
    by_contra harmed
    have hnot : w ∉ ts := fun hm => harmed ((hlist.armed w).mp hm)
    rcases hlist.entry w hnot with h | h
    · exact hnull h
    · exact hself h
  · intro harmed
    exact hlist.onList ((hlist.armed w).mpr harmed)

theorem PendingInv.exact_iff (h : PendingInv s) :
    PendingExact s ↔ ∀ w, s.pending w = true → OnWorklist s w ∨ s.timers.armed w = true := by
  unfold PendingExact
  simp only [onList_iff h.timers]
  constructor
  · intro hx w
    exact (hx.1 w).mp
  · intro hx
    have hiff : ∀ w, s.pending w = true ↔ OnWorklist s w ∨ s.timers.armed w = true := by
      intro w
      refine ⟨hx w, ?_⟩
      rintro (hl | ha)
      · exact h.listed w hl
      · exact (h.armed w ha).1
    refine ⟨hiff, ?_⟩
    intro wq w hl ha
    have hclear : ¬ s.pending w = true := fun hp => (hx w hp).elim hl ha
    rw [queueWork, if_neg hclear]

/-- A timer that is armed after one was disarmed was armed before. -/
theorem armed_of_update {armed : ℕ → Bool} {u w : ℕ} (h : Function.update armed w false u = true) :
    u ≠ w ∧ armed u = true := by
  by_cases huw : u = w
  · rw [huw, Function.update_self] at h
    cases h
  · rw [Function.update_of_ne huw] at h
    exact ⟨huw, h⟩

/-- What a tick does: nothing, or it puts an armed work on its worklist. -/
theorem tick_cases {now : BitVec 64} (h : PendingInv s) (hs : tick s now = some s') :
    ∃ t', TimerInv t' ∧ t'.tick = none ∧ t'.timer = s.timers.timer ∧
      ((t'.armed = s.timers.armed ∧ s' = { s with timers := t' }) ∨
        ∃ w wq, s.timers.armed w = true ∧ t'.armed = Function.update s.timers.armed w false ∧
          s' = { s.insert wq w with timers := t' }) := by
  obtain ⟨t₁, ht₁, hs⟩ := Option.bind_eq_some_iff.mp hs
  have hinv₁ := timerInv_tick h.timers h.tick ht₁
  unfold timerTick at ht₁
  split at ht₁
  · -- the first tick
    obtain rfl := Option.some.inj ht₁
    split at hs
    · obtain rfl := Option.some.inj hs
      exact ⟨_, hinv₁, h.tick, rfl, Or.inl ⟨rfl, rfl⟩⟩
    · next k hk => cases h.tick.symm.trans hk
  · obtain ⟨pos, -, rfl⟩ := Option.map_eq_some_iff.mp ht₁
    dsimp only at hs
    obtain ⟨t₂, ht₂, hs⟩ := Option.bind_eq_some_iff.mp hs
    have hinv₂ := timerInv_loop hinv₁ rfl rfl ht₂
    unfold tickLoop at ht₂
    cases pos with
    | head =>
      obtain rfl := Option.some.inj ht₂
      obtain rfl := Option.some.inj hs
      exact ⟨_, hinv₂, rfl, rfl, Or.inl ⟨rfl, rfl⟩⟩
    | timer w =>
      dsimp only at ht₂
      split at ht₂
      · next hdue =>
        -- the work is armed, and its timer has no period
        have harmed : s.timers.armed w = true := by
          refine ((hinv₁.2.loop _ rfl rfl).2 w rfl).resolve_right ?_
          intro hnot
          rw [hdue] at hnot
          cases hnot
        have hperiod := h.oneshot w harmed
        split at ht₂
        · next l f hl hf =>
          obtain rfl := Option.some.inj ht₂
          dsimp only at hs
          obtain ⟨wq, -, hs⟩ := Option.bind_eq_some_iff.mp hs
          obtain ⟨t₃, ht₃, rfl⟩ := Option.map_eq_some_iff.mp hs
          rw [hperiod] at ht₃ hinv₂
          have hinv₃ : TimerInv t₃ := by
            refine timerInv_return hinv₂ rfl ?_ ht₃
            intro k hk
            obtain rfl := Option.some.inj hk
            exact ⟨fun _ _ => Or.inl rfl, nofun⟩
          simp only [tickReturn, if_true, Option.some.injEq] at ht₃
          obtain rfl := ht₃
          refine ⟨_, hinv₃, rfl, rfl, Or.inr ⟨w, wq, harmed, ?_, rfl⟩⟩
          simp
        · cases ht₂
      · obtain rfl := Option.some.inj ht₂
        obtain rfl := Option.some.inj hs
        exact ⟨_, hinv₂, rfl, rfl, Or.inl ⟨rfl, rfl⟩⟩

/-- The works that are listed after one more is put on a list. -/
theorem onWorklist_insert {wq w u : ℕ} :
    OnWorklist (s.insert wq w) u ↔ u = w ∨ OnWorklist s u := by
  unfold OnWorklist PendingSys.insert
  dsimp only
  constructor
  · rintro ⟨q, hq⟩
    by_cases hqw : q = wq
    · subst hqw
      rw [Function.update_self] at hq
      rcases List.mem_append.mp hq with hq | hq
      · exact Or.inr ⟨q, hq⟩
      · exact Or.inl (List.mem_singleton.mp hq)
    · rw [Function.update_of_ne hqw] at hq
      exact Or.inr ⟨q, hq⟩
  · rintro (rfl | ⟨q, hq⟩)
    · exact ⟨wq, by simp⟩
    · by_cases hqw : q = wq
      · subst hqw
        exact ⟨q, by rw [Function.update_self]; exact List.mem_append_left _ hq⟩
      · exact ⟨q, by rw [Function.update_of_ne hqw]; exact hq⟩

/-- The worklists stay in order when a work that is on none is put on one. -/
theorem PendingInv.insert (h : PendingInv s) (wq : ℕ) {w : ℕ} (hw : ¬ OnWorklist s w) :
    (∀ q, ((s.insert wq w).worklist q).Nodup) ∧
      ∀ u q q', u ∈ (s.insert wq w).worklist q → u ∈ (s.insert wq w).worklist q' → q = q' := by
  have hnot : ∀ q, w ∉ s.worklist q := fun q hq => hw ⟨q, hq⟩
  have hmem : ∀ u q, u ∈ (s.insert wq w).worklist q ↔ (u = w ∧ q = wq) ∨ u ∈ s.worklist q := by
    intro u q
    unfold PendingSys.insert
    dsimp only
    by_cases hq : q = wq
    · subst hq
      simp [or_comm]
    · simp [hq]
  constructor
  · intro q
    by_cases hq : q = wq
    · subst hq
      simp only [PendingSys.insert, Function.update_self]
      exact (h.nodup q).append (List.nodup_singleton w) (List.disjoint_singleton.mpr (hnot q))
    · simp only [PendingSys.insert, Function.update_of_ne hq]
      exact h.nodup q
  · intro u q q' hq hq'
    rcases (hmem u q).mp hq with ⟨huw, hqw⟩ | hu
    · rcases (hmem u q').mp hq' with ⟨-, hqw'⟩ | hu'
      · rw [hqw, hqw']
      · exact absurd (huw ▸ hu') (hnot q')
    · rcases (hmem u q').mp hq' with ⟨huw, -⟩ | hu'
      · exact absurd (huw ▸ hu) (hnot q)
      · exact h.sole u q q' hu hu'

/-- The step keeps the invariant, and the bits exact where they were. -/
structure Keeps (s s' : PendingSys) : Prop where
  inv : PendingInv s'
  exact : PendingExact s → PendingExact s'

/-- A step keeps the bits exact if what was on a worklist or armed still is, apart from works
whose bit is clear. -/
theorem PendingInv.keeps (h : PendingInv s) (h' : PendingInv s')
    (hle : ∀ u, s'.pending u = true → (OnWorklist s' u ∨ s'.timers.armed u = true) ∨
      (s.pending u = true ∧ (OnWorklist s u ∨ s.timers.armed u = true →
        OnWorklist s' u ∨ s'.timers.armed u = true))) : Keeps s s' := by
  refine ⟨h', fun hx => h'.exact_iff.mpr ?_⟩
  intro u hu
  rcases hle u hu with hu' | ⟨hold, hmove⟩
  · exact hu'
  · exact hmove (h.exact_iff.mp hx u hold)

theorem keeps_queueWork (h : PendingInv s) (wq w : ℕ) : Keeps s (queueWork s wq w).1 := by
  unfold queueWork
  split
  · exact ⟨h, id⟩
  · next hclear =>
    have hnot : ¬ OnWorklist s w := fun hl => hclear (h.listed w hl)
    have hunarmed : ∀ u, s.timers.armed u = true → u ≠ w := by
      rintro u hu rfl
      exact hclear (h.armed u hu).1
    have hworks : ∀ u, OnWorklist ((s.claim wq w).insert wq w) u ↔ u = w ∨ OnWorklist s u :=
      fun u => onWorklist_insert
    obtain ⟨hnodup, hsole⟩ := h.insert wq hnot
    have h' : PendingInv ((s.claim wq w).insert wq w) := by
      refine ⟨h.timers, h.tick, h.oneshot, ?_, ?_, hnodup, hsole⟩
      · intro u hu
        obtain ⟨hp, hl⟩ := h.armed u hu
        refine ⟨(Function.update_of_ne (hunarmed u hu) _ _).trans hp, ?_⟩
        intro hl'
        exact ((hworks u).mp hl').elim (hunarmed u hu) hl
      · intro u hu
        by_cases huw : u = w
        · rw [huw]
          exact Function.update_self _ _ _
        · refine (Function.update_of_ne huw _ _).trans (h.listed u ?_)
          exact ((hworks u).mp hu).resolve_left huw
    apply h.keeps h'
    intro u hu
    by_cases huw : u = w
    · exact Or.inl (Or.inl ((hworks u).mpr (Or.inl huw)))
    · refine Or.inr ⟨(Function.update_of_ne huw _ _).symm.trans hu, ?_⟩
      exact Or.imp_left fun hl => (hworks u).mpr (Or.inr hl)

theorem keeps_queueDelayedWork {wq w : ℕ} {delay : BitVec 32} {now : BitVec 64}
    (h : PendingInv s) (hlt : w < s.timers.size)
    (hs : queueDelayedWork s wq w delay now = some s') : Keeps s s' := by
  unfold queueDelayedWork at hs
  split at hs
  · obtain rfl := Option.some.inj hs
    exact ⟨h, id⟩
  -- the bit was clear, so the timer of the work is not armed
  · next hclear =>
    have hunarmed : s.timers.armed w = false := by
      by_contra hne
      exact hclear (h.armed w (by simpa using hne)).1
    have hfree : s.timers.free = true := by simp [TimerSys.free, h.tick]
    obtain ⟨t', ht', rfl⟩ := Option.map_eq_some_iff.mp hs
    have hinv := timerInv_add h.timers hfree hlt hunarmed ht'
    obtain ⟨⟨ts, hlist⟩, -⟩ := h.timers
    have hmem : w ∉ ts := fun hm => by
      rw [(hlist.armed w).mp hm] at hunarmed
      cases hunarmed
    obtain ⟨t₁, ts', ht₁, -, -, htick, -, htimer, harmed, -⟩ := hlist.timerAdd
      (if delay = 0 then 1 else delay) 0 delayedWorkTimerFn (some w) now hmem hlt
    obtain rfl : t₁ = t' := Option.some.inj (ht₁.symm.trans ht')
    have h' : PendingInv { s.claim wq w with timers := t₁ } := by
      refine ⟨hinv, htick.trans h.tick, fun u hu => ?_, fun u hu => ?_, fun u hu => ?_, h.nodup,
        h.sole⟩
      · dsimp only at hu ⊢
        rw [htimer]
        by_cases huw : u = w
        · rw [huw, Function.update_self]
        · rw [harmed, Function.update_of_ne huw] at hu
          rw [Function.update_of_ne huw]
          exact h.oneshot u hu
      · by_cases huw : u = w
        · rw [huw]
          exact ⟨Function.update_self _ _ _, fun hl => hclear (h.listed w hl)⟩
        · dsimp only at hu
          rw [harmed, Function.update_of_ne huw] at hu
          exact ⟨(Function.update_of_ne huw _ _).trans (h.armed u hu).1, (h.armed u hu).2⟩
      · by_cases huw : u = w
        · rw [huw]
          exact Function.update_self _ _ _
        · exact (Function.update_of_ne huw _ _).trans (h.listed u hu)
    apply h.keeps h'
    intro u hu
    dsimp only
    rw [harmed]
    by_cases huw : u = w
    · exact Or.inl (Or.inr (by rw [huw, Function.update_self]))
    · rw [Function.update_of_ne huw]
      exact Or.inr ⟨(Function.update_of_ne huw _ _).symm.trans hu, id⟩

theorem keeps_tick {now : BitVec 64} (h : PendingInv s) (hs : tick s now = some s') :
    Keeps s s' := by
  obtain ⟨t', hinv, htick, htimer, hcase⟩ := tick_cases h hs
  rcases hcase with ⟨harmed, rfl⟩ | ⟨w, wq, hw, harmed, rfl⟩
  · have h' : PendingInv { s with timers := t' } :=
      ⟨hinv, htick, fun u hu => by
          dsimp only at hu ⊢
          rw [htimer]
          exact h.oneshot u (harmed ▸ hu),
        fun u hu => h.armed u (by dsimp only at hu; exact harmed ▸ hu), h.listed, h.nodup, h.sole⟩
    refine h.keeps h' fun u hu => Or.inr ⟨hu, ?_⟩
    intro hold
    dsimp only
    rw [harmed]
    exact hold
  · obtain ⟨hpend, hnot⟩ := h.armed w hw
    obtain ⟨hnodup, hsole⟩ := h.insert wq hnot
    have hworks : ∀ u, OnWorklist { s.insert wq w with timers := t' } u ↔ u = w ∨ OnWorklist s u :=
      fun u => onWorklist_insert
    -- the timers still armed are those of other works
    have hkeep : ∀ u, t'.armed u = true → u ≠ w ∧ s.timers.armed u = true := by
      intro u hu
      rw [harmed] at hu
      exact armed_of_update hu
    have h' : PendingInv { s.insert wq w with timers := t' } := by
      refine ⟨hinv, htick, ?_, ?_, ?_, hnodup, hsole⟩
      · intro u hu
        dsimp only
        rw [htimer]
        exact h.oneshot u (hkeep u hu).2
      · intro u hu
        obtain ⟨huw, hu⟩ := hkeep u hu
        exact ⟨(h.armed u hu).1, fun hl => ((hworks u).mp hl).elim huw (h.armed u hu).2⟩
      · intro u hu
        rcases (hworks u).mp hu with rfl | hu
        · exact hpend
        · exact h.listed u hu
    apply h.keeps h'
    intro u hu
    by_cases huw : u = w
    · exact Or.inl (Or.inl ((hworks u).mpr (Or.inl huw)))
    · refine Or.inr ⟨hu, ?_⟩
      rintro (hl | ha)
      · exact Or.inl ((hworks u).mpr (Or.inr hl))
      · refine Or.inr ?_
        dsimp only
        rw [harmed, Function.update_of_ne huw]
        exact ha

theorem keeps_runWork {wq : ℕ} (h : PendingInv s) (hs : runWork s wq = some s') : Keeps s s' := by
  unfold runWork at hs
  split at hs
  · next w ws hrun hws =>
    obtain rfl := Option.some.inj hs
    have hhead : w ∈ s.worklist wq := hws ▸ List.mem_cons_self
    have hnd := h.nodup wq
    rw [hws, List.nodup_cons] at hnd
    -- what is on a worklist afterwards is what was, apart from the work that is run
    have hworks : ∀ u q, u ∈ Function.update s.worklist wq ws q ↔ u ≠ w ∧ u ∈ s.worklist q := by
      intro u q
      by_cases hq : q = wq
      · subst hq
        rw [Function.update_self, hws, List.mem_cons]
        constructor
        · intro hu
          exact ⟨fun e => hnd.1 (e ▸ hu), Or.inr hu⟩
        · rintro ⟨hne, hu⟩
          exact hu.resolve_left hne
      · rw [Function.update_of_ne hq]
        refine ⟨fun hu => ⟨fun e => hq (h.sole w q wq (e ▸ hu) hhead), hu⟩, fun hu => hu.2⟩
    refine h.keeps ⟨h.timers, h.tick, h.oneshot, fun u hu => ?_, ?_, fun q => ?_, ?_⟩ fun u hu => ?_
    · have huw : u ≠ w := fun e => (h.armed u hu).2 ⟨wq, e ▸ hhead⟩
      refine ⟨(Function.update_of_ne huw _ _).trans (h.armed u hu).1, ?_⟩
      rintro ⟨q, hq⟩
      exact (h.armed u hu).2 ⟨q, ((hworks u q).mp hq).2⟩
    · rintro u ⟨q, hq⟩
      obtain ⟨huw, hq⟩ := (hworks u q).mp hq
      exact (Function.update_of_ne huw _ _).trans (h.listed u ⟨q, hq⟩)
    · dsimp only
      by_cases hq : q = wq
      · subst hq
        rw [Function.update_self]
        exact hnd.2
      · rw [Function.update_of_ne hq]
        exact h.nodup q
    · intro u q q' hq hq'
      exact h.sole u q q' ((hworks u q).mp hq).2 ((hworks u q').mp hq').2
    · have huw : u ≠ w := by
        rintro rfl
        simp only [Function.update_self] at hu
        cases hu
      refine Or.inr ⟨(Function.update_of_ne huw _ _).symm.trans hu, ?_⟩
      rintro (⟨q, hq⟩ | ha)
      · exact Or.inl ⟨q, (hworks u q).mpr ⟨huw, hq⟩⟩
      · exact Or.inr ha
  · cases hs

/-- Cancelling a work keeps the bits exact only if the work is not armed. -/
theorem cancelDelayedWork_spec {w : ℕ} (h : PendingInv s)
    (hs : cancelDelayedWork s w = some s') :
    PendingInv s' ∧ (PendingExact s → (PendingExact s' ↔ s.timers.armed w = false)) := by
  obtain ⟨t', ht', rfl⟩ := Option.map_eq_some_iff.mp hs
  have hfree : s.timers.free = true := by simp [TimerSys.free, h.tick]
  have hne : s.timers.links.next (.timer w) ≠ none := by
    intro hnull
    simp [timerDelete, Links.listEmpty, Links.listDelInit, hnull] at ht'
  have hinv := timerInv_delete h.timers hfree hne ht'
  obtain ⟨⟨ts, hlist⟩, -⟩ := h.timers
  obtain ⟨t₁, ts', ht₁, -, -, htick, -, htimer, harmed, -⟩ := hlist.timerDelete hne
  obtain rfl : t₁ = t' := Option.some.inj (ht₁.symm.trans ht')
  have hkeep : ∀ u, t₁.armed u = true → u ≠ w ∧ s.timers.armed u = true := by
    intro u hu
    rw [harmed] at hu
    exact armed_of_update hu
  have h' : PendingInv { s with timers := t₁ } := by
    refine ⟨hinv, htick.trans h.tick, fun u hu => ?_, fun u hu => h.armed u (hkeep u hu).2, h.listed,
      h.nodup, h.sole⟩
    obtain ⟨huw, hu⟩ := hkeep u hu
    dsimp only
    rw [htimer, Function.update_of_ne huw]
    exact h.oneshot u hu
  refine ⟨h', ?_⟩
  intro hx
  rw [h'.exact_iff]
  constructor
  · -- the bit of a work that was armed stays set
    intro hall
    by_contra hne
    have hw : s.timers.armed w = true := by simpa using hne
    obtain ⟨hpend, hnot⟩ := h.armed w hw
    rcases hall w hpend with hl | ha
    · exact hnot hl
    · exact (hkeep w ha).1 rfl
  · intro hw u hu
    dsimp only at hu ⊢
    rw [harmed]
    have hsame : Function.update s.timers.armed w false = s.timers.armed := by
      rw [← hw, Function.update_eq_self]
    rw [hsame]
    exact h.exact_iff.mp hx u hu

/-- **Every step keeps the invariant**, and keeps the bits exact exactly when it cancels no
armed work. -/
theorem pendingInv_step {e : Event} (h : PendingInv s) (hs : pendingStep s e = some s') :
    PendingInv s' ∧ (PendingExact s → (PendingExact s' ↔ CancelsUnarmed s e)) := by
  have hkeep : ∀ {c : Prop}, c → Keeps s s' →
      PendingInv s' ∧ (PendingExact s → (PendingExact s' ↔ c)) := fun hc hk =>
    ⟨hk.inv, fun hx => iff_of_true (hk.exact hx) hc⟩
  cases e with
  | queueWork wq w =>
    obtain rfl := Option.some.inj hs
    exact hkeep trivial (keeps_queueWork h wq w)
  | queueDelayedWork wq w delay now =>
    obtain ⟨hlt, hs⟩ := Option.ite_none_right_eq_some.mp hs
    exact hkeep trivial (keeps_queueDelayedWork h hlt hs)
  | cancelDelayedWork w => exact cancelDelayedWork_spec h hs
  | tick now => exact hkeep trivial (keeps_tick h hs)
  | run wq => exact hkeep trivial (keeps_runWork h hs)
  | done wq =>
    obtain rfl := Option.some.inj hs
    refine hkeep trivial (h.keeps ?_ fun u hu => Or.inr ⟨hu, id⟩)
    exact ⟨h.timers, h.tick, h.oneshot, h.armed, h.listed, h.nodup, h.sole⟩

/-- A work that is armed can be cancelled. -/
theorem cancelsUnarmed_of_stuck {e : Event} (h : PendingInv s) (hs : pendingStep s e = none) :
    CancelsUnarmed s e := by
  cases e with
  | cancelDelayedWork w =>
    by_contra hne
    have hw : s.timers.armed w = true := by simpa [CancelsUnarmed] using hne
    obtain ⟨⟨ts, hlist⟩, -⟩ := h.timers
    have hnext := (hlist.ring.next_ne (List.mem_map_of_mem ((hlist.armed w).mpr hw))).1
    obtain ⟨t', ts', ht', -⟩ := hlist.timerDelete hnext
    simp [pendingStep, cancelDelayedWork, ht'] at hs
  | _ => exact trivial

theorem pendingInv_boot (n : ℕ) (declared : ℕ → Bool) : PendingInv (pendingBoot n declared) := by
  have hno : ∀ w, ¬ OnWorklist (pendingBoot n declared) w := by
    rintro w ⟨wq, hw⟩
    cases hw
  have hlist : ListInv (pendingBoot n declared).timers [] := by
    refine ⟨⟨List.nodup_singleton _, fun p hp => ?_, fun p hp => ?_⟩, fun t => ?_,
      List.forall_mem_nil _, List.forall_mem_nil _, fun t _ => ?_⟩
    · rw [List.mem_singleton.mp hp]
      rfl
    · rw [List.mem_singleton.mp hp]
      rfl
    · simp [pendingBoot, timerBoot]
    · simp only [pendingBoot]
      split
      · exact Or.inl rfl
      · exact Or.inr rfl
  have hdisarmed : ∀ w, ¬ (pendingBoot n declared).timers.armed w = true := fun _ => Bool.false_ne_true
  exact ⟨⟨⟨[], hlist⟩, .of_idle rfl⟩, rfl, fun w hw => absurd hw (hdisarmed w),
    fun w hw => absurd hw (hdisarmed w), fun w hw => absurd hw (hno w), fun _ => List.nodup_nil,
    fun w wq _ hw => absurd ⟨wq, hw⟩ (hno w)⟩

end Steps

/-- **The pending bit** is exact in every state of a run exactly when the run cancels no work
whose timer is armed. -/
theorem pending_exact_iff (n : ℕ) (declared : ℕ → Bool) (es : List Event) :
    Run.Always pendingStep PendingExact (pendingBoot n declared) es ↔
      Run.Guarded pendingStep CancelsUnarmed (pendingBoot n declared) es := by
  have hboot := pendingInv_boot n declared
  refine Run.always_iff_guarded_of_inv (J := PendingInv) ?_ ?_ ?_ hboot (hboot.exact_iff.mpr nofun)
  · intro s e s' h hs
    exact (pendingInv_step h hs).1
  · intro s e s' h hx hs
    exact (pendingInv_step h hs).2 hx
  · intro s e h _ hs
    exact cancelsUnarmed_of_stuck h hs

/-- A work is delayed and cancelled, and `queue_work` refuses it from then on. -/
theorem cancelled_work_is_lost :
    ¬ (∀ n declared es, Run.Always pendingStep PendingExact (pendingBoot n declared) es) ∧
      ∃ s, Run.exec pendingStep (pendingBoot 1 fun _ => false)
          [.queueDelayedWork 0 0 5 0, .cancelDelayedWork 0] = some s ∧
        s.pending 0 = true ∧ s.worklist 0 = [] ∧ s.timers.armed 0 = false ∧
        (queueWork s 0 0).2 = 0 := by
  have hfirst : (pendingStep (pendingBoot 1 fun _ => false) (.queueDelayedWork 0 0 5 0)).any
      (fun s => s.timers.armed 0) = true := by
    decide +kernel
  have hrun : (Run.exec pendingStep (pendingBoot 1 fun _ => false)
      [.queueDelayedWork 0 0 5 0, .cancelDelayedWork 0]).any (fun s => decide (s.pending 0 = true ∧
        s.worklist 0 = [] ∧ s.timers.armed 0 = false ∧ (queueWork s 0 0).2 = 0)) = true := by
    decide +kernel
  obtain ⟨s₁, hs₁, harmed⟩ := (Option.any_eq_true _ _).mp hfirst
  obtain ⟨s, hs, hbad⟩ := (Option.any_eq_true _ _).mp hrun
  refine ⟨fun hall => ?_, s, hs, of_decide_eq_true hbad⟩
  -- the bit was exact while the work was armed, so it is not after
  have h₁ := (pendingInv_step (pendingInv_boot 1 fun _ => false) hs₁).1
  have halways := (hall 1 (fun _ => false) [.queueDelayedWork 0 0 5 0, .cancelDelayedWork 0]).2 s₁ hs₁
  rw [Run.exec_cons, hs₁, Option.bind_some] at hs
  obtain ⟨s₂, hs₂, hlast⟩ := Run.exec_cons_eq_some.mp hs
  have hiff := (cancelDelayedWork_spec h₁ hs₂).2 halways.1
  rw [hiff.mp (halways.2 s₂ hs₂)] at harmed
  cases harmed

end Pending

end YakOS
