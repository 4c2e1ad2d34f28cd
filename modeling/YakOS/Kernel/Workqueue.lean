import Mathlib.Data.Fintype.Card
import Mathlib.Data.BitVec
import Mathlib.Tactic.Tauto
import YakOS.Lib.Links
import YakOS.Lib.Lists
import YakOS.Lib.Run

/-!
# Workqueues

The workqueues of `kernel/workqueue.c`: any number of callers of `queue_work`,
`queue_delayed_work` and `flush_workqueue`, the timers of the delayed works, and one worker
for each workqueue.  What a lock protects is one step; a sleeping caller or worker may be
resumed at any time.  `test_and_set_bit` is no such section: it loads the bit and stores it
with interrupts enabled, so it is two steps.

The worklists are kept as pointers, since a work whose bit two callers have both found clear
is linked twice.

## Main definitions

* `WorkSys`, `workStep` — the workqueues and their steps.
* `Accounted` — the works put on a worklist are those executed, the one that is next and
  those on the list, in this order, and the two sequence counters tell how many are left.
* `Drains` — the worker, left alone, executes all that was put on the list.
* `FlushedAtReturn` — a flush returns only when what was there before it has finished.
* `BitStillClear` — a bit that `test_and_set_bit` has found clear is clear when it is set.

## Main results

* `workqueue_runs` — in a run in which the bits are still clear all of these hold.
-/

namespace YakOS

namespace Workqueue

open Links

/-- A `work_struct *`: at most one at every word of memory. -/
abbrev WorkId := Fin (2 ^ 30)

/-- The nodes of the worklists. -/
inductive Node
  | head (wq : ℕ)
  | work (w : WorkId)
  deriving DecidableEq, Repr

/-- A call under way. -/
inductive Call
  /-- `test_and_set_bit` has loaded `old`; the work is to be delayed or not. -/
  | loaded (old : Bool) (wq : ℕ) (w : WorkId) (delayed : Bool)
  /-- `test_and_set_bit` has set a bit that was clear. -/
  | stored (wq : ℕ) (w : WorkId) (delayed : Bool)
  /-- `flush_workqueue` sleeps, with its `sequence_needed`; `mark` is the number of works
  that were put on the list before the call. -/
  | flushing (wq : ℕ) (needed : BitVec 32) (mark : ℕ)
  deriving DecidableEq, Repr

/-- The worker of a workqueue, in `run_workqueue`. -/
inductive Worker
  | idle
  /-- The work is off the list, its bit is still set. -/
  | taken (w : WorkId)
  /-- The function of the work is executing. -/
  | running (w : WorkId)
  deriving DecidableEq, Repr

/-- The work the worker has taken and not begun. -/
def Worker.next : Worker → List WorkId
  | taken w => [w]
  | _ => []

/-- One function is executing. -/
def Worker.executing : Worker → ℕ
  | running _ => 1
  | _ => 0

/-- A function is executing or about to. -/
def Worker.busy : Worker → ℕ
  | idle => 0
  | _ => 1

/-- The workqueues.  The last three fields are not in the code: for each workqueue the works
put on its list, the works whose functions were called, and the number of these that have
returned. -/
structure WorkSys where
  links : Links Node
  insertSequence : ℕ → BitVec 32
  removeSequence : ℕ → BitVec 32
  pending : WorkId → Bool
  wqData : WorkId → Option ℕ
  /-- The works whose timers are armed. -/
  timers : List WorkId
  calls : ℕ → Option Call
  worker : ℕ → Worker
  inserted : ℕ → List WorkId
  executed : ℕ → List WorkId
  finished : ℕ → ℕ

/-! ### The code -/

/-- What can happen next; `c` names a caller. -/
inductive Event
  /-- `queue_work` or `queue_delayed_work` is called: `test_and_set_bit` loads the bit. -/
  | load (c wq : ℕ) (w : WorkId) (delayed : Bool)
  /-- `test_and_set_bit` stores the bit; the call returns 0 if it was set. -/
  | store (c : ℕ)
  /-- The work is put on the list and `queue_work` returns 1. -/
  | insert (c : ℕ)
  /-- The timer is added and `queue_delayed_work` returns 1. -/
  | arm (c : ℕ)
  /-- `delayed_work_timer_fn`. -/
  | fire (w : WorkId)
  /-- The worker takes a work off the list. -/
  | take (wq : ℕ)
  /-- The worker clears the bit and calls the function. -/
  | clear (wq : ℕ)
  /-- The function has returned. -/
  | done (wq : ℕ)
  /-- `flush_workqueue` is called. -/
  | flush (c wq : ℕ)
  /-- A flush that sleeps is resumed. -/
  | resume (c : ℕ)
  deriving DecidableEq, Repr

/-- The section of `queue_work` and `delayed_work_timer_fn`. -/
def insertWork (s : WorkSys) (wq : ℕ) (w : WorkId) : Option WorkSys :=
  (s.links.listAddTail (.work w) (.head wq)).map fun l =>
    { s with
      links := l
      insertSequence := Function.update s.insertSequence wq (s.insertSequence wq + 1)
      inserted := Function.update s.inserted wq (s.inserted wq ++ [w]) }

/-- The test of `flush_workqueue`: sleep, or return. -/
def flushTest (s : WorkSys) (c wq : ℕ) (needed : BitVec 32) (mark : ℕ) : WorkSys :=
  { s with
    calls := Function.update s.calls c
      (if 0 < (needed - s.removeSequence wq).toInt then some (.flushing wq needed mark) else none) }

/-- One step. -/
def workStep (s : WorkSys) : Event → Option WorkSys
  | .load c wq w delayed =>
    if s.calls c = none then
      some { s with
        calls := Function.update s.calls c (some (.loaded (s.pending w) wq w delayed)) }
    else none
  | .store c =>
    match s.calls c with
    | some (.loaded old wq w delayed) =>
      some { s with
        pending := Function.update s.pending w true
        calls := Function.update s.calls c (if old then none else some (.stored wq w delayed)) }
    | _ => none
  | .insert c =>
    match s.calls c with
    | some (.stored wq w false) =>
      insertWork { s with
        wqData := Function.update s.wqData w (some wq)
        calls := Function.update s.calls c none } wq w
    | _ => none
  | .arm c =>
    match s.calls c with
    | some (.stored wq w true) =>
      some { s with
        wqData := Function.update s.wqData w (some wq)
        timers := s.timers ++ [w]
        calls := Function.update s.calls c none }
    | _ => none
  | .fire w =>
    match s.wqData w with
    | some wq =>
      if w ∈ s.timers then insertWork { s with timers := s.timers.erase w } wq w else none
    | none => none
  | .take wq =>
    if s.worker wq = .idle ∧ ¬ s.links.listEmpty (.head wq) then
      match s.links.next (.head wq) with
      | some (.work w) => (s.links.listDelInit (.work w)).map fun l =>
          { s with links := l, worker := Function.update s.worker wq (.taken w) }
      | _ => none
    else none
  | .clear wq =>
    match s.worker wq with
    | .taken w =>
      some { s with
        pending := Function.update s.pending w false
        worker := Function.update s.worker wq (.running w)
        executed := Function.update s.executed wq (s.executed wq ++ [w]) }
    | _ => none
  | .done wq =>
    match s.worker wq with
    | .running _ =>
      some { s with
        removeSequence := Function.update s.removeSequence wq (s.removeSequence wq + 1)
        worker := Function.update s.worker wq .idle
        finished := Function.update s.finished wq (s.finished wq + 1) }
    | _ => none
  | .flush c wq =>
    if s.calls c = none then
      some (flushTest s c wq (s.insertSequence wq) (s.inserted wq).length)
    else none
  | .resume c =>
    match s.calls c with
    | some (.flushing wq needed mark) => some (flushTest s c wq needed mark)
    | _ => none

/-- Workqueues and works that were just initialised. -/
def workBoot : WorkSys where
  links := { next := some, prev := some }
  insertSequence := fun _ => 0
  removeSequence := fun _ => 0
  pending := fun _ => false
  wqData := fun _ => none
  timers := []
  calls := fun _ => none
  worker := fun _ => .idle
  inserted := fun _ => []
  executed := fun _ => []
  finished := fun _ => 0

/-! ### The properties -/

/-- The works put on the list are those executed, the one that is next and those on the
list, in this order; all executed ones have finished but the one that is executing; and the
sequence counters tell how many are left. -/
def Accounted (s : WorkSys) : Prop :=
  ∀ wq, ∃ ws : List WorkId,
    Ring s.links (.head wq) (ws.map .work) ∧
    s.inserted wq = s.executed wq ++ (s.worker wq).next ++ ws ∧
    (s.executed wq).length = s.finished wq + (s.worker wq).executing ∧
    s.insertSequence wq - s.removeSequence wq =
      BitVec.ofNat 32 (ws.length + (s.worker wq).busy)

/-- Left alone, the worker executes what was put on the list, and nothing else. -/
def Drains (s : WorkSys) : Prop :=
  ∀ wq, ∃ es s', (∀ e ∈ es, e = .take wq ∨ e = .clear wq ∨ e = .done wq) ∧
    Run.exec workStep s es = some s' ∧ s'.executed wq = s.inserted wq ∧
    s'.finished wq = (s.inserted wq).length

/-- A flush returns only when the works that were put on the list before it was called have
finished. -/
def FlushedAtReturn (s : WorkSys) (e : Event) (s' : WorkSys) : Prop :=
  match e with
  | .flush c wq => s'.calls c = none → s.finished wq = (s.inserted wq).length
  | .resume c =>
    match s.calls c with
    | some (.flushing wq _ mark) => s'.calls c = none → mark ≤ s.finished wq
    | _ => True
  | _ => True

/-- The work whose bit a call has found clear. -/
def Call.foundClear : Call → Option WorkId
  | loaded false _ w _ => some w
  | _ => none

/-- A bit that `test_and_set_bit` has found clear is still clear when it is set. -/
def BitStillClear (s : WorkSys) : Event → Prop
  | .store c => ((s.calls c).bind Call.foundClear).all (fun w => !s.pending w) = true
  | _ => True

instance (s : WorkSys) (e : Event) : Decidable (BitStillClear s e) :=
  match e with
  | .store _ => inferInstanceAs (Decidable (_ = true))
  | .load _ _ _ _ | .insert _ | .arm _ | .fire _ | .take _ | .clear _ | .done _ | .flush _ _
  | .resume _ => isTrue trivial

/-! ### Who has a work -/

/-- Where a work whose bit is set can be. -/
inductive Place
  | call (c : ℕ)
  | timer
  | list (wq : ℕ)
  | worker (wq : ℕ)
  deriving DecidableEq, Repr

/-- A work is at a place; `ws` are the contents of the lists. -/
def At (s : WorkSys) (ws : ℕ → List WorkId) : Place → WorkId → Prop
  | .call c, w => ∃ wq delayed, s.calls c = some (.stored wq w delayed)
  | .timer, w => w ∈ s.timers
  | .list wq, w => w ∈ ws wq
  | .worker wq, w => s.worker wq = .taken w

/-- A work is at one place at most, and then its bit is set. -/
structure Sole (pending : WorkId → Bool) (at' : Place → WorkId → Prop) : Prop where
  pending : ∀ p w, at' p w → pending w = true
  sole : ∀ p p' w, at' p w → at' p' w → p = p'

section Sole

variable {pending : WorkId → Bool} {at₁ at₂ : Place → WorkId → Prop} {w₀ : WorkId}

/-- Works at different places are different. -/
theorem Sole.ne_of_place (h : Sole pending at₁) {p p' : Place} {w w' : WorkId} (hp : at₁ p w)
    (hp' : at₁ p' w') (hne : p ≠ p') : w ≠ w' := by
  rintro rfl
  exact hne (h.sole p p' w hp hp')

theorem Sole.mono (h : Sole pending at₁) (hle : ∀ p w, at₂ p w → at₁ p w) :
    Sole pending at₂ where
  pending p w hp := h.pending p w (hle p w hp)
  sole p p' w hp hp' := h.sole p p' w (hle p w hp) (hle p' w hp')

/-- A work goes to a place; it leaves the place where it was. -/
theorem Sole.move (h : Sole pending at₁) (p₀ : Place)
    (hle : ∀ p w, at₂ p w → (p = p₀ ∧ w = w₀) ∨ (w ≠ w₀ ∧ at₁ p w)) :
    Sole (Function.update pending w₀ true) at₂ where
  pending p w hp := by
    rcases hle p w hp with ⟨-, rfl⟩ | ⟨hne, hp⟩
    · exact Function.update_self _ _ _
    · rw [Function.update_of_ne hne]
      exact h.pending p w hp
  sole p p' w hp hp' := by
    rcases hle p w hp with ⟨rfl, rfl⟩ | ⟨hne, hp⟩
    · rcases hle p' w hp' with ⟨rfl, -⟩ | ⟨hne, -⟩
      · rfl
      · exact absurd rfl hne
    · rcases hle p' w hp' with ⟨-, rfl⟩ | ⟨-, hp'⟩
      · exact absurd rfl hne
      · exact h.sole p p' w hp hp'

/-- The bit of a work is cleared; it is nowhere. -/
theorem Sole.clear (h : Sole pending at₁) (hle : ∀ p w, at₂ p w → w ≠ w₀ ∧ at₁ p w) :
    Sole (Function.update pending w₀ false) at₂ where
  pending p w hp := by
    obtain ⟨hne, hp⟩ := hle p w hp
    rw [Function.update_of_ne hne]
    exact h.pending p w hp
  sole p p' w hp hp' := h.sole p p' w (hle p w hp).2 (hle p' w hp').2

end Sole

/-! ### The invariant -/

/-- The invariant of the workqueues; `ws` are the contents of the lists. -/
structure WorkInv (s : WorkSys) (ws : ℕ → List WorkId) : Prop where
  ring : ∀ wq, Ring s.links (.head wq) ((ws wq).map .work)
  history : ∀ wq, s.inserted wq = s.executed wq ++ (s.worker wq).next ++ ws wq
  executed : ∀ wq, (s.executed wq).length = s.finished wq + (s.worker wq).executing
  insertSeq : ∀ wq, s.insertSequence wq = BitVec.ofNat 32 (s.inserted wq).length
  removeSeq : ∀ wq, s.removeSequence wq = BitVec.ofNat 32 (s.finished wq)
  sole : Sole s.pending (At s ws)
  timers : s.timers.Nodup
  flush : ∀ c wq needed mark, s.calls c = some (.flushing wq needed mark) →
    needed = BitVec.ofNat 32 mark ∧ mark ≤ (s.inserted wq).length

theorem workInv_boot : WorkInv workBoot fun _ => [] where
  ring wq := ⟨List.nodup_singleton _, fun p hp => by rw [List.mem_singleton.mp hp]; rfl,
    fun p hp => by rw [List.mem_singleton.mp hp]; rfl⟩
  history _ := rfl
  executed _ := rfl
  insertSeq _ := rfl
  removeSeq _ := rfl
  sole := by
    have hnone : ∀ p w, ¬ At workBoot (fun _ => []) p w := by
      intro p w hp
      cases p with
      | call c =>
        obtain ⟨wq, delayed, h⟩ := hp
        cases h
      | timer => cases hp
      | list wq => cases hp
      | worker wq => cases hp
    exact ⟨fun p w hp => absurd hp (hnone p w), fun p _ w hp => absurd hp (hnone p w)⟩
  timers := List.nodup_nil
  flush := nofun

section Steps

variable {s : WorkSys} {ws : ℕ → List WorkId}

theorem WorkInv.nodup (h : WorkInv s ws) (wq : ℕ) : (ws wq).Nodup :=
  (List.nodup_cons.mp (h.ring wq).nodup).2.of_map

/-- The works that are left: those inserted and not finished. -/
theorem WorkInv.left_eq (h : WorkInv s ws) (wq : ℕ) :
    (s.inserted wq).length = s.finished wq + (ws wq).length + (s.worker wq).busy := by
  rw [h.history wq, List.length_append, List.length_append, h.executed wq]
  cases s.worker wq with
  | idle => simp [Worker.next, Worker.executing, Worker.busy]
  | taken w => simp [Worker.next, Worker.executing, Worker.busy]; omega
  | running w => simp [Worker.next, Worker.executing, Worker.busy]; omega

/-- There are less works left than the sequence counters can tell apart. -/
theorem WorkInv.left_lt (h : WorkInv s ws) (wq : ℕ) :
    (s.inserted wq).length - s.finished wq < 2 ^ 31 := by
  have hlen : (ws wq).length ≤ 2 ^ 30 := by
    simpa using (h.nodup wq).length_le_card
  have hbusy : (s.worker wq).busy ≤ 1 := by
    cases s.worker wq <;> simp [Worker.busy]
  have := h.left_eq wq
  omega

theorem WorkInv.accounted (h : WorkInv s ws) : Accounted s := by
  intro wq
  refine ⟨ws wq, h.ring wq, h.history wq, h.executed wq, ?_⟩
  have hsplit : (s.inserted wq).length =
      s.finished wq + ((ws wq).length + (s.worker wq).busy) := by
    rw [h.left_eq wq, Nat.add_assoc]
  rw [h.insertSeq, h.removeSeq, hsplit, BitVec.ofNat_add, BitVec.add_comm, BitVec.add_sub_cancel]

/-- The comparison of the sequence numbers tells whether the first `mark` works have
finished. -/
theorem WorkInv.finished_of_test (h : WorkInv s ws) {wq mark : ℕ}
    (hmark : mark ≤ (s.inserted wq).length)
    (htest : ¬ 0 < (BitVec.ofNat 32 mark - s.removeSequence wq).toInt) : mark ≤ s.finished wq := by
  by_contra hlt
  refine htest ?_
  have hleft := h.left_lt wq
  obtain ⟨n, hn⟩ : ∃ n, mark = s.finished wq + n := ⟨mark - s.finished wq, by omega⟩
  have hsub : BitVec.ofNat 32 mark - s.removeSequence wq = BitVec.ofNat 32 n := by
    rw [h.removeSeq, hn, BitVec.ofNat_add, BitVec.add_comm, BitVec.add_sub_cancel]
  rw [hsub, BitVec.toInt_ofNat']
  have hn31 : n < 2 ^ 31 := by omega
  have hmod : n % 2 ^ 32 = n := Nat.mod_eq_of_lt (by omega)
  rw [Int.bmod_def]
  omega

/-! ### Steps -/

/-- The call of `c` changes; it neither gets hold of a work nor keeps one. -/
theorem WorkInv.setCall (h : WorkInv s ws) {c : ℕ} {x : Option Call}
    (hx : ∀ wq w delayed, x ≠ some (.stored wq w delayed))
    (hflush : ∀ wq needed mark, x = some (.flushing wq needed mark) →
      needed = BitVec.ofNat 32 mark ∧ mark ≤ (s.inserted wq).length) :
    WorkInv { s with calls := Function.update s.calls c x } ws ∧
      (∀ p w, At { s with calls := Function.update s.calls c x } ws p w → At s ws p w ∧ p ≠ .call c)
      := by
  have hle : ∀ p w, At { s with calls := Function.update s.calls c x } ws p w →
      At s ws p w ∧ p ≠ .call c := by
    intro p w hp
    cases p with
    | call c' =>
      obtain ⟨wq, delayed, hc⟩ := hp
      by_cases hcc : c' = c
      · subst hcc
        dsimp only at hc
        rw [Function.update_self] at hc
        exact absurd hc (hx wq w delayed)
      · dsimp only at hc
        rw [Function.update_of_ne hcc] at hc
        exact ⟨⟨wq, delayed, hc⟩, fun e => hcc (Place.call.inj e)⟩
    | timer | list wq | worker wq => exact ⟨hp, nofun⟩
  refine ⟨⟨h.ring, h.history, h.executed, h.insertSeq, h.removeSeq,
    h.sole.mono fun p w hp => (hle p w hp).1, h.timers, fun c' wq needed mark hc => ?_⟩, hle⟩
  by_cases hcc : c' = c
  · subst hcc
    dsimp only at hc
    rw [Function.update_self] at hc
    exact hflush wq needed mark hc
  · dsimp only at hc
    rw [Function.update_of_ne hcc] at hc
    exact h.flush c' wq needed mark hc

/-- The circles of the other workqueues do not change. -/
theorem WorkInv.ring_other (h : WorkInv s ws) {l' : Links Node} {wq q : ℕ} {w : WorkId}
    (hf : Frame s.links l' (.work w) (.head wq :: (ws wq).map .work)) (hq : q ≠ wq)
    (hw : w ∉ ws q) : Ring l' (.head q) ((ws q).map .work) := by
  have hsame : ∀ y ∈ Node.head q :: (ws q).map Node.work,
      l'.next y = s.links.next y ∧ l'.prev y = s.links.prev y := by
    intro y hy
    rcases List.mem_cons.mp hy with rfl | hy
    · refine hf _ nofun ?_
      intro hm
      rcases List.mem_cons.mp hm with e | hm
      · exact hq (Node.head.inj e)
      · simp at hm
    · obtain ⟨v, hv, rfl⟩ := List.mem_map.mp hy
      refine hf _ (fun e => hw (Node.work.inj e ▸ hv)) ?_
      intro hm
      rcases List.mem_cons.mp hm with e | hm
      · cases e
      · have hv' : v ∈ ws wq := by simpa using hm
        exact hq (Place.list.inj (h.sole.sole (.list q) (.list wq) v hv hv'))
  exact (h.ring q).congr (fun y hy => (hsame y hy).1) fun y hy => (hsame y hy).2

/-- A work that was nowhere is on the list it is put on; the others stay where they are. -/
theorem at_append {wq : ℕ} {w v : WorkId} (hw : ∀ p, ¬ At s ws p w) {p : Place}
    (hp : At s (Function.update ws wq (ws wq ++ [w])) p v) :
    (p = .list wq ∧ v = w) ∨ (v ≠ w ∧ At s ws p v) := by
  have hold : ∀ q, At s ws q v → v ≠ w := fun q hq e => hw q (e ▸ hq)
  cases p with
  | list q =>
    by_cases hq : q = wq
    · subst hq
      have hv : v ∈ ws q ++ [w] := by simpa only [At, Function.update_self] using hp
      rcases List.mem_append.mp hv with hv | hv
      · exact Or.inr ⟨hold (.list q) hv, hv⟩
      · exact Or.inl ⟨rfl, List.mem_singleton.mp hv⟩
    · have hv : v ∈ ws q := by simpa only [At, Function.update_of_ne hq] using hp
      exact Or.inr ⟨hold (.list q) hv, hv⟩
  | call c => exact Or.inr ⟨hold (.call c) hp, hp⟩
  | timer => exact Or.inr ⟨hold .timer hp, hp⟩
  | worker q => exact Or.inr ⟨hold (.worker q) hp, hp⟩

/-- The section that puts a work on a list, when the work is nowhere. -/
theorem WorkInv.insertWork {wq : ℕ} {w : WorkId} {s' : WorkSys} (h : WorkInv s ws)
    (hw : ∀ p, ¬ At s ws p w) (hpend : s.pending w = true)
    (hs : insertWork s wq w = some s') :
    WorkInv s' (Function.update ws wq (ws wq ++ [w])) := by
  have hn : Node.work w ∉ Node.head wq :: (ws wq).map Node.work := by
    intro hm
    exact hw (.list wq) (by simpa using hm : w ∈ ws wq)
  obtain ⟨l', hl', hr', hf⟩ := (h.ring wq).listAddTail hn
  obtain ⟨l, hl, rfl⟩ := Option.map_eq_some_iff.mp hs
  obtain rfl : l' = l := Option.some.inj (hl'.symm.trans hl)
  refine ⟨fun q => ?_, fun q => ?_, h.executed, fun q => ?_, h.removeSeq, ?_, h.timers,
    fun c q needed mark hc => ?_⟩
  · by_cases hq : q = wq
    · subst hq
      rw [Function.update_self, List.map_append]
      exact hr'
    · rw [Function.update_of_ne hq]
      exact h.ring_other hf hq (hw (.list q))
  · by_cases hq : q = wq
    · subst hq
      dsimp only
      rw [Function.update_self, Function.update_self, h.history q, List.append_assoc]
    · dsimp only
      rw [Function.update_of_ne hq, Function.update_of_ne hq]
      exact h.history q
  · by_cases hq : q = wq
    · subst hq
      dsimp only
      rw [Function.update_self, Function.update_self, h.insertSeq q, List.length_append,
        BitVec.ofNat_add]
      rfl
    · dsimp only
      rw [Function.update_of_ne hq, Function.update_of_ne hq]
      exact h.insertSeq q
  -- the work changes hands, with its bit set
  · have hsame : Function.update s.pending w true = s.pending := by
      rw [← hpend, Function.update_eq_self]
    rw [← hsame]
    exact h.sole.move (.list wq) fun p v hp => at_append hw hp
  · obtain ⟨hneed, hmark⟩ := h.flush c q needed mark hc
    refine ⟨hneed, hmark.trans ?_⟩
    by_cases hq : q = wq
    · subst hq
      dsimp only
      rw [Function.update_self, List.length_append]
      exact Nat.le_add_right _ _
    · dsimp only
      rw [Function.update_of_ne hq]

theorem workInv_insert {c : ℕ} {s' : WorkSys} (h : WorkInv s ws)
    (hs : workStep s (.insert c) = some s') : ∃ ws', WorkInv s' ws' := by
  simp only [workStep] at hs
  split at hs
  · next wq w hc =>
    have hat : At s ws (.call c) w := ⟨wq, false, hc⟩
    obtain ⟨h₁, hle⟩ := h.setCall (c := c) (x := none) nofun nofun
    have h₂ : WorkInv { s with
        wqData := Function.update s.wqData w (some wq)
        calls := Function.update s.calls c none } ws :=
      ⟨h₁.ring, h₁.history, h₁.executed, h₁.insertSeq, h₁.removeSeq, h₁.sole, h₁.timers, h₁.flush⟩
    refine ⟨_, h₂.insertWork (fun p hp => ?_) (h.sole.pending _ _ hat) hs⟩
    obtain ⟨hp, hne⟩ := hle p w hp
    exact hne (h.sole.sole _ _ w hp hat)
  · cases hs

theorem workInv_fire {w : WorkId} {s' : WorkSys} (h : WorkInv s ws)
    (hs : workStep s (.fire w) = some s') : ∃ ws', WorkInv s' ws' := by
  simp only [workStep] at hs
  split at hs
  · next wq hwq =>
    obtain ⟨hmem, hs⟩ := Option.ite_none_right_eq_some.mp hs
    have hat : At s ws .timer w := hmem
    have hle : ∀ p v, At { s with timers := s.timers.erase w } ws p v →
        At s ws p v ∧ ¬ (p = .timer ∧ v = w) := by
      intro p v hp
      cases p with
      | timer =>
        have hv := (h.timers.mem_erase_iff).mp hp
        exact ⟨hv.2, fun e => hv.1 e.2⟩
      | call c => exact ⟨hp, nofun⟩
      | list q => exact ⟨hp, nofun⟩
      | worker q => exact ⟨hp, nofun⟩
    have h₁ : WorkInv { s with timers := s.timers.erase w } ws :=
      ⟨h.ring, h.history, h.executed, h.insertSeq, h.removeSeq,
        h.sole.mono fun p v hp => (hle p v hp).1, h.timers.erase w, h.flush⟩
    refine ⟨_, h₁.insertWork (fun p hp => ?_) (h.sole.pending _ _ hat) hs⟩
    obtain ⟨hp, hne⟩ := hle p w hp
    exact hne ⟨h.sole.sole _ _ w hp hat, rfl⟩
  · cases hs

theorem workInv_arm {c : ℕ} {s' : WorkSys} (h : WorkInv s ws)
    (hs : workStep s (.arm c) = some s') : ∃ ws', WorkInv s' ws' := by
  simp only [workStep] at hs
  split at hs
  · next wq w hc =>
    obtain rfl := Option.some.inj hs
    have hat : At s ws (.call c) w := ⟨wq, true, hc⟩
    obtain ⟨h₁, hle⟩ := h.setCall (c := c) (x := none) nofun nofun
    have hnot : w ∉ s.timers := fun hm => nomatch h.sole.sole _ .timer w hat hm
    have hnodup : (s.timers ++ [w]).Nodup :=
      h.timers.append (List.nodup_singleton w) (List.disjoint_singleton.mpr hnot)
    refine ⟨ws, h₁.ring, h₁.history, h₁.executed, h₁.insertSeq, h₁.removeSeq, ?_, hnodup, h₁.flush⟩
    have hsame : Function.update s.pending w true = s.pending := by
      rw [← h.sole.pending _ _ hat, Function.update_eq_self]
    rw [← hsame]
    -- the work goes from the call to the timer
    apply h.sole.move .timer
    intro p v hp
    cases p with
    | timer =>
      rcases List.mem_append.mp hp with hp | hp
      · by_cases hv : v = w
        · exact Or.inl ⟨rfl, hv⟩
        · exact Or.inr ⟨hv, hp⟩
      · exact Or.inl ⟨rfl, List.mem_singleton.mp hp⟩
    | call c' =>
      obtain ⟨hp, hne⟩ := hle (.call c') v hp
      exact Or.inr ⟨h.sole.ne_of_place hp hat hne, hp⟩
    | list q => exact Or.inr ⟨h.sole.ne_of_place (p := .list q) hp hat nofun, hp⟩
    | worker q => exact Or.inr ⟨h.sole.ne_of_place (p := .worker q) hp hat nofun, hp⟩
  · cases hs

theorem workInv_store {c : ℕ} {s' : WorkSys} (h : WorkInv s ws)
    (hguard : BitStillClear s (.store c)) (hs : workStep s (.store c) = some s') :
    ∃ ws', WorkInv s' ws' := by
  simp only [workStep] at hs
  split at hs
  · next old wq w delayed hc =>
    obtain rfl := Option.some.inj hs
    obtain ⟨h₁, hle⟩ := h.setCall (c := c) (x := none) nofun nofun
    cases old with
    -- the bit was set already, and the call ends
    | true =>
      refine ⟨ws, h₁.ring, h₁.history, h₁.executed, h₁.insertSeq, h₁.removeSeq, ⟨fun p v hp => ?_,
        h₁.sole.sole⟩, h₁.timers, h₁.flush⟩
      by_cases hv : v = w
      · rw [hv]
        exact Function.update_self _ _ _
      · dsimp only
        rw [Function.update_of_ne hv]
        exact h₁.sole.pending p v hp
    | false =>
      have hclear : s.pending w = false := by
        simpa [BitStillClear, hc, Call.foundClear] using hguard
      refine ⟨ws, h₁.ring, h₁.history, h₁.executed, h₁.insertSeq, h₁.removeSeq, ?_, h₁.timers,
        fun c' q needed mark hc' => ?_⟩
      · -- nobody has the work, since its bit is clear
        refine h.sole.move (.call c) ?_
        intro p v hp
        have hnone : ∀ q, At s ws q v → v ≠ w := by
          intro q hq e
          rw [← e, h.sole.pending q v hq] at hclear
          cases hclear
        cases p with
        | call c' =>
          by_cases hcc : c' = c
          · subst hcc
            obtain ⟨q, d, hq⟩ := hp
            dsimp only at hq
            rw [Function.update_self] at hq
            cases hq
            exact Or.inl ⟨rfl, rfl⟩
          · have hp' : At s ws (.call c') v := by
              simpa only [At, Function.update_of_ne hcc] using hp
            exact Or.inr ⟨hnone _ hp', hp'⟩
        | timer => exact Or.inr ⟨hnone .timer hp, hp⟩
        | list q => exact Or.inr ⟨hnone (.list q) hp, hp⟩
        | worker q => exact Or.inr ⟨hnone (.worker q) hp, hp⟩
      · by_cases hcc : c' = c
        · subst hcc
          dsimp only at hc'
          rw [Function.update_self] at hc'
          cases hc'
        · dsimp only at hc'
          rw [Function.update_of_ne hcc] at hc'
          exact h.flush c' q needed mark hc'
  · cases hs

/-- The worker has the work it takes from its list; the others stay where they are. -/
theorem WorkInv.at_take {wq : ℕ} {w v : WorkId} {rest : List WorkId} (h : WorkInv s ws)
    (hws : ws wq = w :: rest) (hat : At s ws (.list wq) w) {p : Place}
    (hp : At { s with worker := Function.update s.worker wq (.taken w) }
      (Function.update ws wq rest) p v) :
    (p = .worker wq ∧ v = w) ∨ (v ≠ w ∧ At s ws p v) := by
  have hold : ∀ q, At s ws q v → q ≠ .list wq → v ≠ w := fun q hq hqw =>
    h.sole.ne_of_place hq hat hqw
  cases p with
  | list q =>
    by_cases hq : q = wq
    · subst hq
      have hnd := h.nodup q
      rw [hws] at hnd
      have hv : v ∈ rest := by simpa only [At, Function.update_self] using hp
      refine Or.inr ⟨fun e => (List.nodup_cons.mp hnd).1 (e ▸ hv), ?_⟩
      change v ∈ ws q
      rw [hws]
      exact List.mem_cons_of_mem w hv
    · have hv : v ∈ ws q := by simpa only [At, Function.update_of_ne hq] using hp
      exact Or.inr ⟨hold (.list q) hv fun e => hq (Place.list.inj e), hv⟩
  | worker q =>
    by_cases hq : q = wq
    · subst hq
      simp only [At, Function.update_self] at hp
      cases hp
      exact Or.inl ⟨rfl, rfl⟩
    · have hv : s.worker q = .taken v := by
        simpa only [At, Function.update_of_ne hq] using hp
      exact Or.inr ⟨hold (.worker q) hv nofun, hv⟩
  | call c => exact Or.inr ⟨hold (.call c) hp nofun, hp⟩
  | timer => exact Or.inr ⟨hold .timer hp nofun, hp⟩

/-- The worker takes the first work of a list that is not empty. -/
theorem WorkInv.take {wq : ℕ} {w : WorkId} {rest : List WorkId} (h : WorkInv s ws)
    (hidle : s.worker wq = .idle) (hws : ws wq = w :: rest) :
    ∃ s', workStep s (.take wq) = some s' ∧ WorkInv s' (Function.update ws wq rest) ∧
      s'.worker wq = .taken w ∧ s'.inserted = s.inserted := by
  have hring := h.ring wq
  rw [hws, List.map_cons] at hring
  have hnext : s.links.next (.head wq) = some (.work w) := hring.next_head
  have hempty : ¬ s.links.listEmpty (.head wq) = true := by
    simp [Links.listEmpty, hnext]
  have hfirst : Ring s.links (.head wq) ([] ++ .work w :: rest.map .work) := hring
  obtain ⟨l', hl', hr', -, -, hf⟩ := hfirst.listDelInit
  -- the work is on this list, and so nowhere else
  have hat : At s ws (.list wq) w := by
    change w ∈ ws wq
    rw [hws]
    exact List.mem_cons_self
  refine ⟨{ s with links := l', worker := Function.update s.worker wq (.taken w) }, ?_,
    ⟨fun q => ?_, fun q => ?_, fun q => ?_, h.insertSeq, h.removeSeq, ?_, h.timers, h.flush⟩,
    Function.update_self _ _ _, rfl⟩
  · simp only [workStep, hnext]
    rw [if_pos ⟨hidle, hempty⟩, hl']
    rfl
  · by_cases hq : q = wq
    · subst hq
      rw [Function.update_self]
      exact hr'
    · rw [Function.update_of_ne hq]
      rw [← List.map_cons, List.nil_append, ← hws] at hf
      apply h.ring_other hf hq
      intro hm
      exact hq (Place.list.inj (h.sole.sole (.list q) (.list wq) w hm hat))
  · by_cases hq : q = wq
    · subst hq
      have := h.history q
      rw [hidle, hws] at this
      dsimp only
      rw [Function.update_self, Function.update_self, this]
      simp [Worker.next]
    · dsimp only
      rw [Function.update_of_ne hq, Function.update_of_ne hq]
      exact h.history q
  · by_cases hq : q = wq
    · subst hq
      have := h.executed q
      rw [hidle] at this
      dsimp only
      rw [Function.update_self]
      exact this
    · dsimp only
      rw [Function.update_of_ne hq]
      exact h.executed q
  -- the work goes from the list to the worker
  · have hsame : Function.update s.pending w true = s.pending := by
      rw [← h.sole.pending _ _ hat, Function.update_eq_self]
    rw [← hsame]
    exact h.sole.move (.worker wq) fun p v hp => h.at_take hws hat hp

theorem workInv_take {wq : ℕ} {s' : WorkSys} (h : WorkInv s ws)
    (hs : workStep s (.take wq) = some s') : ∃ ws', WorkInv s' ws' := by
  obtain ⟨⟨hidle, hempty⟩, -⟩ := Option.ite_none_right_eq_some.mp hs
  cases hws : ws wq with
  | nil =>
    have hring := h.ring wq
    rw [hws] at hring
    have hnext : s.links.next (.head wq) = some (.head wq) := hring.next_head
    simp [Links.listEmpty, hnext] at hempty
  | cons w rest =>
    obtain ⟨s₁, hs₁, h₁, -, -⟩ := h.take hidle hws
    obtain rfl : s₁ = s' := Option.some.inj (hs₁.symm.trans hs)
    exact ⟨_, h₁⟩

/-- The worker begins the work it has taken. -/
theorem WorkInv.clear {wq : ℕ} {w : WorkId} (h : WorkInv s ws) (hw : s.worker wq = .taken w) :
    ∃ s', workStep s (.clear wq) = some s' ∧ WorkInv s' ws ∧ s'.worker wq = .running w ∧
      s'.inserted = s.inserted := by
  have hat : At s ws (.worker wq) w := hw
  refine ⟨{ s with
      pending := Function.update s.pending w false
      worker := Function.update s.worker wq (.running w)
      executed := Function.update s.executed wq (s.executed wq ++ [w]) }, ?_,
    ⟨h.ring, fun q => ?_, fun q => ?_, h.insertSeq, h.removeSeq, ?_, h.timers, h.flush⟩,
    Function.update_self _ _ _, rfl⟩
  · simp only [workStep, hw]
  · by_cases hq : q = wq
    · subst hq
      have := h.history q
      rw [hw] at this
      dsimp only
      rw [Function.update_self, Function.update_self, this]
      simp [Worker.next]
    · dsimp only
      rw [Function.update_of_ne hq, Function.update_of_ne hq]
      exact h.history q
  · by_cases hq : q = wq
    · subst hq
      have := h.executed q
      rw [hw] at this
      dsimp only
      rw [Function.update_self, Function.update_self, List.length_append, this]
      rfl
    · dsimp only
      rw [Function.update_of_ne hq, Function.update_of_ne hq]
      exact h.executed q
  · -- nobody else has the work, so that its bit may be cleared
    apply h.sole.clear
    intro p v hp
    have hne : ∀ q, At s ws q v → q ≠ .worker wq → v ≠ w := fun q hq hqw =>
      h.sole.ne_of_place hq hat hqw
    cases p with
    | worker q =>
      by_cases hq : q = wq
      · subst hq
        simp only [At, Function.update_self] at hp
        cases hp
      · have hv : s.worker q = .taken v := by
          simpa only [At, Function.update_of_ne hq] using hp
        exact ⟨hne (.worker q) hv fun e => hq (Place.worker.inj e), hv⟩
    | call c => exact ⟨hne (.call c) hp nofun, hp⟩
    | timer => exact ⟨hne .timer hp nofun, hp⟩
    | list q => exact ⟨hne (.list q) hp nofun, hp⟩

/-- The function of the work returns. -/
theorem WorkInv.done {wq : ℕ} {w : WorkId} (h : WorkInv s ws) (hw : s.worker wq = .running w) :
    ∃ s', workStep s (.done wq) = some s' ∧ WorkInv s' ws ∧ s'.worker wq = .idle ∧
      s'.inserted = s.inserted := by
  refine ⟨{ s with
      removeSequence := Function.update s.removeSequence wq (s.removeSequence wq + 1)
      worker := Function.update s.worker wq .idle
      finished := Function.update s.finished wq (s.finished wq + 1) }, ?_,
    ⟨h.ring, fun q => ?_, fun q => ?_, h.insertSeq, fun q => ?_, ?_, h.timers, h.flush⟩,
    Function.update_self _ _ _, rfl⟩
  · simp only [workStep, hw]
  · by_cases hq : q = wq
    · subst hq
      have := h.history q
      rw [hw] at this
      dsimp only
      rw [Function.update_self]
      exact this
    · dsimp only
      rw [Function.update_of_ne hq]
      exact h.history q
  · by_cases hq : q = wq
    · subst hq
      have := h.executed q
      rw [hw] at this
      dsimp only
      rw [Function.update_self, Function.update_self]
      exact this
    · dsimp only
      rw [Function.update_of_ne hq, Function.update_of_ne hq]
      exact h.executed q
  · by_cases hq : q = wq
    · subst hq
      dsimp only
      rw [Function.update_self, Function.update_self, h.removeSeq q, BitVec.ofNat_add]
      rfl
    · dsimp only
      rw [Function.update_of_ne hq, Function.update_of_ne hq]
      exact h.removeSeq q
  · apply h.sole.mono
    intro p v hp
    cases p with
    | worker q =>
      by_cases hq : q = wq
      · subst hq
        simp only [At, Function.update_self] at hp
        cases hp
      · simpa only [At, Function.update_of_ne hq] using hp
    | call c => exact hp
    | timer => exact hp
    | list q => exact hp

/-- The test of a flush. -/
theorem WorkInv.flushTest (h : WorkInv s ws) {c wq mark : ℕ} {needed : BitVec 32}
    (hneed : needed = BitVec.ofNat 32 mark) (hmark : mark ≤ (s.inserted wq).length) :
    WorkInv (flushTest s c wq needed mark) ws ∧
      ((flushTest s c wq needed mark).calls c = none → mark ≤ s.finished wq) := by
  constructor
  · refine (h.setCall (c := c) (fun q w delayed hx => ?_) fun q n m hx => ?_).1
    · split at hx <;> cases hx
    · split at hx
      · cases hx
        exact ⟨hneed, hmark⟩
      · cases hx
  · intro hret
    simp only [Workqueue.flushTest, Function.update_self] at hret
    split at hret
    · cases hret
    · next htest =>
      rw [hneed] at htest
      exact h.finished_of_test hmark htest

/-- **Every guarded step keeps the invariant.** -/
theorem workInv_step {s' : WorkSys} {e : Event} (h : WorkInv s ws) (hguard : BitStillClear s e)
    (hs : workStep s e = some s') : ∃ ws', WorkInv s' ws' := by
  cases e with
  | load c wq w delayed =>
    obtain ⟨-, hs⟩ := Option.ite_none_right_eq_some.mp hs
    obtain rfl := Option.some.inj hs
    exact ⟨ws, (h.setCall (fun _ _ _ e => by cases e) fun _ _ _ e => by cases e).1⟩
  | store c => exact workInv_store h hguard hs
  | insert c => exact workInv_insert h hs
  | arm c => exact workInv_arm h hs
  | fire w => exact workInv_fire h hs
  | take wq => exact workInv_take h hs
  | clear wq =>
    simp only [workStep] at hs
    split at hs
    · next w hw =>
      obtain ⟨s₁, hs₁, h₁, -, -⟩ := h.clear hw
      simp only [workStep, hw] at hs₁
      obtain rfl : s₁ = s' := Option.some.inj (hs₁.symm.trans hs)
      exact ⟨ws, h₁⟩
    · cases hs
  | done wq =>
    simp only [workStep] at hs
    split at hs
    · next w hw =>
      obtain ⟨s₁, hs₁, h₁, -, -⟩ := h.done hw
      simp only [workStep, hw] at hs₁
      obtain rfl : s₁ = s' := Option.some.inj (hs₁.symm.trans hs)
      exact ⟨ws, h₁⟩
    · cases hs
  | flush c wq =>
    obtain ⟨-, hs⟩ := Option.ite_none_right_eq_some.mp hs
    obtain rfl := Option.some.inj hs
    exact ⟨ws, (h.flushTest (h.insertSeq wq) le_rfl).1⟩
  | resume c =>
    simp only [workStep] at hs
    split at hs
    · next wq needed mark hc =>
      obtain rfl := Option.some.inj hs
      obtain ⟨hneed, hmark⟩ := h.flush c wq needed mark hc
      exact ⟨ws, (h.flushTest hneed hmark).1⟩
    · cases hs

/-! ### Runs -/

/-- An idle worker executes its list. -/
theorem WorkInv.drains_idle {wq : ℕ} {rest : List WorkId} (h : WorkInv s ws)
    (hidle : s.worker wq = .idle) (hws : ws wq = rest) :
    ∃ es s', (∀ e ∈ es, e = .take wq ∨ e = .clear wq ∨ e = .done wq) ∧
      Run.exec workStep s es = some s' ∧ s'.executed wq = s.inserted wq ∧
      s'.finished wq = (s.inserted wq).length := by
  induction rest generalizing s ws with
  | nil =>
    have hhist := h.history wq
    have hexec := h.executed wq
    rw [hidle, hws] at hhist
    rw [hidle] at hexec
    simp only [Worker.next, List.append_nil] at hhist
    exact ⟨[], s, nofun, rfl, hhist.symm, by rw [hhist, hexec]; rfl⟩
  | cons w rest ih =>
    obtain ⟨s₁, hs₁, h₁, hw₁, hi₁⟩ := h.take hidle hws
    obtain ⟨s₂, hs₂, h₂, hw₂, hi₂⟩ := h₁.clear hw₁
    obtain ⟨s₃, hs₃, h₃, hw₃, hi₃⟩ := h₂.done hw₂
    obtain ⟨es, s', hes, hrun, hexec, hfin⟩ := ih h₃ hw₃ (Function.update_self _ _ _)
    rw [hi₃, hi₂, hi₁] at hexec hfin
    refine ⟨.take wq :: .clear wq :: .done wq :: es, s', ?_, ?_, hexec, hfin⟩
    · intro e he
      simp only [List.mem_cons] at he
      rcases he with rfl | rfl | rfl | he
      · exact Or.inl rfl
      · exact Or.inr (Or.inl rfl)
      · exact Or.inr (Or.inr rfl)
      · exact hes e he
    · simp only [Run.exec_cons, hs₁, hs₂, hs₃, Option.bind_some]
      exact hrun

theorem WorkInv.drains (h : WorkInv s ws) : Drains s := by
  intro wq
  cases hw : s.worker wq with
  | idle => exact h.drains_idle hw rfl
  | taken w =>
    obtain ⟨s₁, hs₁, h₁, hw₁, hi₁⟩ := h.clear hw
    obtain ⟨s₂, hs₂, h₂, hw₂, hi₂⟩ := h₁.done hw₁
    obtain ⟨es, s', hes, hrun, hexec, hfin⟩ := h₂.drains_idle hw₂ rfl
    rw [hi₂, hi₁] at hexec hfin
    refine ⟨.clear wq :: .done wq :: es, s', ?_, ?_, hexec, hfin⟩
    · intro e he
      simp only [List.mem_cons] at he
      rcases he with rfl | rfl | he
      · exact Or.inr (Or.inl rfl)
      · exact Or.inr (Or.inr rfl)
      · exact hes e he
    · simp only [Run.exec_cons, hs₁, hs₂, Option.bind_some]
      exact hrun
  | running w =>
    obtain ⟨s₁, hs₁, h₁, hw₁, hi₁⟩ := h.done hw
    obtain ⟨es, s', hes, hrun, hexec, hfin⟩ := h₁.drains_idle hw₁ rfl
    rw [hi₁] at hexec hfin
    refine ⟨.done wq :: es, s', ?_, ?_, hexec, hfin⟩
    · intro e he
      rcases List.mem_cons.mp he with rfl | he
      · exact Or.inr (Or.inr rfl)
      · exact hes e he
    · simp only [Run.exec_cons, hs₁, Option.bind_some]
      exact hrun

theorem WorkInv.flushedAtReturn {s' : WorkSys} {e : Event} (h : WorkInv s ws)
    (hs : workStep s e = some s') : FlushedAtReturn s e s' := by
  cases e with
  | flush c wq =>
    obtain ⟨-, hs⟩ := Option.ite_none_right_eq_some.mp hs
    obtain rfl := Option.some.inj hs
    intro hret
    have hle := (h.flushTest (h.insertSeq wq) le_rfl).2 hret
    have := h.left_eq wq
    omega
  | resume c =>
    simp only [workStep] at hs
    simp only [FlushedAtReturn]
    split at hs
    · next wq needed mark hc =>
      obtain rfl := Option.some.inj hs
      obtain ⟨hneed, hmark⟩ := h.flush c wq needed mark hc
      exact (h.flushTest hneed hmark).2
    · cases hs
  | _ => exact trivial

end Steps

/-- **Workqueues.**  In a run in which every bit found clear is still clear when it is set,
each work put on a list is executed once and in its turn, the sequence counters tell how
many are left, and a flush returns only when the works before it have finished. -/
theorem workqueue_runs {es : List Event}
    (hguard : Run.Guarded workStep BitStillClear workBoot es) :
    Run.Always workStep (fun s => Accounted s ∧ Drains s) workBoot es ∧
      Run.Steps workStep FlushedAtReturn workBoot es := by
  have hinv : Run.Always workStep (fun s => ∃ ws, WorkInv s ws) workBoot es := by
    refine Run.always_of_guarded ?_ ⟨_, workInv_boot⟩ hguard
    rintro s e s' ⟨ws, h⟩ hg hs
    exact workInv_step h hg hs
  refine ⟨hinv.mono ?_, hinv.steps ?_⟩
  · rintro s ⟨ws, h⟩
    exact ⟨h.accounted, h.drains⟩
  · rintro s e s' ⟨ws, h⟩ - hs
    exact h.flushedAtReturn hs

/-- A work and a delayed work, a flush, and a work that queues itself again. -/
def flushRun : List Event :=
  [.load 0 0 1 false, .store 0, .insert 0, .load 0 0 2 true, .store 0, .arm 0, .flush 5 0,
    .fire 2, .take 0, .clear 0, .load 0 0 1 false, .store 0, .insert 0, .resume 5, .done 0,
    .resume 5, .take 0, .clear 0, .done 0]

theorem workqueue_runs_flush :
    ((Run.exec workStep workBoot flushRun).any fun s =>
        decide (s.executed 0 = [1, 2] ∧ s.inserted 0 = [1, 2, 1] ∧ s.calls 5 = none)) = true ∧
      Run.Always workStep (fun s => Accounted s ∧ Drains s) workBoot flushRun ∧
      Run.Steps workStep FlushedAtReturn workBoot flushRun := by
  constructor
  · decide +kernel
  · apply workqueue_runs
    decide +kernel

/-- Two callers find the bit of a work clear. -/
def racingRun : List Event :=
  [.load 0 0 1 false, .load 1 0 1 false, .store 0, .insert 0, .store 1, .insert 1, .take 0,
    .clear 0, .done 0, .take 0, .clear 0, .done 0, .take 0, .clear 0]

/-- Both put the work on the list, where it is linked to itself then: two calls have
returned 1, and the worker executes the work a third time. -/
theorem racing_executes_thrice :
    ¬ (∀ es, Run.Always workStep (fun s => Accounted s ∧ Drains s) workBoot es ∧
        Run.Steps workStep FlushedAtReturn workBoot es) ∧
      ∃ s, Run.exec workStep workBoot racingRun = some s ∧ s.inserted 0 = [1, 1] ∧
        s.executed 0 = [1, 1, 1] := by
  have hrun : (Run.exec workStep workBoot racingRun).any (fun s =>
      decide (s.inserted 0 = [1, 1] ∧ s.executed 0 = [1, 1, 1])) = true := by
    decide +kernel
  obtain ⟨s, hs, hbad⟩ := (Option.any_eq_true _ _).mp hrun
  obtain ⟨hins, hexec⟩ := of_decide_eq_true hbad
  refine ⟨fun hall => ?_, s, hs, hins, hexec⟩
  obtain ⟨ws, -, hhist, -⟩ := ((hall _).1.exec hs).1 0
  rw [hins, hexec] at hhist
  have := congrArg List.length hhist
  simp at this

end Workqueue

end YakOS
