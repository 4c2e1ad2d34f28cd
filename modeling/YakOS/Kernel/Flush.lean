import Mathlib.Data.BitVec
import YakOS.Lib.Links
import YakOS.Lib.Run

/-!
# The wait entry of a flush

`flush_workqueue` declares a wait entry with null pointers, links it into `work_done` in
each turn of its loop, and unlinks it at the end unless it is linked to itself.  The loop
may run any number of times, depending on how many works finish before the flush is
resumed; the entry is right for exactly one.

Any number of flushes may be under way.  What a lock protects is one step, and a flush that
sleeps may be resumed at any time, since `wake_up` only makes it ready to run.

## Main definitions

* `FlushSys`, `flushStep` — the queue `work_done` and the flushes.
* `QueueExact` — the queue holds the entries of the flushes that wait, newest first.
* `SafeFlush` — a step links only an entry that is not linked, and unlinks only one that is.
* `OneTurn` — the loop is entered at the first test and left at the second.

## Main results

* `flush_queue_iff` — the queue is exact and all steps are safe exactly when every flush
  goes through its loop once.
-/

namespace YakOS

namespace Flush

open Links

/-- The nodes of the queue: its head and the entries of the flushes. -/
inductive Node
  | head
  | entry (f : ℕ)
  deriving DecidableEq, Repr

/-- Where a call of `flush_workqueue` is. -/
inductive Phase
  /-- Not called yet: its entry has null pointers. -/
  | fresh
  /-- In `schedule_timeout`, with its `sequence_needed`. -/
  | asleep (needed : BitVec 32)
  | returned
  deriving DecidableEq, Repr

/-- A workqueue and the calls of `flush_workqueue`.  The last field is not in the code: the
flushes that wait, newest first. -/
structure FlushSys where
  /-- `work_done`. -/
  links : Links Node
  insertSequence : BitVec 32
  removeSequence : BitVec 32
  phase : ℕ → Phase
  waiting : List ℕ

/-! ### The code -/

/-- The test of the loop: some of the works are left. -/
def FlushSys.left (s : FlushSys) (needed : BitVec 32) : Bool :=
  0 < (needed - s.removeSequence).toInt

/-- A turn of the loop: `add_wait_queue`, and sleep. -/
def addAndSleep (s : FlushSys) (f : ℕ) (needed : BitVec 32) : Option FlushSys :=
  (s.links.listAdd (.entry f) .head).map fun l =>
    { s with
      links := l
      phase := Function.update s.phase f (.asleep needed)
      waiting := if f ∈ s.waiting then s.waiting else f :: s.waiting }

/-- `finish_wait`, and return. -/
def finishWait (s : FlushSys) (f : ℕ) : Option FlushSys :=
  (if s.links.listEmptyCareful (.entry f) then some s.links
    else s.links.listDelInit (.entry f)).map fun l =>
      { s with
        links := l
        phase := Function.update s.phase f .returned
        waiting := s.waiting.erase f }

/-- `flush_workqueue` from its test on. -/
def flushTest (s : FlushSys) (f : ℕ) (needed : BitVec 32) : Option FlushSys :=
  if s.left needed then addAndSleep s f needed else finishWait s f

/-- What can happen next. -/
inductive Event
  /-- A work is put on the list. -/
  | insert
  /-- A work has finished. -/
  | done
  /-- The call `f` of `flush_workqueue` begins. -/
  | flush (f : ℕ)
  /-- The call `f`, which sleeps, is resumed. -/
  | resume (f : ℕ)
  deriving DecidableEq, Repr

/-- The test a step makes: whose, and with which `sequence_needed`. -/
def test (s : FlushSys) : Event → Option (ℕ × BitVec 32)
  | .flush f => if s.phase f = .fresh then some (f, s.insertSequence) else none
  | .resume f =>
    match s.phase f with
    | .asleep needed => some (f, needed)
    | _ => none
  | _ => none

/-- One step. -/
def flushStep (s : FlushSys) : Event → Option FlushSys
  | .insert => some { s with insertSequence := s.insertSequence + 1 }
  | .done =>
    if s.insertSequence = s.removeSequence then none
    else some { s with removeSequence := s.removeSequence + 1 }
  | e => (test s e).bind fun r => flushTest s r.1 r.2

/-- A workqueue that was just created. -/
def flushBoot : FlushSys where
  links :=
    { next := fun x => match x with
        | .head => some .head
        | .entry _ => none
      prev := fun x => match x with
        | .head => some .head
        | .entry _ => none }
  insertSequence := 0
  removeSequence := 0
  phase := fun _ => .fresh
  waiting := []

/-! ### The properties -/

/-- The queue is a circle that holds the entries of the flushes that wait, newest first. -/
def QueueExact (s : FlushSys) : Prop := Ring s.links .head (s.waiting.map .entry)

/-- The entry is linked in the queue. -/
def Linked (s : FlushSys) (f : ℕ) : Prop :=
  ∃ fs : List ℕ, Ring s.links .head (fs.map .entry) ∧ f ∈ fs

/-- The step links only an entry that is not linked, and unlinks only one that is. -/
def SafeFlush (s : FlushSys) (e : Event) : Prop :=
  ∀ f needed, test s e = some (f, needed) →
    (s.left needed = true → ¬ Linked s f) ∧
      (s.left needed = false → s.links.listEmptyCareful (.entry f) = false → Linked s f)

/-- A flush finds works left when it is called, and none when it is resumed. -/
def OneTurn (s : FlushSys) : Event → Prop
  | .flush f => s.phase f = .fresh → s.left s.insertSequence = true
  | .resume f => ∀ needed, s.phase f = .asleep needed → s.left needed = false
  | _ => True

/-! ### The invariant -/

/-- The flushes that wait are those that sleep, and the entry of a flush that was not called
has null pointers. -/
structure FlushInv (s : FlushSys) : Prop where
  ring : QueueExact s
  asleep : ∀ f, f ∈ s.waiting ↔ ∃ needed, s.phase f = .asleep needed
  fresh : ∀ f, s.phase f = .fresh → s.links.next (.entry f) = none

theorem flushInv_boot : FlushInv flushBoot where
  ring := ⟨List.nodup_singleton _, fun p hp => by rw [List.mem_singleton.mp hp]; rfl,
    fun p hp => by rw [List.mem_singleton.mp hp]; rfl⟩
  asleep f := by simp [flushBoot]
  fresh f _ := rfl

section Steps

variable {s s' : FlushSys}

theorem FlushInv.nodup (h : FlushInv s) : s.waiting.Nodup :=
  (List.nodup_cons.mp h.ring.nodup).2.of_map

/-- A flush that was not called does not wait, -/
theorem FlushInv.not_mem_of_fresh (h : FlushInv s) {f : ℕ} (hf : s.phase f = .fresh) :
    f ∉ s.waiting := by
  rw [h.asleep]
  rintro ⟨n, hn⟩
  rw [hf] at hn
  cases hn

/-- and its entry is not a node of the queue. -/
theorem FlushInv.entry_not_mem (h : FlushInv s) {f : ℕ} (hf : s.phase f = .fresh) :
    Node.entry f ∉ Node.head :: s.waiting.map Node.entry := by
  simpa using h.not_mem_of_fresh hf

/-- The entry of a flush is linked exactly when the flush waits. -/
theorem FlushInv.linked_iff (h : FlushInv s) {f : ℕ} (hf : s.phase f ≠ .returned) :
    Linked s f ↔ f ∈ s.waiting := by
  constructor
  · rintro ⟨fs, hring, hmem⟩
    rw [h.asleep]
    cases hp : s.phase f with
    | fresh => exact absurd (h.fresh f hp) (hring.next_ne (List.mem_map_of_mem hmem)).1
    | asleep needed => exact ⟨needed, rfl⟩
    | returned => exact absurd hp hf
  · intro hmem
    exact ⟨s.waiting, h.ring, hmem⟩

/-- What a step tests. -/
theorem test_cases {e : Event} {f : ℕ} {needed : BitVec 32} (h : test s e = some (f, needed)) :
    (e = .flush f ∧ s.phase f = .fresh ∧ needed = s.insertSequence) ∨
      (e = .resume f ∧ s.phase f = .asleep needed) := by
  cases e with
  | insert => cases h
  | done => cases h
  | flush g =>
    obtain ⟨hg, h⟩ := Option.ite_none_right_eq_some.mp h
    obtain ⟨rfl, rfl⟩ := Prod.mk.inj (Option.some.inj h)
    exact Or.inl ⟨rfl, hg, rfl⟩
  | resume g =>
    simp only [test] at h
    split at h
    · next n hn =>
      obtain ⟨rfl, rfl⟩ := Prod.mk.inj (Option.some.inj h)
      exact Or.inr ⟨rfl, hn⟩
    · cases h

/-- A step is safe exactly when it is the right turn of the loop. -/
theorem FlushInv.safe_iff (h : FlushInv s) (e : Event) : SafeFlush s e ↔ OneTurn s e := by
  have hfresh : ∀ f, s.phase f = .fresh → ¬ Linked s f := by
    intro f hf hl
    rw [h.linked_iff (by simp [hf])] at hl
    exact h.not_mem_of_fresh hf hl
  have hcareful : ∀ f, s.links.next (.entry f) ≠ some (.entry f) →
      s.links.listEmptyCareful (.entry f) = false := by
    intro f hf
    simp [Links.listEmptyCareful, hf]
  have hasleep : ∀ f n, s.phase f = .asleep n → Linked s f := by
    intro f n hf
    rw [h.linked_iff (by simp [hf]), h.asleep]
    exact ⟨n, hf⟩
  cases e with
  | insert => exact iff_of_true nofun trivial
  | done => exact iff_of_true nofun trivial
  | flush f =>
    constructor
    · -- with works left, the entry has null pointers, which the test takes for a linked one
      intro hsafe hf
      by_contra hleft
      have htest : test s (.flush f) = some (f, s.insertSequence) := if_pos hf
      refine hfresh f hf ((hsafe f _ htest).2 (by simpa using hleft) (hcareful f ?_))
      rw [h.fresh f hf]
      exact nofun
    · intro hturn g n htest
      rcases test_cases htest with ⟨he, hf, rfl⟩ | ⟨he, -⟩
      · cases he
        exact ⟨fun _ => hfresh f hf, fun hno => by rw [hturn hf] at hno; cases hno⟩
      · cases he
  | resume f =>
    constructor
    · intro hsafe n hn
      by_contra hleft
      have htest : test s (.resume f) = some (f, n) := by simp only [test, hn]
      exact (hsafe f n htest).1 (by simpa using hleft) (hasleep f n hn)
    · intro hturn g n htest
      rcases test_cases htest with ⟨he, -⟩ | ⟨he, hn⟩
      · cases he
      · cases he
        refine ⟨fun hleft => ?_, fun _ _ => hasleep f n hn⟩
        rw [hturn n hn] at hleft
        cases hleft

/-- A flush that is called with works left: its entry is linked. -/
theorem FlushInv.add {f : ℕ} {needed : BitVec 32} (h : FlushInv s) (hf : s.phase f = .fresh)
    (hs : addAndSleep s f needed = some s') : FlushInv s' := by
  have hnot : f ∉ s.waiting := h.not_mem_of_fresh hf
  obtain ⟨l, hl, rfl⟩ := Option.map_eq_some_iff.mp hs
  obtain ⟨l', hl', hr', hframe⟩ := h.ring.listAdd_head (h.entry_not_mem hf)
  obtain rfl : l' = l := Option.some.inj (hl'.symm.trans hl)
  refine ⟨?_, ?_, ?_⟩
  · unfold QueueExact
    dsimp only
    rw [if_neg hnot]
    exact hr'
  · intro g
    dsimp only
    rw [if_neg hnot, List.mem_cons]
    by_cases hgf : g = f
    · simp [hgf]
    · rw [Function.update_of_ne hgf, ← h.asleep g]
      exact or_iff_right hgf
  · intro g hg
    dsimp only at hg ⊢
    by_cases hgf : g = f
    · rw [hgf, Function.update_self] at hg
      cases hg
    · rw [Function.update_of_ne hgf] at hg
      rw [(hframe (.entry g) (fun e => hgf (by injection e)) (h.entry_not_mem hg)).1]
      exact h.fresh g hg

/-- A flush that waits and finds nothing left: its entry is unlinked. -/
theorem FlushInv.finish {f : ℕ} {needed : BitVec 32} (h : FlushInv s)
    (hf : s.phase f = .asleep needed) (hs : finishWait s f = some s') : FlushInv s' := by
  have hmem : f ∈ s.waiting := (h.asleep f).mpr ⟨needed, hf⟩
  have hnd := h.nodup
  obtain ⟨as, bs, hab⟩ := List.append_of_mem hmem
  have hring := h.ring
  unfold QueueExact at hring
  rw [hab, List.map_append, List.map_cons] at hring
  have hself := (hring.next_ne (x := .entry f) (by simp)).2
  have hcareful : ¬ s.links.listEmptyCareful (.entry f) = true := by
    simp [Links.listEmptyCareful, hself]
  obtain ⟨l, hl, rfl⟩ := Option.map_eq_some_iff.mp hs
  rw [if_neg hcareful] at hl
  obtain ⟨l', hl', hr', -, -, hframe⟩ := hring.listDelInit
  obtain rfl : l' = l := Option.some.inj (hl'.symm.trans hl)
  -- the flush waits once
  have herase : s.waiting.erase f = as ++ bs := by
    rw [hab] at hnd ⊢
    have hfas := (List.nodup_cons.mp (List.nodup_middle.mp hnd)).1
    rw [List.mem_append, not_or] at hfas
    rw [List.erase_append_right _ hfas.1, List.erase_cons_head]
  refine ⟨?_, ?_, ?_⟩
  · unfold QueueExact
    dsimp only
    rw [herase, List.map_append]
    exact hr'
  · intro g
    dsimp only
    rw [hnd.mem_erase_iff]
    by_cases hgf : g = f
    · simp [hgf]
    · rw [Function.update_of_ne hgf, ← h.asleep g]
      exact and_iff_right hgf
  · intro g hg
    dsimp only at hg ⊢
    by_cases hgf : g = f
    · rw [hgf, Function.update_self] at hg
      cases hg
    · rw [Function.update_of_ne hgf] at hg
      have hout : Node.entry g ∉
          Node.head :: (as.map Node.entry ++ Node.entry f :: bs.map Node.entry) := by
        rw [← List.map_cons (f := Node.entry), ← List.map_append, ← hab]
        exact h.entry_not_mem hg
      rw [(hframe (.entry g) (fun e => hgf (by injection e)) hout).1]
      exact h.fresh g hg

/-- **Every flush that goes through its loop once keeps the queue exact.** -/
theorem flushInv_step {e : Event} (h : FlushInv s) (hturn : OneTurn s e)
    (hs : flushStep s e = some s') : FlushInv s' := by
  have hflush : (test s e).bind (fun r => flushTest s r.1 r.2) = some s' → FlushInv s' := by
    intro hbind
    obtain ⟨⟨f, needed⟩, htest, hbody⟩ := Option.bind_eq_some_iff.mp hbind
    unfold flushTest at hbody
    dsimp only at hbody
    rcases test_cases htest with ⟨rfl, hf, rfl⟩ | ⟨rfl, hf⟩
    · rw [if_pos (hturn hf)] at hbody
      exact h.add hf hbody
    · have hleft : ¬ s.left needed = true := by simp [hturn needed hf]
      rw [if_neg hleft] at hbody
      exact h.finish hf hbody
  cases e with
  | insert =>
    obtain rfl := Option.some.inj hs
    exact ⟨h.ring, h.asleep, h.fresh⟩
  | done =>
    obtain ⟨-, hs⟩ := Option.ite_none_left_eq_some.mp hs
    obtain rfl := Option.some.inj hs
    exact ⟨h.ring, h.asleep, h.fresh⟩
  | flush f => exact hflush hs
  | resume f => exact hflush hs

end Steps

/-- **The wait entry of a flush.**  The queue is exact in every state of a run, and its entries
are linked and unlinked as they should be, exactly when every flush of the run finds works
left when it is called and none when it is resumed. -/
theorem flush_queue_iff (es : List Event) :
    (Run.Always flushStep QueueExact flushBoot es ∧ Run.Guarded flushStep SafeFlush flushBoot es) ↔
      Run.Guarded flushStep OneTurn flushBoot es := by
  have hiff : Run.Guarded flushStep SafeFlush flushBoot es ↔ Run.Guarded flushStep OneTurn flushBoot es :=
    Run.guarded_congr (fun s e s' h hc hs => flushInv_step h hc hs)
      (fun s e (h : FlushInv s) => h.safe_iff e) flushInv_boot
  constructor
  · intro h
    exact hiff.mp h.2
  · intro h
    have hinv := Run.always_of_guarded (fun s e s' hI hc hs => flushInv_step hI hc hs)
      flushInv_boot h
    exact ⟨hinv.mono fun s hI => hI.ring, hiff.mpr h⟩

/-- A flush with nothing to wait for unlinks an entry that was never linked; one that has to
wait for two works links its entry to itself. -/
theorem flush_not_linked :
    ¬ (∀ es, Run.Always flushStep QueueExact flushBoot es ∧
        Run.Guarded flushStep SafeFlush flushBoot es) ∧
      flushStep flushBoot (.flush 0) = none ∧
      ∃ s, Run.exec flushStep flushBoot [.insert, .insert, .flush 0, .done, .resume 0] = some s ∧
        s.links.next .head = some (.entry 0) ∧ s.links.next (.entry 0) = some (.entry 0) := by
  have hstuck : (flushStep flushBoot (.flush 0)).isNone = true := by decide +kernel
  have hrun : (Run.exec flushStep flushBoot [.insert, .insert, .flush 0, .done, .resume 0]).any
      (fun s => decide (s.links.next .head = some (.entry 0) ∧
        s.links.next (.entry 0) = some (.entry 0))) = true := by
    decide +kernel
  obtain ⟨s, hs, hbad⟩ := (Option.any_eq_true _ _).mp hrun
  refine ⟨fun hall => ?_, Option.isNone_iff_eq_none.mp hstuck, s, hs, of_decide_eq_true hbad⟩
  -- the entry of the first flush has null pointers
  have hsafe := (hall [.flush 0]).2.1 0 0 rfl
  obtain ⟨fs, hring, hmem⟩ := hsafe.2 (by decide +kernel) (by decide +kernel)
  exact (hring.next_ne (List.mem_map_of_mem hmem)).1 rfl

end Flush

end YakOS
