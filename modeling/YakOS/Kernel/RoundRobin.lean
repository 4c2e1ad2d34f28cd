import YakOS.Kernel.Priority

/-!
# Round robin within a priority

`pick_next_task` goes around the list of the current task's priority from the node of
that task.  While no task of a higher priority can run, each pick moves on to the next
task of the list that is not `BLOCKED`, and a full turn comes back to the first.

## Main definitions

* `picks k s` — what `k` calls of `pick_next_task` in a row return.
* `Sched.ready` — the tasks of the current priority that are not `BLOCKED`.
* `Sched.turn` — these tasks in the order of the picks, the current one last.
* `TakesTurns s` — no higher priority interferes, and there is somebody to pick.

## Main results

* `TakesTurns.pick` — one pick.
* `picks_turn` — a full turn.
-/

namespace YakOS

open Lists

/-- The results of `k` successive calls of `sched_fifo_pick_next_task`. -/
def picks : ℕ → Sched → List (Option TaskId)
  | 0, _ => []
  | k + 1, s => s.pickNextTask.2 :: picks k s.pickNextTask.1

namespace Sched

variable (s : Sched)

/-- The tasks queued at the priority of the current one that are not `BLOCKED`, in the order of the
queue. -/
def ready : List TaskId :=
  (s.allTask (s.priority s.current)).filter fun t => s.state t ≠ .blocked

/-- The ready tasks behind the current one, going around the queue. -/
def others : List TaskId :=
  (around s.current (s.allTask (s.priority s.current))).filter fun t => s.state t ≠ .blocked

/-- The ready tasks in the order of the picks. -/
def turn : List TaskId := s.others ++ [s.current]

end Sched

/-- The current task runs, nobody with a higher priority can, and it is not alone at its own. -/
structure TakesTurns (s : Sched) : Prop where
  wf : SchedWf s
  queued : s.Queued s.current
  running : s.state s.current = .running
  top : ∀ t, s.Runnable t → s.priority s.current ≤ s.priority t
  notAlone : s.others ≠ []

section Pick

variable {s : Sched}

theorem Sched.asleep_of_running (h : s.state s.current = .running) : s.asleep = false := by
  simp [Sched.asleep, h]

/-- The turn is the queue without its blocked tasks, cut at another place. -/
theorem isRotated_turn (hq : s.Queued s.current) (hrun : s.state s.current = .running) :
    List.IsRotated s.turn s.ready := by
  have hcons : (s.current :: around s.current (s.allTask (s.priority s.current))).filter
      (fun t => s.state t ≠ .blocked) = s.current :: s.others :=
    List.filter_cons_of_pos (by simp [hrun])
  have hrot := isRotated_filter (isRotated_cons_around hq) fun t => s.state t ≠ .blocked
  rw [hcons] at hrot
  exact (List.isRotated_concat s.current s.others).trans hrot

theorem Sched.findNextTask_around :
    s.findNextTask (around s.current (s.allTask (s.priority s.current))) = s.others.head? := by
  unfold Sched.findNextTask Sched.others
  rw [List.head?_filter]

namespace TakesTurns

/-- The scan passes the higher priorities and stops at the next ready task. -/
theorem pick_eq (h : TakesTurns s) {t : TaskId} {rest : List TaskId} (ht : s.others = t :: rest) :
    s.pickNextTask = ({ s.setTaskState t .running with current := t }, some t) := by
  have ha := Sched.asleep_of_running h.running
  have hslot : s.slot (s.priority s.current) = some (t, false) := by
    rw [h.wf.slot_of_awake ha, Sched.findNextTask_around, ht]
    rfl
  have hmiss : ∀ i < s.priority s.current, s.slot i = none := by
    intro i hi
    cases hs : s.slot i with
    | none => rfl
    | some r =>
      obtain ⟨u, c⟩ := r
      have hlt := lt_trans hi (h.wf.priority_lt s.current)
      obtain ⟨hu, -, hp⟩ := h.wf.slot_some hlt (Or.inl ha) hs
      have := h.top u hu
      omega
  unfold Sched.pickNextTask
  rw [findSome?_range_eq_some_iff.mpr ⟨_, h.wf.priority_lt _, hslot, hmiss⟩]
  rfl

/-- One pick: the next ready task runs, and the one before goes to the end of the turn. -/
theorem pick (h : TakesTurns s) {t : TaskId} {rest : List TaskId} (ht : s.others = t :: rest) :
    s.pickNextTask.2 = some t ∧ TakesTurns s.pickNextTask.1 ∧
      s.pickNextTask.1.turn = rest ++ [s.current, t] := by
  have hwf := h.wf.pickNextTask
  rw [h.pick_eq ht] at hwf ⊢
  have hmem : t ∈ s.others := by simp [ht]
  obtain ⟨hround, hready⟩ := List.mem_filter.mp hmem
  have hqueue : t ∈ s.allTask (s.priority s.current) := mem_of_mem_around hround
  have hprio : s.priority t = s.priority s.current := h.wf.own _ t hqueue
  have hstate : s.state t ≠ .blocked := by simpa using hready
  -- the task was not blocked before, so the others that are do not change
  have hothers : Sched.others { s.setTaskState t .running with current := t } = rest ++ [s.current] := by
    have hkeep : decide (s.state s.current ≠ .blocked) = true := by simp [h.running]
    rw [← filter_around_next (h.wf.nodup _) h.queued hkeep ht]
    unfold Sched.others
    simp only [Sched.setTaskState, hprio]
    refine List.filter_congr ?_
    intro u _
    by_cases hu : u = t
    · simp [hu, hstate]
    · simp [hu]
  refine ⟨rfl, ⟨hwf, ?_, ?_, ?_, ?_⟩, ?_⟩
  · show t ∈ s.allTask (s.priority t)
    rwa [hprio]
  · simp [Sched.setTaskState]
  · intro u hu
    show s.priority t ≤ s.priority u
    rw [hprio]
    by_cases hcur : u = s.current
    · rw [hcur]
    · have hub : s.state u ≠ .blocked := by
        have := hu.2.1
        by_cases hut : u = t
        · rwa [hut]
        · simpa [Sched.setTaskState, hut] using this
      exact h.top u ⟨hu.1, hub, fun e => absurd e hcur⟩
  · rw [hothers]
    simp
  · rw [Sched.turn, hothers, List.append_assoc]
    rfl

/-- Up to a full turn, the picks follow its order. -/
theorem picks_eq (h : TakesTurns s) {k : ℕ} (hk : k ≤ s.turn.length) :
    picks k s = (s.turn.take k).map some := by
  induction k generalizing s with
  | zero => simp [picks]
  | succ k ih =>
    obtain ⟨t, rest, ht⟩ := List.exists_cons_of_ne_nil h.notAlone
    obtain ⟨hret, hnext, hturn⟩ := h.pick ht
    have hlen : k ≤ (rest ++ [s.current]).length := by
      have : s.turn.length = (rest ++ [s.current]).length + 1 := by simp [Sched.turn, ht]
      omega
    have hsplit : s.pickNextTask.1.turn = (rest ++ [s.current]) ++ [t] := by simp [hturn]
    have htake : s.turn.take (k + 1) = t :: (rest ++ [s.current]).take k := by
      rw [Sched.turn, ht, List.cons_append, List.take_succ_cons]
    rw [picks, hret, ih hnext (by rw [hsplit, List.length_append]; omega), hsplit,
      List.take_append_of_le_length hlen, htake, List.map_cons]

end TakesTurns

/-- With the current task running, no task of a higher priority runnable, and `k ≥ 2` tasks of its
priority not `BLOCKED`, `k` picks in a row return each of these once, in the cyclic order of the queue,
and the current one last. -/
theorem picks_turn (h : SchedWf s) (hq : s.Queued s.current) (hrun : s.state s.current = .running)
    (htop : ∀ t, s.Runnable t → s.priority s.current ≤ s.priority t) {k : ℕ}
    (hcount : s.ready.length = k) (hk : 2 ≤ k) :
    ∃ order, picks k s = order.map some ∧ List.IsRotated order s.ready ∧ order.Nodup ∧
      order.getLast? = some s.current := by
  have hrot := isRotated_turn hq hrun
  have hlen : s.turn.length = k := by rw [hrot.perm.length_eq, hcount]
  have hturns : TakesTurns s := by
    refine ⟨h, hq, hrun, htop, ?_⟩
    intro hnil
    rw [Sched.turn, hnil, List.nil_append, List.length_singleton] at hlen
    omega
  refine ⟨s.turn, ?_, hrot, ?_, ?_⟩
  · rw [hturns.picks_eq hlen.ge, List.take_of_length_le hlen.le]
  · exact hrot.nodup_iff.mpr ((h.nodup _).filter _)
  · rw [Sched.turn, List.getLast?_concat]

end Pick

/-- Three tasks of one priority have been created, and the first of them has blocked. -/
theorem exists_twoOfThree :
    ∃ s, Run.exec schedStep schedBoot
        [.create 1 5, .create 2 5, .create 3 5, .pick, .block, .pick] = some s ∧
      s.Queued s.current ∧ s.state s.current = .running ∧ s.ready.length = 2 ∧
      ∀ i < s.priority s.current, s.allTask i = [] :=
  ⟨_, rfl, by decide, by decide, by decide, by decide⟩

theorem picks_turn_two_of_three :
    ∃ s, Run.exec schedStep schedBoot
        [.create 1 5, .create 2 5, .create 3 5, .pick, .block, .pick] = some s ∧
      ∃ order, picks 2 s = order.map some ∧ List.IsRotated order s.ready ∧ order.Nodup ∧
        order.getLast? = some s.current := by
  obtain ⟨s, hs, hq, hrun, hcount, hempty⟩ := exists_twoOfThree
  refine ⟨s, hs, picks_turn (schedWf_exec hs) hq hrun ?_ hcount le_rfl⟩
  intro t ht
  by_contra hlt
  have hmem : t ∈ s.allTask (s.priority t) := ht.1
  rw [hempty _ (Nat.lt_of_not_le hlt)] at hmem
  exact List.not_mem_nil hmem

end YakOS
