import YakOS.Kernel.Timer

/-!
# The order of the timer list

`timer_tick` stops at the first timer that has not expired, so `timer_list` is meant to be in
the order of the expiry times.  `timer_list_add` compares the wrong way round: it stops at the
first timer that expires *before* the new one and puts the new one behind that, and puts a
timer that expires before all the others at the end.

## Main definitions

* `Insertion`, `insertStep` — the calls of `timer_add`, with any expiry time.
* `SortedList` — the list holds the inserted timers, each once, in the order of their times.
* `InsertsInOrder` — the insertions that the comparison is right for.

## Main results

* `sortedList_step_iff` — one insertion.
* `timer_list_sorted_iff` — whole sequences; `timer_list_out_of_order` is the shortest one that
  goes wrong.
-/

namespace YakOS

namespace Timers

open Links

/-- A call of `timer_add`, which fills in the timer and passes it to `timer_list_add`. -/
structure Insertion where
  timer : ℕ
  delay : BitVec 32
  period : BitVec 32
  function : Option ℕ
  arg : Option ℕ
  now : BitVec 64
  deriving DecidableEq, Repr

/-- The expiry time it gives the timer. -/
def Insertion.expiredTime (e : Insertion) : BitVec 32 := e.now.setWidth 32 + e.delay

/-- One insertion, of any of the timers. -/
def insertStep (s : TimerSys) (e : Insertion) : Option TimerSys :=
  if e.timer < s.size then timerAdd s e.timer e.delay e.period e.function e.arg e.now else none

/-- The list holds the inserted timers, each once and by ascending expiry time. -/
def SortedList (s : TimerSys) : Prop :=
  ∃ ts : List ℕ, Ring s.links .head (ts.map .timer) ∧ (∀ t, t ∈ ts ↔ s.armed t = true) ∧
    ts.Pairwise fun i j => (s.timer i).expiredTime ≤ (s.timer j).expiredTime

/-- The timer is not on the list yet, and either it expires after the first timer of the list and
not after any other one, or all timers of the list expire when it does. -/
def InsertsInOrder (s : TimerSys) (e : Insertion) : Prop :=
  e.timer < s.size → s.armed e.timer = false ∧
    ∃ ts : List ℕ, Ring s.links .head (ts.map .timer) ∧
      ((∀ i ∈ ts.tail, e.expiredTime ≤ (s.timer i).expiredTime) ∧
          (∀ i ∈ ts.head?, (s.timer i).expiredTime < e.expiredTime) ∨
        ∀ i ∈ ts, (s.timer i).expiredTime = e.expiredTime)

variable {s s' : TimerSys} {ts : List ℕ} {t : ℕ}

/-- `timer_list_add` keeps the list in order exactly when it stops at the right place. -/
theorem pairwise_expired_insertAfter
    (h : ts.Pairwise fun i j => (s.timer i).expiredTime ≤ (s.timer j).expiredTime) :
    (Lists.insertAfter (expiresBefore s t) t ts).Pairwise
        (fun i j => (s.timer i).expiredTime ≤ (s.timer j).expiredTime) ↔
      (∀ i ∈ ts.tail, (s.timer t).expiredTime ≤ (s.timer i).expiredTime) ∧
          (∀ i ∈ ts.head?, (s.timer i).expiredTime < (s.timer t).expiredTime) ∨
        ∀ i ∈ ts, (s.timer i).expiredTime = (s.timer t).expiredTime := by
  have hkey := Lists.pairwise_insertAfter (a := t)
    (fun i => (s.timer i).expiredTime.toNat) h
  simp only [← BitVec.toNat_inj]
  exact hkey

/-- The order of timers other than `t` does not depend on the fields of `t`. -/
theorem pairwise_expired_update {x : Timer} (ht : t ∉ ts) :
    (ts.Pairwise fun i j => (Function.update s.timer t x i).expiredTime ≤
        (Function.update s.timer t x j).expiredTime) ↔
      ts.Pairwise fun i j => (s.timer i).expiredTime ≤ (s.timer j).expiredTime := by
  apply List.Pairwise.iff_of_mem
  intro i j hi hj
  have hit : i ≠ t := fun e => ht (e ▸ hi)
  have hjt : j ≠ t := fun e => ht (e ▸ hj)
  rw [Function.update_of_ne hit, Function.update_of_ne hjt]

/-- What a `timer_add` has done. -/
theorem insertStep_eq_some {e : Insertion} (hs : insertStep s e = some s') :
    e.timer < s.size ∧ ∃ x : Timer, x.expiredTime = e.expiredTime ∧
      timerListAdd (s.setTimer e.timer x) e.timer = some s'.links ∧
      s'.timer = Function.update s.timer e.timer x ∧ s'.size = s.size ∧
      s'.armed = Function.update s.armed e.timer true := by
  obtain ⟨hlt, hs⟩ := Option.ite_none_right_eq_some.mp hs
  unfold timerAdd at hs
  obtain ⟨l, hl, rfl⟩ := Option.map_eq_some_iff.mp hs
  exact ⟨hlt, _, rfl, hl, rfl, rfl, rfl⟩

/-- An insertion of a timer that is on the list. -/
theorem not_sortedList_again {e : Insertion} (hr : Ring s.links .head (ts.map .timer))
    (hlt : ∀ t ∈ ts, t < s.size) (hmem : ∀ t, t ∈ ts ↔ s.armed t = true) (he : e.timer ∈ ts)
    (hs : insertStep s e = some s') : ¬ SortedList s' := by
  obtain ⟨-, x, -, hl, -, -, harmed⟩ := insertStep_eq_some hs
  obtain ⟨a, ha, b, hab, hl'⟩ := timerListAdd_again (s := s.setTimer e.timer x) hr
    (length_le_size hr hlt) he
  have hlinks := Option.some.inj (hl.symm.trans hl')
  rintro ⟨ts', hr', hmem', -⟩
  rw [hlinks] at hr'
  refine hr.not_ring_insert (List.mem_map_of_mem he) ha hab (fun n hn => ?_) hr'
  obtain ⟨u, hu, rfl⟩ := List.mem_map.mp hn
  apply List.mem_map_of_mem
  rw [hmem', harmed, Function.update_apply]
  split
  · rfl
  · exact (hmem u).mp hu

/-- **One insertion.**  From a list in order the insertion leaves a list in order exactly when it
meets the guard. -/
theorem sortedList_step_iff {e : Insertion} (hlt : ∀ t, s.armed t = true → t < s.size)
    (h : SortedList s) (hs : insertStep s e = some s') : SortedList s' ↔ InsertsInOrder s e := by
  obtain ⟨ts, hr, hmem, hsorted⟩ := h
  obtain ⟨helt, x, hx, hl, htimer, -, harmed⟩ := insertStep_eq_some hs
  have hlt' : ∀ t ∈ ts, t < s.size := fun t ht => hlt t ((hmem t).mp ht)
  by_cases he : e.timer ∈ ts
  · -- the timer is on the list: the list breaks
    constructor
    · intro h'
      exact absurd h' (not_sortedList_again hr hlt' hmem he hs)
    · intro hguard
      have hnot := (hguard helt).1
      rw [(hmem e.timer).mp he] at hnot
      cases hnot
  · have hunarmed : s.armed e.timer = false := by
      apply Bool.eq_false_iff.mpr
      exact fun ha => he ((hmem e.timer).mpr ha)
    obtain ⟨l', hl', hr', -⟩ := timerListAdd_spec (s := s.setTimer e.timer x) hr
      (length_le_size hr hlt') he
    obtain rfl := Option.some.inj (hl.symm.trans hl')
    have hiff := pairwise_expired_insertAfter (s := s.setTimer e.timer x) (t := e.timer)
      ((pairwise_expired_update he).mpr hsorted)
    -- the timers of the list are as they were
    have hsame : ∀ i ∈ ts, ((s.setTimer e.timer x).timer i).expiredTime = (s.timer i).expiredTime := by
      intro i hi
      have hie : i ≠ e.timer := fun e' => he (e' ▸ hi)
      exact congrArg Timer.expiredTime (Function.update_of_ne hie _ _)
    have hself : ((s.setTimer e.timer x).timer e.timer).expiredTime = e.expiredTime := by
      rw [← hx]
      exact congrArg Timer.expiredTime (Function.update_self _ _ _)
    have hsorted' : SortedList s' ↔
        (Lists.insertAfter (expiresBefore (s.setTimer e.timer x) e.timer) e.timer ts).Pairwise
          fun i j => (s'.timer i).expiredTime ≤ (s'.timer j).expiredTime := by
      constructor
      · rintro ⟨ts', hr'', -, hs'⟩
        rwa [timer_map_injective (hr''.unique hr')] at hs'
      · intro hs'
        refine ⟨_, hr', fun u => ?_, hs'⟩
        rw [Lists.mem_insertAfter, hmem, harmed, Function.update_apply]
        split <;> simp [*]
    have hplace : ((∀ i ∈ ts.tail, e.expiredTime ≤ ((s.setTimer e.timer x).timer i).expiredTime) ∧
          (∀ i ∈ ts.head?, ((s.setTimer e.timer x).timer i).expiredTime < e.expiredTime) ∨
        ∀ i ∈ ts, ((s.setTimer e.timer x).timer i).expiredTime = e.expiredTime) ↔
        (∀ i ∈ ts.tail, e.expiredTime ≤ (s.timer i).expiredTime) ∧
          (∀ i ∈ ts.head?, (s.timer i).expiredTime < e.expiredTime) ∨
        ∀ i ∈ ts, (s.timer i).expiredTime = e.expiredTime := by
      apply or_congr
      · apply and_congr
        · exact forall₂_congr fun i hi => by rw [hsame i (List.mem_of_mem_tail hi)]
        · exact forall₂_congr fun i hi => by rw [hsame i (List.mem_of_mem_head? hi)]
      · exact forall₂_congr fun i hi => by rw [hsame i hi]
    rw [hself] at hiff
    rw [hsorted', htimer]
    refine hiff.trans (hplace.trans ⟨fun h _ => ⟨hunarmed, ts, hr, h⟩, fun hguard => ?_⟩)
    obtain ⟨-, ts', hr'', h⟩ := hguard helt
    obtain rfl := timer_map_injective (hr''.unique hr)
    exact h

/-- On a list in order an insertion of one of the timers goes through. -/
theorem insertStep_ne_none {e : Insertion} (hlt : ∀ t, s.armed t = true → t < s.size)
    (h : SortedList s) (he : e.timer < s.size) : insertStep s e ≠ none := by
  obtain ⟨ts, hr, hmem, -⟩ := h
  have hlen := length_le_size hr fun t ht => hlt t ((hmem t).mp ht)
  unfold insertStep timerAdd
  rw [if_pos he]
  set x : Timer := ⟨e.now.setWidth 32 + e.delay, e.period, e.function, e.arg⟩
  by_cases hm : e.timer ∈ ts
  · obtain ⟨a, -, b, -, hl⟩ := timerListAdd_again (s := s.setTimer e.timer x) hr hlen hm
    simp [hl]
  · obtain ⟨l, hl, -⟩ := timerListAdd_spec (s := s.setTimer e.timer x) hr hlen hm
    simp [hl]

theorem sortedList_boot (n : ℕ) : SortedList (timerBoot n) := by
  obtain ⟨⟨ts, hlist⟩, -⟩ := timerInv_boot n
  refine ⟨ts, hlist.ring, hlist.armed, ?_⟩
  have hnil : ts = [] := List.eq_nil_iff_forall_not_mem.mpr fun t ht => by cases (hlist.armed t).mp ht
  rw [hnil]
  exact List.Pairwise.nil

/-- **The order of the timer list.**  A sequence of insertions keeps the list in the order of the
expiry times, with exactly the inserted timers on it, exactly when each of them meets the guard. -/
theorem timer_list_sorted_iff (n : ℕ) (es : List Insertion) :
    Run.Always insertStep SortedList (timerBoot n) es ↔
      Run.Guarded insertStep InsertsInOrder (timerBoot n) es := by
  apply Run.always_iff_guarded_of_inv (J := fun s => ∀ t, s.armed t = true → t < s.size)
  · intro s e s' hlt hs t ht
    obtain ⟨helt, x, -, -, -, hsize, harmed⟩ := insertStep_eq_some hs
    rw [hsize]
    rw [harmed, Function.update_apply] at ht
    split at ht
    · next heq => exact heq ▸ helt
    · exact hlt t ht
  · intro s e s' hlt hI hs
    exact sortedList_step_iff hlt hI hs
  · intro s e hlt hI hs he
    exact absurd hs (insertStep_ne_none hlt hI he)
  · intro t ht
    cases ht
  · exact sortedList_boot n

/-- The timer 0 expires at 5, the timer 1 is added and expires at 3: it goes to the end. -/
theorem timer_list_out_of_order :
    ¬ ∀ n es, Run.Always insertStep SortedList (timerBoot n) es := by
  intro h
  set es : List Insertion := [⟨0, 5, 0, some 7, none, 0⟩, ⟨1, 3, 0, some 8, none, 0⟩]
  have hrun : (Run.exec insertStep (timerBoot 2) es).any (fun s =>
      decide (s.links.next .head = some (.timer 0) ∧ s.armed 1 = true ∧
        (s.timer 1).expiredTime < (s.timer 0).expiredTime)) = true := by decide +kernel
  obtain ⟨s, hs, hbad⟩ := (Option.any_eq_true _ _).mp hrun
  obtain ⟨hnext, harmed, hlt⟩ := of_decide_eq_true hbad
  obtain ⟨ts, hr, hmem, hsorted⟩ := (h 2 es).exec hs
  have h1 := (hmem 1).mpr harmed
  cases ts with
  | nil => cases h1
  | cons i is =>
    obtain rfl : i = 0 := by
      have hhead := hr.next_head.symm.trans hnext
      exact Node.timer.inj (Option.some.inj hhead)
    have h1' : 1 ∈ is := (List.mem_cons.mp h1).resolve_left (by decide)
    have hle := (List.pairwise_cons.mp hsorted).1 1 h1'
    rw [BitVec.lt_def] at hlt
    rw [BitVec.le_def] at hle
    omega

end Timers

end YakOS
