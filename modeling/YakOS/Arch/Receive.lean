import YakOS.Arch.Serial

/-!
# Serial input

The input side of `arch/arm/boards/Hi3560/serial.c`: the receive interrupt, in `platform_uart`, puts what
the receiver holds into the ring `fifo_in`, and `__getchar` takes one character out of it.  `__getchar`
waits for a character before it takes `serial_sem`, so that two tasks may both have seen the last one.

The interrupt may come between any two accesses of the tasks to the ring.

## Main definitions

* `GetcharPc`, `ReceiveRun`, `receiveStep` — calls of `__getchar` by any number of tasks, and interrupts.
* `InputInOrder` — the characters returned and those held are those received, in order.
* `ReceiveOk` — the ring has room, and a task that takes a character finds one.

## Main results

* `input_in_order_iff` — **no character is lost, repeated or made up exactly in the runs of such steps.**
* `input_one_reader_iff` — with a single task that reads, room in the ring is all it takes.
-/

namespace YakOS

/-- Where a call of `__getchar` is. -/
inductive GetcharPc
  /-- There is none. -/
  | idle
  /-- In the loop that waits for a character. -/
  | waiting
  /-- Before `down`. -/
  | entering
  /-- Before the load of the character. -/
  | loading
  /-- Before the store of `rp`. -/
  | storing (data : UInt8)
  /-- Before `up`. -/
  | leaving (data : UInt8)
  deriving DecidableEq, Repr

/-- The call holds `serial_sem`. -/
def GetcharPc.holds : GetcharPc → Bool
  | .loading | .storing _ | .leaving _ => true
  | _ => false

/-- The character the call has taken. -/
def GetcharPc.taken : GetcharPc → List UInt8
  | .storing data => [data]
  | .leaving data => [data]
  | _ => []

/-- The character the call has loaded is still the first one of the ring. -/
def GetcharPc.isStoring : GetcharPc → Bool
  | .storing _ => true
  | _ => false

/-- The ring `fifo_in`, the calls of the tasks, the task that holds `serial_sem`, and the ledger. -/
structure ReceiveRun (τ : Type*) where
  mem : ℕ → UInt8
  wp : ℕ
  rp : ℕ
  pc : τ → GetcharPc
  holder : Option τ
  /-- The characters that `__getchar` has returned, first to last. -/
  returned : List UInt8
  /-- The characters that were received. -/
  received : List UInt8

/-- The port after boot. -/
def receiveInit (τ : Type*) : ReceiveRun τ where
  mem _ := 0
  wp := 0
  rp := 0
  pc _ := .idle
  holder := none
  returned := []
  received := []

/-- The steps of a run. -/
inductive ReceiveEvent (τ : Type*)
  /-- A call of `__getchar`. -/
  | getchar (t : τ)
  /-- The next access of a call. -/
  | next (t : τ)
  /-- A receive interrupt that reads the words `data` from `UART_DR`. -/
  | irq (data : List UInt32)

/-- The character that is stored for a word of `UART_DR`: -1 if one of the error bits is set. -/
def rxChar (data : UInt32) : UInt8 := if data &&& 0xFFFFFF00 ≠ 0 then 0xff else data.toUInt8

/-- The loop of `platform_uart`. -/
def receive {τ : Type*} (s : ReceiveRun τ) : List UInt32 → ReceiveRun τ
  | [] => s
  | data :: rest =>
    receive { s with
      mem := Function.update s.mem s.wp (rxChar data)
      wp := (s.wp + 1) % uartFifoSize
      received := s.received ++ [rxChar data] } rest

section Steps

variable {τ : Type*} [DecidableEq τ]

/-- The next access of the call of a task. -/
def getcharNext (s : ReceiveRun τ) (t : τ) : Option (ReceiveRun τ) :=
  match s.pc t with
  | .idle => none
  | .waiting => if s.rp = s.wp then some s else some { s with pc := Function.update s.pc t .entering }
  | .entering =>
    if s.holder = none then
      some { s with holder := some t, pc := Function.update s.pc t .loading }
    else none
  | .loading => some { s with pc := Function.update s.pc t (.storing (s.mem s.rp)) }
  | .storing data =>
    some { s with rp := (s.rp + 1) % uartFifoSize, pc := Function.update s.pc t (.leaving data) }
  | .leaving data =>
    some { s with
      holder := none
      pc := Function.update s.pc t .idle
      returned := s.returned ++ [data] }

/-- One step. -/
def receiveStep (s : ReceiveRun τ) : ReceiveEvent τ → Option (ReceiveRun τ)
  | .getchar t =>
    if s.pc t = .idle then some { s with pc := Function.update s.pc t .waiting } else none
  | .next t => getcharNext s t
  | .irq data => some (receive s data)

namespace ReceiveRun

/-- Where the call is that holds `serial_sem`. -/
def phase (s : ReceiveRun τ) : GetcharPc := (s.holder.map s.pc).getD .idle

/-- The characters in the ring that no call has loaded. -/
def held (s : ReceiveRun τ) : List UInt8 :=
  if s.phase.isStoring then (Ring.held uartFifoSize s.mem s.rp s.wp).tail
  else Ring.held uartFifoSize s.mem s.rp s.wp

end ReceiveRun

/-- The characters returned, the one a call has taken and those held are those received, in order. -/
def InputInOrder (s : ReceiveRun τ) : Prop := s.returned ++ s.phase.taken ++ s.held = s.received

/-- A call that loads a character finds one, and the ring keeps a cell free. -/
def ReceiveOk (s : ReceiveRun τ) : ReceiveEvent τ → Prop
  | .getchar _ => True
  | .next t => s.pc t = .loading → s.rp ≠ s.wp
  | .irq data => (Ring.held uartFifoSize s.mem s.rp s.wp).length + data.length < uartFifoSize

/-- The invariant. -/
structure ReceiveInv (s : ReceiveRun τ) : Prop where
  rp_lt : s.rp < uartFifoSize
  wp_lt : s.wp < uartFifoSize
  lock : ∀ t, (s.pc t).holds = true ↔ s.holder = some t
  storing : s.phase.isStoring = true → s.rp ≠ s.wp
  order : InputInOrder s

variable {s s' : ReceiveRun τ} {t : τ}

omit [DecidableEq τ] in
theorem receiveInv_init : ReceiveInv (receiveInit τ) where
  rp_lt := (by decide : 0 < uartFifoSize)
  wp_lt := (by decide : 0 < uartFifoSize)
  lock _ := ⟨fun h => absurd h Bool.false_ne_true, fun h => absurd h.symm (Option.some_ne_none _)⟩
  storing h := absurd h Bool.false_ne_true
  order := by
    have hpos : 0 < uartFifoSize := by decide
    have hnil : Ring.held uartFifoSize (fun _ => (0 : UInt8)) 0 0 = [] :=
      (Ring.held_eq_nil_iff _ hpos hpos).mpr rfl
    simp only [InputInOrder, ReceiveRun.held, ReceiveRun.phase, receiveInit, Option.map_none,
      Option.getD_none, GetcharPc.isStoring, GetcharPc.taken, Bool.false_eq_true, if_false, hnil,
      List.append_nil]

/-! ### The interrupt -/

omit [DecidableEq τ] in
/-- The interrupt puts the characters into the ring, and appends them to those held if there is room. -/
theorem receive_eq (s : ReceiveRun τ) (hr : s.rp < uartFifoSize) (hw : s.wp < uartFifoSize)
    (data : List UInt32) : ∃ m, receive s data = { s with
      mem := m
      wp := (s.wp + data.length) % uartFifoSize
      received := s.received ++ data.map rxChar } ∧
    ((Ring.held uartFifoSize s.mem s.rp s.wp).length + data.length < uartFifoSize →
      Ring.held uartFifoSize m s.rp ((s.wp + data.length) % uartFifoSize) =
        Ring.held uartFifoSize s.mem s.rp s.wp ++ data.map rxChar) := by
  induction data generalizing s with
  | nil =>
    refine ⟨s.mem, ?_, fun _ => ?_⟩
    · simp [receive, Nat.mod_eq_of_lt hw]
    · simp [Nat.mod_eq_of_lt hw]
  | cons d data ih =>
    obtain ⟨m, hm, hheld⟩ := ih { s with
      mem := Function.update s.mem s.wp (rxChar d)
      wp := (s.wp + 1) % uartFifoSize
      received := s.received ++ [rxChar d] } hr (succ_mod_uart_lt _)
    have hwp : ((s.wp + 1) % uartFifoSize + data.length) % uartFifoSize =
        (s.wp + (d :: data).length) % uartFifoSize := by
      rw [Nat.mod_add_mod, List.length_cons, Nat.add_assoc, Nat.add_comm 1]
    refine ⟨m, ?_, fun hroom => ?_⟩
    · rw [receive, hm]
      simp only [hwp, List.map_cons, List.append_assoc, List.singleton_append]
    · rw [List.length_cons] at hroom
      have hstore : Ring.held uartFifoSize (Function.update s.mem s.wp (rxChar d)) s.rp s.wp =
          Ring.held uartFifoSize s.mem s.rp s.wp :=
        Ring.held_store hr hw fun i hi => Function.update_of_ne hi ..
      have hfree : (s.wp + 1) % uartFifoSize ≠ s.rp :=
        Ring.succ_ne_of_length s.mem hr hw (by omega)
      have hbump : Ring.held uartFifoSize (Function.update s.mem s.wp (rxChar d)) s.rp
          ((s.wp + 1) % uartFifoSize) = Ring.held uartFifoSize s.mem s.rp s.wp ++ [rxChar d] := by
        rw [Ring.held_bump hr hw hfree, hstore, Function.update_self]
      dsimp only at hheld
      rw [hbump] at hheld
      rw [← hwp, hheld ?_]
      · simp
      · rw [List.length_append, List.length_singleton]
        omega

omit [DecidableEq τ] in
/-- The interrupt does not touch the calls. -/
theorem phase_receive (s : ReceiveRun τ) (data : List UInt32) : (receive s data).phase = s.phase := by
  induction data generalizing s with
  | nil => rfl
  | cons d data ih => exact ih _

omit [DecidableEq τ] in
/-- An interrupt keeps the order exactly when there is room for what it puts into the ring. -/
theorem ReceiveInv.irq_iff (h : ReceiveInv s) (data : List UInt32) :
    InputInOrder (receive s data) ↔ ReceiveOk s (.irq data) := by
  obtain ⟨m, hm, hheld⟩ := receive_eq s h.rp_lt h.wp_lt data
  have horder := h.order
  have hphase := phase_receive s data
  have hlen := Ring.length_held_add s.mem m h.rp_lt s.wp data.length
  have hsize : (Ring.held uartFifoSize s.mem s.rp s.wp).length < uartFifoSize := by
    rw [Ring.length_held]
    exact Nat.mod_lt _ (by decide)
  have hlt := Nat.mod_lt ((Ring.held uartFifoSize s.mem s.rp s.wp).length + data.length)
    (by decide : 0 < uartFifoSize)
  have hfirst : s.phase.isStoring = true → Ring.held uartFifoSize s.mem s.rp s.wp ≠ [] := fun hst hnil =>
    h.storing hst ((Ring.held_eq_nil_iff _ h.rp_lt h.wp_lt).mp hnil)
  unfold InputInOrder ReceiveRun.held ReceiveOk at *
  rw [hphase, hm]
  dsimp only
  constructor
  · intro hafter
    have h1 := congrArg List.length horder
    have h2 := congrArg List.length hafter
    simp only [List.length_append, List.length_map] at h1 h2
    by_cases hst : s.phase.isStoring = true
    · rw [if_pos hst, List.length_tail] at h1 h2
      rw [hlen] at h2
      have hpos := List.length_pos_of_ne_nil (hfirst hst)
      omega
    · rw [if_neg hst] at h1 h2
      rw [hlen] at h2
      omega
  · intro hroom
    rw [hheld hroom]
    by_cases hst : s.phase.isStoring = true
    · rw [if_pos hst] at horder ⊢
      rw [List.tail_append_of_ne_nil (hfirst hst), ← horder]
      simp
    · rw [if_neg hst] at horder ⊢
      rw [← horder]
      simp

/-! ### The calls -/

omit [DecidableEq τ] in
theorem ReceiveInv.phase_of_holds (h : ReceiveInv s) (ht : (s.pc t).holds = true) : s.phase = s.pc t := by
  rw [ReceiveRun.phase, (h.lock t).mp ht]
  rfl

/-- A call that does not hold `serial_sem` goes on and does not take it. -/
theorem ReceiveInv.waits (h : ReceiveInv s) {v : GetcharPc} (ht : (s.pc t).holds = false)
    (hv : v.holds = false) : ReceiveInv { s with pc := Function.update s.pc t v } := by
  have hphase : ReceiveRun.phase { s with pc := Function.update s.pc t v } = s.phase := by
    unfold ReceiveRun.phase
    dsimp only
    cases hr : s.holder with
    | none => rfl
    | some r =>
      have hne : r ≠ t := by
        rintro rfl
        rw [(h.lock r).mpr hr] at ht
        cases ht
      rw [Option.map_some, Option.map_some, Function.update_of_ne hne]
  refine ⟨h.rp_lt, h.wp_lt, fun r => ?_, fun hst => h.storing (hphase ▸ hst), ?_⟩
  · by_cases hr : r = t
    · subst hr
      have hnot : s.holder ≠ some r := fun hs => by
        rw [(h.lock r).mpr hs] at ht
        cases ht
      simp [hv, hnot]
    · dsimp only
      rw [Function.update_of_ne hr]
      exact h.lock r
  · have horder := h.order
    unfold InputInOrder ReceiveRun.held at *
    rwa [hphase]

/-- A call takes `serial_sem`. -/
theorem ReceiveInv.enters (h : ReceiveInv s) (hnone : s.holder = none) (t : τ) :
    ReceiveInv { s with holder := some t, pc := Function.update s.pc t .loading } := by
  have hphase : s.phase = .idle := by rw [ReceiveRun.phase, hnone]; rfl
  have hphase' : ReceiveRun.phase { s with holder := some t, pc := Function.update s.pc t .loading } = .loading := by
    simp [ReceiveRun.phase]
  refine ⟨h.rp_lt, h.wp_lt, fun r => ?_, fun hst => ?_, ?_⟩
  · by_cases hr : r = t
    · subst hr
      simp [GetcharPc.holds]
    · have hlock := h.lock r
      rw [hnone] at hlock
      simpa [Function.update_of_ne hr, Ne.symm hr] using hlock
  · rw [hphase'] at hst
    cases hst
  · have horder := h.order
    unfold InputInOrder ReceiveRun.held at *
    rw [hphase']
    rwa [hphase] at horder

/-- A call that holds `serial_sem` goes on and keeps it. -/
theorem ReceiveInv.lock_keeps (h : ReceiveInv s) {v : GetcharPc} (ht : (s.pc t).holds = true)
    (hv : v.holds = true) (r : τ) :
    (Function.update s.pc t v r).holds = true ↔ s.holder = some r := by
  by_cases hr : r = t
  · subst hr
    rw [Function.update_self]
    exact iff_of_true hv ((h.lock r).mp ht)
  · rw [Function.update_of_ne hr]
    exact h.lock r

/-- The next access of a call. -/
theorem ReceiveInv.next (h : ReceiveInv s) (hok : ReceiveOk s (.next t)) (hs : getcharNext s t = some s') :
    ReceiveInv s' := by
  unfold getcharNext at hs
  have horder := h.order
  unfold InputInOrder ReceiveRun.held at horder
  cases hpc : s.pc t with
  | idle =>
    rw [hpc] at hs
    cases hs
  | waiting =>
    rw [hpc] at hs
    dsimp only at hs
    split at hs
    · cases hs
      exact h
    · cases hs
      exact h.waits (by rw [hpc]; rfl) rfl
  | entering =>
    rw [hpc] at hs
    dsimp only at hs
    split at hs
    · cases hs
      exact h.enters ‹_› t
    · cases hs
  | loading =>
    have hholds : (s.pc t).holds = true := by rw [hpc]; rfl
    have hphase := h.phase_of_holds hholds
    rw [hpc] at hs hphase
    cases hs
    have hne := hok hpc
    have hphase' : ReceiveRun.phase { s with pc := Function.update s.pc t (.storing (s.mem s.rp)) } =
        .storing (s.mem s.rp) := by
      simp [ReceiveRun.phase, (h.lock t).mp hholds]
    refine ⟨h.rp_lt, h.wp_lt, h.lock_keeps hholds rfl, fun _ => hne, ?_⟩
    unfold InputInOrder ReceiveRun.held
    rw [hphase']
    rw [hphase, Ring.held_cons h.rp_lt h.wp_lt hne] at horder
    rw [Ring.held_cons h.rp_lt h.wp_lt hne, ← horder]
    simp [GetcharPc.taken, GetcharPc.isStoring]
  | storing data =>
    have hholds : (s.pc t).holds = true := by rw [hpc]; rfl
    have hphase := h.phase_of_holds hholds
    have hne := h.storing (by rw [hphase, hpc]; rfl)
    rw [hpc] at hs hphase
    cases hs
    have hphase' : ReceiveRun.phase { s with
        rp := (s.rp + 1) % uartFifoSize, pc := Function.update s.pc t (.leaving data) } = .leaving data := by
      simp [ReceiveRun.phase, (h.lock t).mp hholds]
    refine ⟨succ_mod_uart_lt _, h.wp_lt, h.lock_keeps hholds rfl, fun hst => ?_, ?_⟩
    · rw [hphase'] at hst
      cases hst
    · unfold InputInOrder ReceiveRun.held
      rw [hphase']
      rw [hphase, Ring.held_cons h.rp_lt h.wp_lt hne] at horder
      exact horder
  | leaving data =>
    have hholds : (s.pc t).holds = true := by rw [hpc]; rfl
    have hphase := h.phase_of_holds hholds
    rw [hpc] at hs hphase
    cases hs
    refine ⟨h.rp_lt, h.wp_lt, fun r => ?_, fun hst => absurd hst Bool.false_ne_true, ?_⟩
    · refine iff_of_false ?_ (Option.some_ne_none r).symm
      by_cases hr : r = t
      · subst hr
        simp [GetcharPc.holds]
      · dsimp only
        rw [Function.update_of_ne hr, h.lock r, (h.lock t).mp hholds, Option.some.injEq]
        exact Ne.symm hr
    · unfold InputInOrder ReceiveRun.held
      rw [hphase] at horder
      simpa [ReceiveRun.phase, GetcharPc.taken, GetcharPc.isStoring] using horder

/-- Every step that meets the guard keeps the invariant. -/
theorem receiveInv_step (s : ReceiveRun τ) (e : ReceiveEvent τ) (s' : ReceiveRun τ) (h : ReceiveInv s)
    (hok : ReceiveOk s e) (hs : receiveStep s e = some s') : ReceiveInv s' := by
  cases e with
  | getchar t =>
    rw [receiveStep] at hs
    split at hs
    · cases hs
      exact h.waits (by rw [‹s.pc t = .idle›]; rfl) rfl
    · cases hs
  | next t => exact h.next hok hs
  | irq data =>
    cases hs
    obtain ⟨m, hm, hheld⟩ := receive_eq s h.rp_lt h.wp_lt data
    have hphase := phase_receive s data
    refine ⟨?_, ?_, ?_, fun hst => ?_, (h.irq_iff data).mpr hok⟩
    · rw [hm]
      exact h.rp_lt
    · rw [hm]
      exact Nat.mod_lt _ (by decide)
    · rw [hm]
      exact h.lock
    · have hne := h.storing (hphase ▸ hst)
      rw [hm]
      dsimp only
      rw [ne_eq, ← Ring.held_eq_nil_iff m h.rp_lt (Nat.mod_lt _ (by decide)), hheld hok,
        List.append_eq_nil_iff, Ring.held_eq_nil_iff _ h.rp_lt h.wp_lt]
      exact fun hnil => hne hnil.1

/-- A step that does not meet the guard breaks the order. -/
theorem ReceiveInv.ok_of_inOrder (h : ReceiveInv s) {e : ReceiveEvent τ} (hs : receiveStep s e = some s')
    (horder' : InputInOrder s') : ReceiveOk s e := by
  cases e with
  | getchar t => exact trivial
  | irq data =>
    cases hs
    exact (h.irq_iff data).mp horder'
  | next t =>
    intro hpc heq
    have hholds : (s.pc t).holds = true := by rw [hpc]; rfl
    have hphase := h.phase_of_holds hholds
    have horder := h.order
    simp only [receiveStep, getcharNext, hpc, Option.some.injEq] at hs
    subst hs
    have hnil := (Ring.held_eq_nil_iff s.mem h.rp_lt h.wp_lt).mpr heq
    have hphase' : ReceiveRun.phase { s with pc := Function.update s.pc t (.storing (s.mem s.rp)) } =
        .storing (s.mem s.rp) := by
      simp [ReceiveRun.phase, (h.lock t).mp hholds]
    unfold InputInOrder ReceiveRun.held at horder horder'
    rw [hphase', hnil] at horder'
    rw [hphase, hpc, hnil] at horder
    -- the ring holds nothing, but a character has been taken
    rw [← horder] at horder'
    simp [GetcharPc.taken, GetcharPc.isStoring] at horder'

/-- **Serial input.**  For any number of tasks that call `__getchar` and every interleaving with receive
interrupts, the characters returned are those received, in order and none lost, repeated or made up, in
exactly the runs in which an interrupt always leaves a cell of the ring free and a task that takes a
character finds one. -/
theorem input_in_order_iff (es : List (ReceiveEvent τ)) :
    Run.Always receiveStep InputInOrder (receiveInit τ) es ↔
      Run.Guarded receiveStep ReceiveOk (receiveInit τ) es := by
  refine Run.always_iff_guarded_of_break (fun s h => h.order) receiveInv_step
    (fun s e s' h horder hs => h.ok_of_inOrder hs horder) (fun s e h hs => ?_) receiveInv_init
  cases e with
  | getchar t => exact trivial
  | irq data => cases hs
  | next t =>
    intro hpc
    simp [receiveStep, getcharNext, hpc] at hs

/-! ### One reader -/

/-- The interrupts leave a cell free. -/
def ReceiveRoom (s : ReceiveRun τ) : ReceiveEvent τ → Prop
  | .irq data => ReceiveOk s (.irq data)
  | _ => True

/-- With one task that reads, a call behind its loop finds a character. -/
structure OneReader (s : ReceiveRun τ) : Prop extends ReceiveInv s where
  ready : ∀ t, s.pc t = .entering ∨ s.pc t = .loading → s.rp ≠ s.wp

omit [DecidableEq τ] in
theorem OneReader.ok (h : OneReader s) {e : ReceiveEvent τ} (hroom : ReceiveRoom s e) : ReceiveOk s e := by
  cases e with
  | getchar t => exact trivial
  | irq data => exact hroom
  | next t => exact fun hpc => h.ready t (.inr hpc)

theorem oneReader_step [Subsingleton τ] (s : ReceiveRun τ) (e : ReceiveEvent τ) (s' : ReceiveRun τ)
    (h : OneReader s) (hroom : ReceiveRoom s e) (hs : receiveStep s e = some s') : OneReader s' := by
  have hinv := receiveInv_step s e s' h.toReceiveInv (h.ok hroom) hs
  refine { hinv with ready := fun r hr => ?_ }
  cases e with
  | getchar t =>
    obtain rfl := Subsingleton.elim r t
    rw [receiveStep] at hs
    split at hs
    · cases hs
      simp at hr
    · cases hs
  | irq data =>
    cases hs
    obtain ⟨m, hm, hheld⟩ := receive_eq s h.rp_lt h.wp_lt data
    rw [hm] at hr ⊢
    have hne := h.ready r hr
    dsimp only
    rw [ne_eq, ← Ring.held_eq_nil_iff m h.rp_lt (Nat.mod_lt _ (by decide)), hheld hroom,
      List.append_eq_nil_iff, Ring.held_eq_nil_iff _ h.rp_lt h.wp_lt]
    exact fun hnil => hne hnil.1
  | next t =>
    obtain rfl := Subsingleton.elim r t
    have hready := h.ready r
    simp only [receiveStep, getcharNext] at hs
    cases hpc : s.pc r with
    | idle => simp [hpc] at hs
    | waiting =>
      simp only [hpc] at hs
      split at hs
      · cases hs
        simp [hpc] at hr
      · cases hs
        assumption
    | entering =>
      simp only [hpc] at hs
      split at hs
      · cases hs
        exact hready (.inl hpc)
      · cases hs
    | loading =>
      simp only [hpc] at hs
      cases hs
      simp at hr
    | storing data =>
      simp only [hpc] at hs
      cases hs
      simp at hr
    | leaving data =>
      simp only [hpc] at hs
      cases hs
      simp at hr

/-- **A single reader** only needs room in the ring. -/
theorem input_one_reader_iff [Subsingleton τ] (es : List (ReceiveEvent τ)) :
    Run.Always receiveStep InputInOrder (receiveInit τ) es ↔
      Run.Guarded receiveStep ReceiveRoom (receiveInit τ) es := by
  have hstart : OneReader (receiveInit τ) :=
    { receiveInv_init with ready := fun t ht => absurd ht (by simp [receiveInit]) }
  refine Run.always_iff_guarded_of_break (fun s h => h.order) oneReader_step
    (fun s e s' h horder hs => ?_) (fun s e h hs => ?_) hstart
  · cases e with
    | getchar t => exact trivial
    | next t => exact trivial
    | irq data => exact h.toReceiveInv.ok_of_inOrder hs horder
  · cases e with
    | getchar t => exact trivial
    | next t => exact trivial
    | irq data => cases hs

end Steps

/-- The shell reads the one character that arrives while it waits. -/
theorem input_one_reader_iff_char :
    Run.Always receiveStep InputInOrder (receiveInit Unit) [.getchar (), .next (), .irq [97], .next ()] ↔
      Run.Guarded receiveStep ReceiveRoom (receiveInit Unit) [.getchar (), .next (), .irq [97], .next ()] :=
  input_one_reader_iff [.getchar (), .next (), .irq [97], .next ()]

end YakOS
