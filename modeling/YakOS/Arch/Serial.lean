import YakOS.Lib.Ring
import YakOS.Lib.Run

/-!
# The serial port

The output side of `arch/arm/boards/Hi3560/serial.c`: `__puts` puts a string into the
ring `fifo_out` and then moves what the transmitter takes from the ring to `UART_DR`; the
transmit interrupt, in `platform_uart`, does the same with what is left.

Calls of `__puts` follow one another, since they hold `serial_sem`.  The interrupt may come
between any two accesses of a call to the ring, and is not interrupted itself.  The
transmitter has room as often as it likes: an interrupt finds room some number of times,
and each look of `__puts` at `UART_FR` finds it full or not.

## Main definitions

* `PutsPc`, `SerialRun`, `serialStep` — calls of `__puts` and interrupts, one access at a time.
* `SerialRun.held`, `SerialRun.pending` — what the ring holds, and what a call has yet to put there.
* `InOrder` — the bytes written are those passed, in order, up to those held and pending.
* `Spared` — the ring has room, and an interrupt does not take what `__puts` is about to send.

## Main results

* `serialInv_step` — the steps that spare it keep the invariant.
* `serial_in_order` — **in a run of such steps no byte is lost or repeated.**
-/

namespace YakOS

/-- `UART_FIFO_SIZE`. -/
def uartFifoSize : ℕ := 1024

/-- The bytes that `__puts` puts into the ring for a string: a carriage return follows each
newline. -/
def withReturns (str : List UInt8) : List UInt8 :=
  str.flatMap fun c => if c = 10 then [c, 13] else [c]

/-- Where the call of `__puts` is. -/
inductive PutsPc
  /-- There is none. -/
  | idle
  /-- Before the store of the next byte, or behind the first loop if there is none. -/
  | storing (rest : List UInt8)
  /-- The next byte is stored, `wp` is not yet moved. -/
  | bumping (next : UInt8) (rest : List UInt8)
  /-- Before the look at `UART_FR`. -/
  | polling
  /-- Before the comparison of `rp` and `wp`. -/
  | comparing
  /-- Before the load of `rp` for the byte to send. -/
  | fetching
  /-- Before the write of the byte at `r` to `UART_DR`. -/
  | sending (r : ℕ)
  /-- Before the load of `rp` for its increment. -/
  | advancing
  /-- Before the store of the increment of `r`. -/
  | writing (r : ℕ)
  deriving DecidableEq, Repr

/-- A byte is stored and `wp` not yet moved. -/
def PutsPc.isBumping : PutsPc → Bool
  | .bumping _ _ => true
  | _ => false

/-- Between the load of `rp` for the byte to send and the store of its increment. -/
def PutsPc.isSending : PutsPc → Bool
  | .sending _ | .advancing | .writing _ => true
  | _ => false

/-- The ring `fifo_out`, the call of `__puts`, and the ledger of the run. -/
structure SerialRun where
  mem : ℕ → UInt8
  wp : ℕ
  rp : ℕ
  pc : PutsPc
  /-- The bytes written to `UART_DR`, first to last. -/
  sent : List UInt8
  /-- The strings passed to `__puts`, one after the other and with their carriage returns. -/
  passed : List UInt8

/-- The port after boot. -/
def serialInit : SerialRun where
  mem _ := 0
  wp := 0
  rp := 0
  pc := .idle
  sent := []
  passed := []

/-- The steps of a run. -/
inductive SerialEvent
  /-- A call of `__puts` takes `serial_sem`. -/
  | puts (str : List UInt8)
  /-- The next access of the call; `full` is the bit `UART_FR_TXFF` if it looks at it. -/
  | next (full : Bool)
  /-- A transmit interrupt that finds room in the transmitter `n` times. -/
  | irq (n : ℕ)
  deriving DecidableEq, Repr

/-- The loop of `platform_uart`. -/
def drain : ℕ → SerialRun → SerialRun
  | 0, s => s
  | n + 1, s =>
    if s.rp ≠ s.wp then
      drain n { s with sent := s.sent ++ [s.mem s.rp], rp := (s.rp + 1) % uartFifoSize }
    else s

/-- The next access of `__puts`. -/
def putsNext (s : SerialRun) (full : Bool) : Option SerialRun :=
  match s.pc with
  | .idle => none
  | .storing [] => some { s with pc := .polling }
  | .storing (c :: rest) =>
    some { s with mem := fun i => if i = s.wp then c else s.mem i, pc := .bumping c rest }
  | .bumping _ rest => some { s with wp := (s.wp + 1) % uartFifoSize, pc := .storing rest }
  | .polling => some { s with pc := if full then .idle else .comparing }
  | .comparing => some { s with pc := if s.rp ≠ s.wp then .fetching else .idle }
  | .fetching => some { s with pc := .sending s.rp }
  | .sending r => some { s with sent := s.sent ++ [s.mem r], pc := .advancing }
  | .advancing => some { s with pc := .writing s.rp }
  | .writing r => some { s with rp := (r + 1) % uartFifoSize, pc := .polling }

/-- One step. -/
def serialStep (s : SerialRun) : SerialEvent → Option SerialRun
  | .puts str =>
    if s.pc = .idle then
      some { s with pc := .storing (withReturns str), passed := s.passed ++ withReturns str }
    else none
  | .next full => putsNext s full
  | .irq n => some (drain n s)

/-! ### What the ring holds -/

namespace SerialRun

/-- The bytes in the ring that are still to be sent: the first one is not, once `__puts` has
written it and not yet moved `rp`. -/
def held (s : SerialRun) : List UInt8 :=
  match s.pc with
  | .advancing | .writing _ => (Ring.held uartFifoSize s.mem s.rp s.wp).tail
  | _ => Ring.held uartFifoSize s.mem s.rp s.wp

/-- The bytes of the running call that are not in the ring yet. -/
def pending (s : SerialRun) : List UInt8 :=
  match s.pc with
  | .storing rest => rest
  | .bumping next rest => next :: rest
  | _ => []

end SerialRun

/-- The bytes written to `UART_DR`, those held and those of the running call yet to come are the
strings passed, in order: none is lost and none repeated. -/
def InOrder (s : SerialRun) : Prop := s.sent ++ s.held ++ s.pending = s.passed

instance (s : SerialRun) : Decidable (InOrder s) := inferInstanceAs (Decidable (_ = _))

/-- There is room in the ring for the byte that is put there; and an interrupt between the test
of `__puts` and its load of `rp` leaves a byte, and one between that load and the store of `rp`
sends none. -/
def Spared (s : SerialRun) : SerialEvent → Prop
  | .puts _ => True
  | .next _ => s.pc.isBumping = true → (s.wp + 1) % uartFifoSize ≠ s.rp
  | .irq n => (s.pc = .fetching → n < s.held.length) ∧ (s.pc.isSending = true → n = 0)

instance (s : SerialRun) : (e : SerialEvent) → Decidable (Spared s e)
  | .puts _ => isTrue trivial
  | .next _ => inferInstanceAs (Decidable (_ → _))
  | .irq _ => inferInstanceAs (Decidable (_ ∧ _))

/-! ### The invariant -/

/-- What is known from where the call is: a byte stored is the one to be put, and behind the test
there is a byte to send, at the place loaded. -/
def PutsOk (s : SerialRun) : Prop :=
  match s.pc with
  | .bumping c _ => s.mem s.wp = c
  | .fetching | .advancing => s.rp ≠ s.wp
  | .sending r | .writing r => s.rp ≠ s.wp ∧ r = s.rp
  | _ => True

/-- The invariant of the runs that are spared. -/
structure SerialInv (s : SerialRun) : Prop where
  rp_lt : s.rp < uartFifoSize
  wp_lt : s.wp < uartFifoSize
  pc : PutsOk s
  order : InOrder s

theorem serialInv_init : SerialInv serialInit :=
  ⟨by decide, by decide, trivial, by decide⟩

section Steps

variable {s s' : SerialRun}

theorem succ_mod_uart_lt (i : ℕ) : (i + 1) % uartFifoSize < uartFifoSize :=
  Nat.mod_lt _ (by decide)

/-- The loop sends the first bytes held. -/
theorem drain_eq (n : ℕ) (hr : s.rp < uartFifoSize) (hw : s.wp < uartFifoSize) :
    ∃ rp, rp < uartFifoSize ∧
      drain n s = { s with
        rp := rp
        sent := s.sent ++ (Ring.held uartFifoSize s.mem s.rp s.wp).take n } ∧
      Ring.held uartFifoSize s.mem rp s.wp = (Ring.held uartFifoSize s.mem s.rp s.wp).drop n := by
  induction n generalizing s with
  | zero => exact ⟨s.rp, hr, by simp [drain], by simp⟩
  | succ n ih =>
    unfold drain
    split
    · rename_i hne
      obtain ⟨rp, hrp, heq, hheld⟩ := ih
        (s := { s with sent := s.sent ++ [s.mem s.rp], rp := (s.rp + 1) % uartFifoSize })
        (succ_mod_uart_lt _) hw
      refine ⟨rp, hrp, ?_, ?_⟩
      · rw [heq, Ring.held_cons hr hw hne]
        simp
      · rw [hheld, Ring.held_cons hr hw hne, List.drop_succ_cons]
    · rename_i heq
      have hnil := (Ring.held_eq_nil_iff s.mem hr hw).mpr (not_not.mp heq)
      exact ⟨s.rp, hr, by simp [hnil], by simp [hnil]⟩

/-- Where `__puts` has not written a byte that is still in the ring, the ring holds what is to
be sent. -/
theorem SerialRun.held_eq (h : s.pc ≠ .advancing) (h' : ∀ r, s.pc ≠ .writing r) :
    s.held = Ring.held uartFifoSize s.mem s.rp s.wp := by
  unfold SerialRun.held
  split
  · exact absurd ‹_› h
  · exact absurd ‹_› (h' _)
  · rfl

/-- An interrupt takes bytes from the front of those held. -/
theorem SerialInv.irq {n : ℕ} (hinv : SerialInv s) (hspared : Spared s (.irq n)) :
    SerialInv (drain n s) := by
  by_cases hn : n = 0
  · subst hn
    exact hinv
  obtain ⟨rp, hrp, heq, hheld⟩ := drain_eq n hinv.rp_lt hinv.wp_lt
  -- behind the load of `rp` an interrupt that sends is not spared
  have hadvancing : s.pc ≠ .advancing := fun hs => hn (hspared.2 (by rw [hs]; rfl))
  have hwriting : ∀ r, s.pc ≠ .writing r := fun r hs => hn (hspared.2 (by rw [hs]; rfl))
  rw [heq]
  refine ⟨hrp, hinv.wp_lt, ?_, ?_⟩
  · have hpc := hinv.pc
    unfold PutsOk at *
    dsimp only
    cases hs : s.pc with
    | sending r => exact absurd (hspared.2 (by rw [hs]; rfl)) hn
    | advancing => exact absurd hs hadvancing
    | writing r => exact absurd hs (hwriting r)
    | bumping c rest =>
      rw [hs] at hpc
      exact hpc
    | fetching =>
      have hlt := hspared.1 hs
      rw [SerialRun.held_eq hadvancing hwriting] at hlt
      show rp ≠ s.wp
      intro hcon
      rw [← Ring.held_eq_nil_iff s.mem hrp hinv.wp_lt, hheld, List.drop_eq_nil_iff] at hcon
      omega
    | idle => trivial
    | storing rest => trivial
    | polling => trivial
    | comparing => trivial
  · have horder := hinv.order
    have hnew := SerialRun.held_eq
      (s := { s with
        rp := rp, sent := s.sent ++ (Ring.held uartFifoSize s.mem s.rp s.wp).take n })
      hadvancing hwriting
    unfold InOrder at *
    rw [SerialRun.held_eq hadvancing hwriting] at horder
    rw [hnew]
    dsimp only
    rw [hheld, List.append_assoc s.sent, List.take_append_drop]
    exact horder

/-- A call takes `serial_sem`. -/
theorem SerialInv.puts {str : List UInt8} (hinv : SerialInv s) (hidle : s.pc = .idle) :
    SerialInv { s with pc := .storing (withReturns str), passed := s.passed ++ withReturns str } := by
  have horder := hinv.order
  refine ⟨hinv.rp_lt, hinv.wp_lt, trivial, ?_⟩
  simp only [InOrder, SerialRun.held, SerialRun.pending, hidle, List.append_nil] at *
  rw [horder]

/-- The next access of the call. -/
theorem SerialInv.next {full : Bool} (hinv : SerialInv s) (hspared : Spared s (.next full))
    (h : putsNext s full = some s') : SerialInv s' := by
  obtain ⟨hrp, hwp, hpc, horder⟩ := hinv
  simp only [InOrder, SerialRun.held, SerialRun.pending, PutsOk] at hpc horder
  unfold putsNext at h
  -- one case for each place in `puts`
  split at h <;> rename_i hs <;> rw [hs] at hpc horder
  · cases h
  · obtain rfl := Option.some.inj h
    exact ⟨hrp, hwp, trivial, horder⟩
  · -- the cell at `wp` is not one of those held
    obtain rfl := Option.some.inj h
    refine ⟨hrp, hwp, if_pos rfl, ?_⟩
    simp only [InOrder, SerialRun.held, SerialRun.pending]
    rw [Ring.held_store hrp hwp fun i hi => if_neg hi]
    exact horder
  · obtain rfl := Option.some.inj h
    refine ⟨hrp, succ_mod_uart_lt _, trivial, ?_⟩
    simp only [InOrder, SerialRun.held, SerialRun.pending]
    rw [Ring.held_bump hrp hwp (hspared (by rw [hs]; rfl)), hpc]
    simpa using horder
  · obtain rfl := Option.some.inj h
    cases full with
    | true => exact ⟨hrp, hwp, trivial, horder⟩
    | false => exact ⟨hrp, hwp, trivial, horder⟩
  · obtain rfl := Option.some.inj h
    by_cases hne : s.rp ≠ s.wp
    · rw [if_pos hne]
      exact ⟨hrp, hwp, hne, horder⟩
    · rw [if_neg hne]
      exact ⟨hrp, hwp, trivial, horder⟩
  · obtain rfl := Option.some.inj h
    exact ⟨hrp, hwp, ⟨hpc, rfl⟩, horder⟩
  · -- the byte written is the first one held
    obtain rfl := Option.some.inj h
    obtain ⟨hne, rfl⟩ := hpc
    refine ⟨hrp, hwp, hne, ?_⟩
    simp only [InOrder, SerialRun.held, SerialRun.pending]
    rw [Ring.held_cons hrp hwp hne] at horder ⊢
    simpa using horder
  · obtain rfl := Option.some.inj h
    exact ⟨hrp, hwp, ⟨hpc, rfl⟩, horder⟩
  · obtain rfl := Option.some.inj h
    obtain ⟨hne, rfl⟩ := hpc
    refine ⟨succ_mod_uart_lt _, hwp, trivial, ?_⟩
    simp only [InOrder, SerialRun.held, SerialRun.pending]
    rw [Ring.held_cons hrp hwp hne] at horder
    exact horder

theorem serialInv_step {e : SerialEvent} (hinv : SerialInv s) (hspared : Spared s e)
    (h : serialStep s e = some s') : SerialInv s' := by
  cases e with
  | puts str =>
    unfold serialStep at h
    dsimp only at h
    split at h
    · obtain rfl := Option.some.inj h
      exact hinv.puts ‹_›
    · cases h
  | next full => exact hinv.next hspared h
  | irq n =>
    obtain rfl := Option.some.inj h
    exact hinv.irq hspared

end Steps

/-- **The serial output.**  In every interleaving of calls of `__puts` and transmit interrupts that
spares the ring, the bytes written to `UART_DR` are the strings passed with their carriage returns,
in order, none lost and none repeated, up to those still held. -/
theorem serial_in_order {es : List SerialEvent}
    (hspared : Run.Guarded serialStep Spared serialInit es) :
    Run.Always serialStep InOrder serialInit es := by
  have hrun : Run.Always serialStep SerialInv serialInit es :=
    Run.always_of_guarded (fun s e s' hinv hC h => serialInv_step hinv hC h) serialInv_init hspared
  exact hrun.mono fun s hinv => hinv.order

/-- A newline, with an interrupt before the test of `__puts` and one after the call. -/
theorem serial_in_order_newline :
    Run.Guarded serialStep Spared serialInit
      ([.puts [72, 10]] ++ List.replicate 7 (.next false) ++ [.irq 1, .next false, .irq 2]) ∧
    Run.Always serialStep InOrder serialInit
      ([.puts [72, 10]] ++ List.replicate 7 (.next false) ++ [.irq 1, .next false, .irq 2]) :=
  ⟨by decide, serial_in_order (by decide)⟩

/-! ### A transmitter that stalls -/

theorem withReturns_of_not_mem {str : List UInt8} (h : 10 ∉ str) : withReturns str = str := by
  induction str with
  | nil => rfl
  | cons c str ih =>
    rw [List.mem_cons, not_or] at h
    have hrest := ih h.2
    unfold withReturns at *
    rw [List.flatMap_cons, hrest, if_neg (Ne.symm h.1), List.singleton_append]

/-- The first loop of `__puts` does not look at `rp`. -/
theorem exec_fill {s : SerialRun} {rest : List UInt8} (hpc : s.pc = .storing rest)
    (hwp : s.wp < uartFifoSize) :
    ∃ s', Run.exec serialStep s (List.replicate (2 * rest.length) (.next true)) = some s' ∧
      s'.pc = .storing [] ∧ s'.wp = (s.wp + rest.length) % uartFifoSize ∧ s'.rp = s.rp ∧
      s'.sent = s.sent ∧ s'.passed = s.passed := by
  induction rest generalizing s with
  | nil => exact ⟨s, rfl, hpc, (Nat.mod_eq_of_lt hwp).symm, rfl, rfl, rfl⟩
  | cons c rest ih =>
    obtain ⟨s', hexec, hpc', hwp', hrp, hsent, hpassed⟩ := ih
      (s := { s with
        mem := fun i => if i = s.wp then c else s.mem i
        wp := (s.wp + 1) % uartFifoSize
        pc := .storing rest }) rfl (succ_mod_uart_lt _)
    refine ⟨s', ?_, hpc', ?_, hrp, hsent, hpassed⟩
    · rw [List.length_cons, Nat.mul_succ, List.replicate_succ, List.replicate_succ]
      simp only [Run.exec_cons, serialStep, putsNext, hpc, Option.bind_some]
      exact hexec
    · rw [hwp', List.length_cons, Nat.mod_add_mod]
      congr 1
      omega

/-- A string as long as the ring, while the transmitter is full: `wp` is back at `rp`, and the
ring holds nothing. -/
theorem exec_stalled (str : List UInt8) (hlen : (withReturns str).length = uartFifoSize) :
    ∃ es, ¬ Run.Always serialStep InOrder serialInit es := by
  obtain ⟨s, hexec, hpc, hwp, hrp, hsent, hpassed⟩ := exec_fill
    (s := { serialInit with
      pc := .storing (withReturns str), passed := serialInit.passed ++ withReturns str })
    rfl (show 0 < uartFifoSize by decide)
  refine ⟨.puts str :: List.replicate (2 * (withReturns str).length) (.next true), ?_⟩
  intro h
  have horder := congrArg List.length ((h.2 _ rfl).exec hexec)
  rw [hlen] at hwp
  simp only [SerialRun.held, SerialRun.pending, hpc, hsent, hpassed, List.length_append,
    Ring.length_held, hwp, hrp, hlen] at horder
  exact absurd horder (by decide)

/-- A string of 1024 letters while the transmitter is full. -/
theorem stalled_output_lost : ¬ ∀ es, Run.Always serialStep InOrder serialInit es := by
  intro h
  have hstr : withReturns (List.replicate 1024 97) = List.replicate 1024 97 :=
    withReturns_of_not_mem fun hmem => absurd (List.eq_of_mem_replicate hmem) (by decide)
  obtain ⟨es, hes⟩ := exec_stalled (List.replicate 1024 97)
    (by rw [hstr, List.length_replicate]; rfl)
  exact hes (h es)

end YakOS
