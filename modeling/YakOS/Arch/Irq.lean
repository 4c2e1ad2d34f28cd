import Mathlib.Algebra.Group.Nat.Defs
import Mathlib.Data.Nat.Size
import Mathlib.Order.Nat
import YakOS.Lib.Lists

/-!
# Interrupts

`platform_irq` and `register_int_handler` of `arch/arm/boards/Hi3560/interrupts.c`.  The loop of
`platform_irq` shifts the status and counts the vectors before it looks at the table, and does not
look at the bit: from vector 1 on, it calls every handler that is registered up to one vector above the
highest pending one, and keeps what the last of them returns.

An element of the table, and of the memory behind it, is a handler and its argument.  Handlers leave the
table alone.

## Main definitions

* `IntTable`, `registerIntHandler`, `Registration` — the table and how it is filled.
* `platformIrq` — the code, with the elements it has looked at and the handlers it has called.
* `IrqRight` — what an interrupt is to do.
* `IrqOk` — the condition under which it does.

## Main results

* `platformIrq_eq` — what the loop comes to.
* `platform_irq_iff` — **an interrupt does what it has to exactly when the condition holds.**
-/

namespace YakOS

/-- `INTNR_IRQ_END`, which is also the number of elements of `int_handler_table`. -/
def intnrIrqEnd : ℕ := 31

/-- `handler_return`. -/
inductive HandlerReturn
  | intNoReschedule
  | intReschedule
  deriving DecidableEq, Repr

/-- `struct int_handler_struct`; a null `handler` is `none`. -/
structure IntHandler where
  handler : Option (ℕ → HandlerReturn)
  arg : ℕ

/-- `int_handler_table` with the memory behind it, and the messages. -/
structure IntTable where
  elem : ℕ → IntHandler
  printed : List String

/-- What the handler of an element returns when it is called. -/
def IntTable.returns (m : IntTable) (v : ℕ) : Option HandlerReturn :=
  (m.elem v).handler.map fun handler => handler (m.elem v).arg

/-! ### Filling the table -/

/-- `register_int_handler`: a vector out of range is reported, and stored all the same. -/
def registerIntHandler (m : IntTable) (vector : ℕ) (handler : Option (ℕ → HandlerReturn)) (arg : ℕ) :
    IntTable where
  elem := Function.update m.elem vector ⟨handler, arg⟩
  printed := if vector > intnrIrqEnd then
    m.printed ++ ["register_int_handler: vector out of range %d\n"] else m.printed

/-- A call of `register_int_handler` with a vector that it does not report. -/
structure Registration where
  vector : ℕ
  handler : Option (ℕ → HandlerReturn)
  arg : ℕ
  accepted : vector ≤ intnrIrqEnd

/-- The table after boot: its elements are zero, behind it lies anything. -/
def IntTable.boot (behind : ℕ → IntHandler) : IntTable where
  elem v := if v < intnrIrqEnd then ⟨none, 0⟩ else behind v
  printed := []

/-- The table after a sequence of registrations. -/
def filled (behind : ℕ → IntHandler) (regs : List Registration) : IntTable :=
  regs.foldl (fun m c => registerIntHandler m c.vector c.handler c.arg) (.boot behind)

/-- What the handler registered for a vector returns: that of the last call for it, unless it is null. -/
def handlerFor (regs : List Registration) (v : ℕ) : Option HandlerReturn :=
  (regs.reverse.find? fun c => c.vector = v).bind fun c =>
    c.handler.map fun handler => handler c.arg

theorem handlerFor_concat (regs : List Registration) (c : Registration) (v : ℕ) :
    handlerFor (regs ++ [c]) v =
      if c.vector = v then c.handler.map fun handler => handler c.arg else handlerFor regs v := by
  unfold handlerFor
  rw [List.reverse_append, List.reverse_singleton, List.singleton_append, List.find?_cons]
  by_cases h : c.vector = v <;> simp [h]

/-- The elements of the table are the handlers registered. -/
theorem returns_filled (behind : ℕ → IntHandler) (regs : List Registration) {v : ℕ}
    (hv : v < intnrIrqEnd) : (filled behind regs).returns v = handlerFor regs v := by
  induction regs using List.reverseRecOn with
  | nil =>
    unfold filled IntTable.returns IntTable.boot
    simp [hv, handlerFor]
  | append_singleton regs c ih =>
    have hstep : filled behind (regs ++ [c]) =
        registerIntHandler (filled behind regs) c.vector c.handler c.arg := by
      unfold filled
      rw [List.foldl_append]
      rfl
    rw [hstep, handlerFor_concat, ← ih]
    unfold IntTable.returns registerIntHandler
    by_cases h : c.vector = v
    · subst h
      simp
    · simp [Function.update_of_ne (Ne.symm h), h]

/-! ### The interrupt -/

/-- What a call of `platform_irq` has done: the elements it has looked at, the vectors whose handlers it
has called, and `ret`. -/
structure IrqRun where
  indexed : List ℕ
  called : List ℕ
  ret : HandlerReturn
  deriving DecidableEq, Repr

/-- The loop of `platform_irq`, at most `fuel` rounds. -/
def irqRounds (m : IntTable) : ℕ → ℕ → ℕ → IrqRun → IrqRun
  | 0, _, _, r => r
  | fuel + 1, irqStatus, irqNum, r =>
    if irqStatus ≠ 0 then
      let irqNum := irqNum + 1
      let indexed := r.indexed ++ [irqNum]
      irqRounds m fuel (irqStatus / 2) irqNum
        (match m.returns irqNum with
          | some ret => { indexed := indexed, called := r.called ++ [irqNum], ret := ret }
          | none => { r with indexed := indexed })
    else r

/-- `platform_irq`, with the word it reads from the status register: a round for each of its bits is
enough. -/
def platformIrq (m : IntTable) (irqStatus : UInt32) : IrqRun :=
  irqRounds m 32 irqStatus.toNat 0 { indexed := [], called := [], ret := .intNoReschedule }

/-- A shift takes one bit off. -/
theorem size_div_two {n : ℕ} (h : n ≠ 0) : Nat.size n = Nat.size (n / 2) + 1 := by
  apply Nat.le_antisymm
  · rw [Nat.size_le, Nat.pow_succ]
    have := Nat.lt_size_self (n / 2)
    omega
  · have hpos : 0 < Nat.size n := Nat.size_pos.mpr (Nat.pos_of_ne_zero h)
    obtain ⟨k, hk⟩ := Nat.exists_eq_add_one_of_ne_zero hpos.ne'
    have hlt := Nat.lt_size_self n
    rw [hk, Nat.pow_succ] at hlt
    rw [hk]
    exact Nat.succ_le_succ (Nat.size_le.mpr (by omega))

/-- **The loop**, with a round for each bit of the status: it looks at one element after the other, calls
the handlers it finds and keeps what the last one returns. -/
theorem irqRounds_eq (m : IntTable) {fuel irqStatus : ℕ} (h : irqStatus < 2 ^ fuel) (irqNum : ℕ)
    (r : IrqRun) : irqRounds m fuel irqStatus irqNum r =
      { indexed := r.indexed ++ List.range' (irqNum + 1) (Nat.size irqStatus)
        called := r.called ++ (List.range' (irqNum + 1) (Nat.size irqStatus)).filter
          fun v => (m.returns v).isSome
        ret := (List.range' (irqNum + 1) (Nat.size irqStatus)).foldl
          (fun ret v => (m.returns v).getD ret) r.ret } := by
  induction fuel generalizing irqStatus irqNum r with
  | zero =>
    obtain rfl : irqStatus = 0 := by omega
    simp [irqRounds]
  | succ fuel ih =>
    unfold irqRounds
    by_cases hzero : irqStatus = 0
    · subst hzero
      simp
    · rw [if_pos hzero]
      dsimp only
      rw [ih (by rw [Nat.pow_succ] at h; omega), size_div_two hzero, List.range'_succ]
      cases hret : m.returns (irqNum + 1) <;> simp [hret]

/-- The vectors `platform_irq` calls a handler for. -/
theorem mem_called {m : IntTable} {irqStatus : UInt32} {v : ℕ} :
    v ∈ (platformIrq m irqStatus).called ↔
      (0 < v ∧ v ≤ Nat.size irqStatus.toNat) ∧ m.returns v ≠ none := by
  unfold platformIrq
  rw [irqRounds_eq m irqStatus.toNat_lt]
  simp only [List.nil_append, List.mem_filter, List.mem_range'_1, Option.isSome_iff_ne_none]
  refine and_congr_left ?_
  intro _
  omega

theorem pairwise_called (m : IntTable) (irqStatus : UInt32) :
    (platformIrq m irqStatus).called.Pairwise (· < ·) := by
  unfold platformIrq
  rw [irqRounds_eq m irqStatus.toNat_lt]
  exact List.Pairwise.filter _ (List.pairwise_lt_range')

theorem mem_indexed {m : IntTable} {irqStatus : UInt32} {i : ℕ} :
    i ∈ (platformIrq m irqStatus).indexed ↔ 0 < i ∧ i ≤ Nat.size irqStatus.toNat := by
  unfold platformIrq
  rw [irqRounds_eq m irqStatus.toNat_lt]
  simp only [List.nil_append, List.mem_range'_1]
  omega

theorem platformIrq_ret (m : IntTable) (irqStatus : UInt32) : (platformIrq m irqStatus).ret =
    (((platformIrq m irqStatus).called.getLast?).bind m.returns).getD .intNoReschedule := by
  unfold platformIrq
  rw [irqRounds_eq m irqStatus.toNat_lt]
  exact Lists.foldl_getD m.returns _ _

/-! ### What it is to do -/

/-- The vector is pending and a handler is registered for it. -/
def Pending (regs : List Registration) (irqStatus : UInt32) (v : ℕ) : Prop :=
  irqStatus.toNat.testBit v = true ∧ handlerFor regs v ≠ none

/-- The handlers of the pending vectors are called, each once; the table is not left; and the result asks
for a new schedule exactly when one of them does. -/
structure IrqRight (regs : List Registration) (irqStatus : UInt32) (r : IrqRun) : Prop where
  called : ∀ v, v ∈ r.called ↔ Pending regs irqStatus v
  once : r.called.Nodup
  inTable : ∀ i ∈ r.indexed, i < intnrIrqEnd
  ret : r.ret = .intReschedule ↔ ∃ v ∈ r.called, handlerFor regs v = some .intReschedule

/-- The condition: the two highest bits of the status are clear; among the vectors with a handler the
pending ones are those from 1 on that are not more than one above the highest pending one; and if any of
their handlers asks for a new schedule, that of the highest one does. -/
structure IrqOk (regs : List Registration) (irqStatus : UInt32) : Prop where
  low : irqStatus.toNat < 2 ^ 30
  pending : ∀ v, handlerFor regs v ≠ none →
    (irqStatus.toNat.testBit v = true ↔ 0 < v ∧ v ≤ Nat.size irqStatus.toNat)
  highest : ∀ v w, Pending regs irqStatus v → handlerFor regs v = some .intReschedule →
    Pending regs irqStatus w → (∀ u, Pending regs irqStatus u → u ≤ w) →
    handlerFor regs w = some .intReschedule

section Interrupt

variable {behind : ℕ → IntHandler} {regs : List Registration} {irqStatus : UInt32}

/-- The elements looked at are in the table exactly when the two highest bits are clear. -/
theorem indexed_lt_iff {m : IntTable} :
    (∀ i ∈ (platformIrq m irqStatus).indexed, i < intnrIrqEnd) ↔ irqStatus.toNat < 2 ^ 30 := by
  rw [← Nat.size_le]
  constructor
  · intro h
    by_contra hlt
    exact lt_irrefl _ (h 31 (mem_indexed.mpr ⟨by decide, by omega⟩))
  · intro h i hi
    have := (mem_indexed.mp hi).2
    unfold intnrIrqEnd
    omega

/-- With the highest bits clear, the vectors called are those of the handlers registered. -/
theorem mem_called_filled (hlow : irqStatus.toNat < 2 ^ 30) {v : ℕ} :
    v ∈ (platformIrq (filled behind regs) irqStatus).called ↔
      (0 < v ∧ v ≤ Nat.size irqStatus.toNat) ∧ handlerFor regs v ≠ none := by
  have hsize := Nat.size_le.mpr hlow
  rw [mem_called]
  refine and_congr_right ?_
  intro hv
  rw [returns_filled behind regs (by unfold intnrIrqEnd; omega)]

/-- **What an interrupt returns**, when it calls what it has to. -/
theorem ret_iff (hlow : irqStatus.toNat < 2 ^ 30)
    (hcalled : ∀ v, v ∈ (platformIrq (filled behind regs) irqStatus).called ↔
      Pending regs irqStatus v) :
    ((platformIrq (filled behind regs) irqStatus).ret = .intReschedule ↔
      ∃ v ∈ (platformIrq (filled behind regs) irqStatus).called,
        handlerFor regs v = some .intReschedule) ↔
    ∀ v w, Pending regs irqStatus v → handlerFor regs v = some .intReschedule →
      Pending regs irqStatus w → (∀ u, Pending regs irqStatus u → u ≤ w) →
      handlerFor regs w = some .intReschedule := by
  have hsize := Nat.size_le.mpr hlow
  have hreturns : ∀ w ∈ (platformIrq (filled behind regs) irqStatus).called,
      (filled behind regs).returns w = handlerFor regs w := by
    intro w hw
    have := ((mem_called_filled hlow).mp hw).1
    exact returns_filled behind regs (by unfold intnrIrqEnd; omega)
  rw [platformIrq_ret]
  constructor
  · intro hret v w hv hresched hw hmax
    have hlast := (Lists.getLast?_eq_some_iff_of_pairwise (pairwise_called _ _)).mpr
      ⟨(hcalled w).mpr hw, fun u hu => hmax u ((hcalled u).mp hu)⟩
    have hkept := hret.mpr ⟨v, (hcalled v).mpr hv, hresched⟩
    rw [hlast, Option.bind_some, hreturns w ((hcalled w).mpr hw)] at hkept
    obtain ⟨ret, hw'⟩ := Option.ne_none_iff_exists'.mp hw.2
    rw [hw'] at hkept ⊢
    exact congrArg some hkept
  · intro hhigh
    cases hcase : (platformIrq (filled behind regs) irqStatus).called.getLast? with
    | none =>
      rw [List.getLast?_eq_none_iff.mp hcase]
      simp
    | some w =>
      obtain ⟨hw, hmax⟩ := (Lists.getLast?_eq_some_iff_of_pairwise (pairwise_called _ _)).mp hcase
      obtain ⟨ret, hret⟩ := Option.ne_none_iff_exists'.mp ((hcalled w).mp hw).2
      rw [Option.bind_some, hreturns w hw, hret, Option.getD_some]
      constructor
      · rintro rfl
        exact ⟨w, hw, hret⟩
      · rintro ⟨v, hv, hresched⟩
        have hw' := hhigh v w ((hcalled v).mp hv) hresched ((hcalled w).mp hw)
          fun u hu => hmax u ((hcalled u).mpr hu)
        rw [hret] at hw'
        exact Option.some.inj hw'

/-- **An interrupt does what it has to exactly when the condition holds**, for every status and every
table that accepted registrations have filled. -/
theorem platform_irq_iff (behind : ℕ → IntHandler) (regs : List Registration) (irqStatus : UInt32) :
    IrqRight regs irqStatus (platformIrq (filled behind regs) irqStatus) ↔ IrqOk regs irqStatus := by
  constructor
  · intro h
    have hlow := indexed_lt_iff.mp h.inTable
    refine ⟨hlow, fun v hv => ?_, (ret_iff hlow h.called).mp h.ret⟩
    have hmem := (h.called v).symm.trans (mem_called_filled hlow)
    constructor
    · intro hset
      exact (hmem.mp ⟨hset, hv⟩).1
    · intro hle
      exact (hmem.mpr ⟨hle, hv⟩).1
  · intro h
    have hcalled : ∀ v, v ∈ (platformIrq (filled behind regs) irqStatus).called ↔
        Pending regs irqStatus v := by
      intro v
      rw [mem_called_filled h.low]
      refine and_congr_left ?_
      intro hv
      exact (h.pending v hv).symm
    exact ⟨hcalled, (pairwise_called _ _).imp Nat.ne_of_lt, indexed_lt_iff.mpr h.low,
      (ret_iff h.low hcalled).mpr h.highest⟩

end Interrupt

/-- The handlers of the timer and of the serial line. -/
def timerAndUart : List Registration :=
  [⟨2, some fun _ => .intReschedule, 0, by decide⟩, ⟨10, some fun _ => .intNoReschedule, 0, by decide⟩]

/-- An interrupt of the serial line alone calls the handler of the timer as well. -/
theorem uart_calls_timer : ¬ ∀ (behind : ℕ → IntHandler) (regs : List Registration)
    (irqStatus : UInt32), IrqRight regs irqStatus (platformIrq (filled behind regs) irqStatus) := by
  intro h
  have hmem : 2 ∈ (platformIrq (filled (fun _ => ⟨none, 0⟩) timerAndUart) 0x400).called := by decide
  have hpending := (((h _ _ _).called 2).mp hmem).1
  revert hpending
  decide

end YakOS
