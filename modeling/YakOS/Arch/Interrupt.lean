import Mathlib.Tactic.FinCases
import YakOS.Lib.Arm

/-!
# The interrupt entry

`arm_irq` of `arch/arm/arch_irq.S`, as code of the machine of `Arm`.  It saves three registers at
`irq_save_spot`, carries the return address and the saved status into supervisor mode, lays a frame on the
stack of the interrupted code, counts one critical section, calls `platform_irq`, and `task_schedule` when
that asks for it, and undoes all of it.  `task_schedule` may run any number of other tasks before it
returns to this one.

## Main definitions

* `armIrq` — the code, in three pieces: `armIrqEntry`, `armIrqCalls`, `armIrqExit`.
* `Conforms` — what the procedure call standard asks of the two functions of the kernel.
* `Interruptible` — the states in which the interrupt may come.

## Main results

* `irqEntered`, `run_calls`, `block_exit` — the three pieces.
* `armIrq_resumes` — the interrupted code does not notice.
-/

namespace YakOS

open Arm

/-- The functions of the kernel that `arm_irq` calls. -/
inductive IrqCall
  | platformIrq
  | taskSchedule
  deriving DecidableEq, Repr

/-- `arm_irq`, up to the call of `platform_irq`; `count` is the address of `critical_section_count`. -/
def armIrqEntry (count : Word) : List (Instr IrqCall) := [
  -- r4 to r6 go to irq_save_spot, so that they can carry values into supervisor mode
  .stm .sp [.r 4, .r 5, .r 6],
  .op .al .mov (.r 4) (.r 4) (.reg .sp),
  .op .al .sub (.r 5) .lr (.imm 4),
  .mrsSpsr (.r 6),
  .msrCpsr (.imm 0xd3),
  .push .sp [.r 5],
  .push .sp [.r 0, .r 1, .r 2, .r 3, .r 12, .lr],
  .push .sp [.r 6],
  .ldm (.r 4) [.r 4, .r 5, .r 6],
  .const (.r 1) count,
  .ldr (.r 0) (.r 1) 0,
  .op .al .add (.r 0) (.r 0) (.imm 1),
  .str (.r 0) (.r 1) 0,
  .op .al .mov (.r 0) (.r 0) (.reg .sp)]

/-- The calls of `arm_irq`. -/
def armIrqCalls : List (Instr IrqCall) := [
  .bl .al .platformIrq,
  .cmp .al (.r 0) (.imm 0),
  .bl .ne .taskSchedule]

/-- `arm_irq` behind the calls. -/
def armIrqExit (count : Word) : List (Instr IrqCall) := [
  .const (.r 1) count,
  .ldr (.r 0) (.r 1) 0,
  .op .al .sub (.r 0) (.r 0) (.imm 1),
  .str (.r 0) (.r 1) 0,
  .pop .sp [.r 0],
  .msrSpsr (.r 0),
  .popReturn .sp [.r 0, .r 1, .r 2, .r 3, .r 12, .lr]]

/-- `arm_irq`. -/
def armIrq (count : Word) : List (Instr IrqCall) :=
  armIrqEntry count ++ (armIrqCalls ++ armIrqExit count)

/-- The registers that a function of the kernel keeps for its caller. -/
def calleeSaved : List (Fin 13) := [4, 5, 6, 7, 8, 9, 10, 11]

/-- The words that `arm_irq` keeps on the stack of the code it interrupts. -/
def irqFrame (s : State) : List Word :=
  [s.cpsr, s.r 0, s.r 1, s.r 2, s.r 3, s.r 12, s.lr .svc, s.pc]

/-- The stack of a task: it ends at `top`, and functions can be called with a stack pointer from `low`
on. -/
structure TaskStack where
  low : ℕ
  top : ℕ

/-- Kernel code runs, in supervisor mode, on a stack. -/
structure OnStack (k : TaskStack) (s : State) : Prop where
  svc : mode s.cpsr = 0x13
  aligned : Aligned (s.sp .svc)
  low : k.low ≤ (s.sp .svc).toNat
  top : (s.sp .svc).toNat ≤ k.top

/-- The state at an instruction before which an interrupt is taken: there is room for the frame on the
stack, and neither `irq_save_spot` nor `critical_section_count` lies on it. -/
structure Interruptible (count : Word) (k : TaskStack) (s : State) : Prop extends OnStack k s where
  room : k.low + 32 ≤ (s.sp .svc).toNat
  spot_aligned : Aligned (s.sp .irq)
  spot_room : (s.sp .irq).toNat + 12 ≤ 2 ^ 32
  spot_off : (s.sp .irq).toNat + 12 ≤ k.low ∨ k.top ≤ (s.sp .irq).toNat
  count_aligned : Aligned count
  count_off : count.toNat + 4 ≤ k.low ∨ k.top ≤ count.toNat
  count_spot : count.toNat + 4 ≤ (s.sp .irq).toNat ∨ (s.sp .irq).toNat + 12 ≤ count.toNat

/-- What a function of the kernel leaves to its caller: the registers r4 to r11, the stack from the stack
pointer on, and the count of critical sections. -/
structure Keeps (count : Word) (k : TaskStack) (s t : State) : Prop where
  svc : mode t.cpsr = 0x13
  sp : t.sp .svc = s.sp .svc
  saved : ∀ n ∈ calleeSaved, t.r n = s.r n
  stack : ∀ i, (s.sp .svc).toNat ≤ i → i < k.top → t.mem i = s.mem i
  count : word t.mem count = word s.mem count

/-- A compiled function: called on a stack, it returns to its caller and keeps what it has to. -/
structure Conforms (count : Word) (k : TaskStack) (f : State → State) : Prop where
  returns : ∀ s, OnStack k s → (f s).pc = s.lr .svc
  keeps : ∀ s, OnStack k s → Keeps count k s (f s)

/-- The interrupted code goes on as if nothing had happened. -/
structure Resumed (count : Word) (k : TaskStack) (s t : State) : Prop where
  pc : t.pc = s.pc
  cpsr : t.cpsr = s.cpsr
  r : t.r = s.r
  sp : t.sp .svc = s.sp .svc
  lr : t.lr .svc = s.lr .svc
  stack : ∀ i, (s.sp .svc).toNat ≤ i → i < k.top → t.mem i = s.mem i
  count : word t.mem count = word s.mem count

/-- The state in which `arm_irq` calls `platform_irq`. -/
structure IrqEntered (count : Word) (k : TaskStack) (s t : State) : Prop where
  svc : mode t.cpsr = 0x13
  sp : t.sp .svc = s.sp .svc - 32
  frame : words t.mem (s.sp .svc - 32) 8 = irqFrame s
  saved : ∀ n ∈ calleeSaved, t.r n = s.r n
  stack : ∀ i, (s.sp .svc).toNat ≤ i → i < k.top → t.mem i = s.mem i
  count : word t.mem count = word s.mem count + 1

variable {env : IrqCall → State → State} {s t u : State} {handler count : Word} {k : TaskStack}

theorem Keeps.onStack (h : Keeps count k s t) (hs : OnStack k s) : OnStack k t :=
  ⟨h.svc, h.sp ▸ hs.aligned, h.sp ▸ hs.low, h.sp ▸ hs.top⟩

theorem Keeps.trans (h : Keeps count k s t) (h' : Keeps count k t u) : Keeps count k s u where
  svc := h'.svc
  sp := h'.sp.trans h.sp
  saved n hn := (h'.saved n hn).trans (h.saved n hn)
  stack i hi htop := (h'.stack i (h.sp ▸ hi) htop).trans (h.stack i hi htop)
  count := h'.count.trans h.count

theorem IrqEntered.onStack (h : IrqEntered count k s t) (hs : Interruptible count k s) : OnStack k t := by
  have hroom := hs.room
  have htop := hs.top
  have h32 : (s.sp .svc - 32).toNat = (s.sp .svc).toNat - 32 := toNat_sub_bytes (n := 8) (by omega)
  refine ⟨h.svc, ?_, ?_, ?_⟩ <;> rw [h.sp]
  · exact hs.aligned.sub_bytes 8
  · omega
  · omega

/-- The memory after the four stores to the stacks. -/
def irqMem (s : State) : ℕ → UInt8 :=
  storeAll (storeAll (storeAll (storeAll s.mem (s.sp .irq) [s.r 4, s.r 5, s.r 6])
    (s.sp .svc - 4) [s.pc]) (s.sp .svc - 28) [s.r 0, s.r 1, s.r 2, s.r 3, s.r 12, s.lr .svc])
    (s.sp .svc - 32) [s.cpsr]

theorem block_entry (hs : Interruptible count k s) :
    block env (armIrqEntry count) (takeIrq handler s) = some
      { r := Function.update (Function.update (Function.update (Function.update (Function.update s.r
          4 (word (irqMem s) (s.sp .irq))) 5 (word (irqMem s) (s.sp .irq + 4)))
          6 (word (irqMem s) (s.sp .irq + 4 + 4))) 1 count) 0 (s.sp .svc - 32)
        sp := Function.update s.sp .svc (s.sp .svc - 32)
        lr := Function.update s.lr .irq (s.pc + 4)
        spsr := Function.update s.spsr .irq s.cpsr
        cpsr := withControl (takeIrq handler s).cpsr 0xd3
        pc := handler + 56
        mem := store (irqMem s) count (word (irqMem s) count + 1)
        control := s.control } := by
  have hbank : bankOf (mode (takeIrq handler s).cpsr) = .irq := by rw [mode_takeIrq]; rfl
  have hmode : bankOf (mode (211#32)) = .svc := rfl
  have h4 : Aligned (s.sp .svc - 4#32) := hs.aligned.sub_bytes 1
  have h28 : Aligned (s.sp .svc - 28#32) := hs.aligned.sub_bytes 7
  have e28 : s.sp .svc - 4#32 - 24#32 = s.sp .svc - 28#32 := by bv_omega
  have e32 : s.sp .svc - 28#32 - 4#32 = s.sp .svc - 32#32 := by bv_omega
  generalize hstart : takeIrq handler s = s1 at *
  have hlr : s1.lr = Function.update s.lr .irq (s.pc + 4) := hstart ▸ rfl
  have hspsr : s1.spsr = Function.update s.spsr .irq s.cpsr := hstart ▸ rfl
  have hsp : s1.sp = s.sp := hstart ▸ rfl
  have hr : s1.r = s.r := hstart ▸ rfl
  have hm : s1.mem = s.mem := hstart ▸ rfl
  have hpc : s1.pc = handler := hstart ▸ rfl
  have hcontrol : s1.control = s.control := hstart ▸ rfl
  simp [armIrqEntry, block, execute, State.get, State.bank, State.next, State.set, Cond.holds,
    Operand.value, Op.apply, bytes, State.loadAll, hs.aligned, hs.spot_aligned, hs.count_aligned, hbank,
    hmode, h4, h28, e28, e32, hlr, hspsr, hsp, hr, hm, hpc, hcontrol, irqMem]
  refine ⟨?_, by bv_omega⟩
  funext n
  fin_cases n <;> rfl

/-- The stores of the entry keep to the save spot and the frame. -/
theorem irqMem_of_disjoint (hs : Interruptible count k s) {i : ℕ}
    (hspot : i < (s.sp .irq).toNat ∨ (s.sp .irq).toNat + 12 ≤ i)
    (hframe : i < (s.sp .svc).toNat - 32 ∨ (s.sp .svc).toNat ≤ i) : irqMem s i = s.mem i := by
  have hroom := hs.room
  have hspotRoom := hs.spot_room
  have hlt := (s.sp .svc).isLt
  have h4 : (s.sp .svc - 4).toNat = (s.sp .svc).toNat - 4 := toNat_sub_bytes (n := 1) (by omega)
  have h28 : (s.sp .svc - 28).toNat = (s.sp .svc).toNat - 28 := toNat_sub_bytes (n := 7) (by omega)
  have h32 : (s.sp .svc - 32).toNat = (s.sp .svc).toNat - 32 := toNat_sub_bytes (n := 8) (by omega)
  unfold irqMem
  rw [storeAll_of_disjoint, storeAll_of_disjoint, storeAll_of_disjoint, storeAll_of_disjoint]
  all_goals simp only [List.length_cons, List.length_nil, h4, h28, h32]; omega

/-- The frame, once it is stored. -/
theorem words_irqMem (hs : Interruptible count k s) :
    words (irqMem s) (s.sp .svc - 32) 8 = irqFrame s := by
  have hroom := hs.room
  have hlt := (s.sp .svc).isLt
  have h4 : (s.sp .svc - 4).toNat = (s.sp .svc).toNat - 4 := toNat_sub_bytes (n := 1) (by omega)
  have h28 : (s.sp .svc - 28).toNat = (s.sp .svc).toNat - 28 := toNat_sub_bytes (n := 7) (by omega)
  have h32 : (s.sp .svc - 32).toNat = (s.sp .svc).toNat - 32 := toNat_sub_bytes (n := 8) (by omega)
  have e28 : s.sp .svc - 28 + bytes [s.r 0, s.r 1, s.r 2, s.r 3, s.r 12, s.lr .svc] = s.sp .svc - 4 := by
    simp only [bytes, List.length_cons, List.length_nil]
    bv_omega
  have e32 : s.sp .svc - 32 + bytes [s.cpsr] = s.sp .svc - 28 := by
    simp only [bytes, List.length_cons, List.length_nil]
    bv_omega
  have hpc : ∀ m : ℕ → UInt8, words (storeAll m (s.sp .svc - 4) [s.pc]) (s.sp .svc - 4) 1 = [s.pc] :=
    fun m => words_storeAll m [s.pc] (by simp only [List.length_cons, List.length_nil]; omega)
  unfold irqMem
  refine words_storeAll_append [s.cpsr] (irqFrame s).tail (h32 ▸ ?_) ?_
  · simp only [irqFrame, List.length_cons, List.length_nil, List.tail_cons]
    omega
  · rw [e32]
    refine words_storeAll_append _ [s.pc] (h28 ▸ ?_) ?_
    · simp only [List.length_cons, List.length_nil]
      omega
    · rw [e28]
      exact hpc _

/-- The registers r4 to r6 come back from the save spot. -/
theorem words_spot (hs : Interruptible count k s) :
    words (irqMem s) (s.sp .irq) 3 = [s.r 4, s.r 5, s.r 6] := by
  have hroom := hs.room
  have hspotRoom := hs.spot_room
  have hspotOff := hs.spot_off
  have htop := hs.top
  have hlt := (s.sp .svc).isLt
  have h4 : (s.sp .svc - 4).toNat = (s.sp .svc).toNat - 4 := toNat_sub_bytes (n := 1) (by omega)
  have h28 : (s.sp .svc - 28).toNat = (s.sp .svc).toNat - 28 := toNat_sub_bytes (n := 7) (by omega)
  have h32 : (s.sp .svc - 32).toNat = (s.sp .svc).toNat - 32 := toNat_sub_bytes (n := 8) (by omega)
  refine Eq.trans (words_congr hspotRoom ?_) (words_storeAll s.mem [s.r 4, s.r 5, s.r 6] hspotRoom)
  intro i hi hi'
  unfold irqMem
  rw [storeAll_of_disjoint, storeAll_of_disjoint, storeAll_of_disjoint]
  all_goals simp only [List.length_cons, List.length_nil, h4, h28, h32]; omega

theorem irqEntered (env : IrqCall → State → State) (handler : Word) (hs : Interruptible count k s) :
    ∃ t, block env (armIrqEntry count) (takeIrq handler s) = some t ∧ t.pc = handler + 56 ∧
      IrqEntered count k s t := by
  have hroom := hs.room
  have hspotRoom := hs.spot_room
  have hcountOff := hs.count_off
  have hcountSpot := hs.count_spot
  have hspotOff := hs.spot_off
  have htop := hs.top
  have hlt := (s.sp .svc).isLt
  have h32 : (s.sp .svc - 32).toNat = (s.sp .svc).toNat - 32 := toNat_sub_bytes (n := 8) (by omega)
  obtain ⟨h4, h5, h6⟩ : word (irqMem s) (s.sp .irq) = s.r 4 ∧ word (irqMem s) (s.sp .irq + 4) = s.r 5 ∧
      word (irqMem s) (s.sp .irq + 4 + 4) = s.r 6 := by
    have hspot := words_spot hs
    simpa only [words, List.cons.injEq, and_true] using hspot
  have hcount : word (irqMem s) count = word s.mem count :=
    word_congr fun i hi hi' => irqMem_of_disjoint hs (by omega) (by omega)
  refine ⟨_, block_entry hs, rfl, ?_⟩
  constructor <;> dsimp only
  · rw [mode_withControl]
    rfl
  · rw [Function.update_self]
  · rw [← words_irqMem hs]
    refine words_congr (by omega) fun i hi hi' => store_of_disjoint _ _ (by omega)
  · simp only [calleeSaved, List.forall_mem_cons]
    exact ⟨h4, h5, h6, rfl, rfl, rfl, rfl, rfl, fun n hn => absurd hn List.not_mem_nil⟩
  · intro i hi hi'
    rw [store_of_disjoint _ _ (by omega), irqMem_of_disjoint hs (by omega) (by omega)]
  · rw [word_store_self, hcount]

/-- A call, from supervisor mode. -/
theorem Conforms.call {f : State → State} (hf : Conforms count k f) (ht : OnStack k t) (v : Word) :
    (f (t.set .lr v)).pc = v ∧ Keeps count k t (f (t.set .lr v)) := by
  have hbank : t.bank = .svc := by rw [State.bank, ht.svc]; rfl
  have ht' : OnStack k (t.set .lr v) := ⟨by rw [State.cpsr_set, ht.svc], ht.aligned, ht.low, ht.top⟩
  obtain ⟨hsvc, hsp, hsaved, hstack, hcount⟩ := hf.keeps _ ht'
  refine ⟨?_, hsvc, hsp, hsaved, hstack, hcount⟩
  rw [hf.returns _ ht']
  simp [State.set, hbank]

/-- The calls, from the entry on: whatever the two functions do, the frame and what the interrupted code
needs besides are still there. -/
theorem run_calls {code : Word → Option (Instr IrqCall)} (hcode : CodeAt code t.pc armIrqCalls)
    (hplatform : Conforms count k (env .platformIrq))
    (hschedule : Conforms count k (env .taskSchedule)) (ht : OnStack k t) :
    ∃ u, run code env 3 t = some u ∧ u.pc = t.pc + 12 ∧ Keeps count k t u := by
  obtain ⟨hbl, hcmp, hblne, -⟩ := hcode
  obtain ⟨hpc1, hkeep1⟩ := hplatform.call ht (t.pc + 4)
  let t1 := env .platformIrq (t.set .lr (t.pc + 4))
  have hrun1 : step code env t = some t1 := by
    rw [step_eq hbl]
    rfl
  let t2 : State := { t1 with cpsr := afterCmp t1.cpsr (t1.r 0) 0 }.next
  have hrun2 : step code env t1 = some t2 := by
    rw [step_eq (by rw [hpc1]; exact hcmp)]
    rfl
  have hpc2 : t2.pc = t.pc + 4 + 4 := congrArg (· + 4) hpc1
  have hkeep2 : Keeps count k t t2 := by
    refine hkeep1.trans ⟨?_, rfl, fun n _ => rfl, fun i _ _ => rfl, rfl⟩
    exact (mode_withFlags ..).trans hkeep1.svc
  have hstep3 : step code env t2 = execute env t2 (.bl .ne .taskSchedule) :=
    step_eq (by rw [hpc2]; exact hblne)
  have hpc3 : t2.pc + 4 = t.pc + 12 := by
    rw [hpc2]
    bv_omega
  rw [run, hrun1, Option.bind_some, run, hrun2, Option.bind_some, run, hstep3, execute]
  by_cases hz : Cond.holds t2.cpsr .ne = true
  · obtain ⟨hpc, hkeep⟩ := hschedule.call (hkeep2.onStack ht) (t2.pc + 4)
    rw [if_pos hz]
    exact ⟨_, rfl, hpc.trans hpc3, hkeep2.trans hkeep⟩
  · rw [if_neg hz]
    exact ⟨t2.next, rfl, hpc3, hkeep2.svc, hkeep2.sp, hkeep2.saved, hkeep2.stack, hkeep2.count⟩

/-- The exit, from a state in which the frame is on the stack. -/
theorem block_exit (env : IrqCall → State → State) (hu : mode u.cpsr = 0x13)
    (hsp : Aligned (u.sp .svc)) (hcount : Aligned count)
    {psr x0 x1 x2 x3 x12 lr pc : Word}
    (hframe : words (store u.mem count (word u.mem count - 1)) (u.sp .svc) 8 =
      [psr, x0, x1, x2, x3, x12, lr, pc]) :
    ∃ v, block env (armIrqExit count) u = some v ∧ v.pc = pc ∧ v.cpsr = psr ∧
      v.r = Function.update (Function.update (Function.update (Function.update (Function.update u.r
        0 x0) 1 x1) 2 x2) 3 x3) 12 x12 ∧ v.sp .svc = u.sp .svc + 32 ∧ v.lr .svc = lr ∧
      v.mem = store u.mem count (word u.mem count - 1) := by
  have hbank : bankOf (mode u.cpsr) = .svc := by rw [hu]; rfl
  have h4 : Aligned (u.sp .svc + 4#32) := hsp.add_bytes 1
  have e28 : u.sp .svc + 4#32 + 24#32 =
      u.sp .svc + 4#32 + 4#32 + 4#32 + 4#32 + 4#32 + 4#32 + 4#32 := by bv_omega
  have e32 : u.sp .svc + 4#32 + 24#32 + 4#32 = u.sp .svc + 32#32 := by bv_omega
  simp only [words, List.cons.injEq, BitVec.ofNat_eq_ofNat] at hframe
  obtain ⟨w0, w1, w2, w3, w4, w5, w6, w7, -⟩ := hframe
  simp [armIrqExit, block, execute, State.get, State.bank, State.next, State.set, Op.apply, Operand.value,
    Cond.holds, bytes, State.loadAll, hsp, hcount, hbank, h4, e32, w0, w1, w2, w3, w4, w5, w6]
  refine ⟨by rw [e28, w7], ?_⟩
  funext n
  fin_cases n <;> rfl

/-- **An interrupt is invisible to the code it interrupts**: whatever `platform_irq` and `task_schedule`
do as long as they return to their caller with its registers and its stack, the interrupted code goes on
at the instruction before which it was stopped, with all its registers, its status and its stack. -/
theorem armIrq_resumes {code : Word → Option (Instr IrqCall)}
    (hcode : CodeAt code handler (armIrq count)) (hplatform : Conforms count k (env .platformIrq))
    (hschedule : Conforms count k (env .taskSchedule)) (hs : Interruptible count k s) :
    ∃ t, run code env 24 (takeIrq handler s) = some t ∧ Resumed count k s t := by
  have hroom := hs.room
  have htop := hs.top
  have hcountOff := hs.count_off
  have hlt := (s.sp .svc).isLt
  have h32 : (s.sp .svc - 32).toNat = (s.sp .svc).toNat - 32 := toNat_sub_bytes (n := 8) (by omega)
  rw [armIrq, codeAt_append, codeAt_append] at hcode
  obtain ⟨hentry, hcalls, hexit⟩ := hcode
  obtain ⟨t, ht, hpc, hin⟩ := irqEntered env handler hs
  have hrun1 : run code env 14 (takeIrq handler s) = some t := by
    rw [← ht]
    exact run_block (armIrqEntry count) (by simp [armIrqEntry, Instr.plain]) hentry
  have hpc1 : t.pc = handler + bytes (armIrqEntry count) := hpc
  obtain ⟨u, hrun2, hpc2, hkeep⟩ := run_calls (hpc1 ▸ hcalls) hplatform hschedule
    (hin.onStack hs)
  have hsp : u.sp .svc = s.sp .svc - 32 := hkeep.sp.trans hin.sp
  have hframe : words (store u.mem count (word u.mem count - 1)) (u.sp .svc) 8 = irqFrame s := by
    rw [← hin.frame, hsp]
    refine words_congr (by omega) ?_
    intro i hi hi'
    rw [store_of_disjoint _ _ (by omega)]
    exact hkeep.stack i (by rw [hin.sp]; exact hi) (by omega)
  obtain ⟨v, hv, hvpc, hvcpsr, hvr, hvsp, hvlr, hvmem⟩ := block_exit env hkeep.svc
    (hsp ▸ hs.aligned.sub_bytes 8) hs.count_aligned hframe
  have hpc3 : u.pc = handler + bytes (armIrqEntry count) + bytes armIrqCalls := hpc2.trans (hpc1 ▸ rfl)
  have hrun3 : run code env 7 u = some v := by
    rw [← hv]
    exact run_block (armIrqExit count) (by simp [armIrqExit, Instr.plain]) (hpc3 ▸ hexit)
  refine ⟨v, ?_, hvpc, hvcpsr, ?_, ?_, hvlr, ?_, ?_⟩
  · rw [show 24 = 14 + (3 + 7) from rfl, run_add, hrun1, Option.bind_some, run_add, hrun2,
      Option.bind_some, hrun3]
  · have hsaved : ∀ n ∈ calleeSaved, u.r n = s.r n :=
      fun n hn => (hkeep.saved n hn).trans (hin.saved n hn)
    simp only [calleeSaved, List.forall_mem_cons] at hsaved
    obtain ⟨h4, h5, h6, h7, h8, h9, h10, h11, -⟩ := hsaved
    rw [hvr]
    funext n
    fin_cases n <;> first | rfl | assumption
  · rw [hvsp, hsp]
    bv_omega
  · intro i hi hi'
    rw [hvmem, store_of_disjoint _ _ (by omega), hkeep.stack i (by rw [hin.sp]; omega) hi', hin.stack i hi hi']
  · rw [hvmem, word_store_self, hkeep.count, hin.count, BitVec.add_sub_cancel]

/-- A tick that asks for a reschedule, and a scheduler that picks the same task again. -/
def tickEnv : IrqCall → State → State
  | .platformIrq, s => { s with r := Function.update s.r 0 1, pc := s.lr .svc }
  | .taskSchedule, s => { s with r := Function.update s.r 2 5, pc := s.lr .svc }

theorem tickEnv_conforms (f : IrqCall) : Conforms 0x200 ⟨0x1000, 0x2000⟩ (tickEnv f) := by
  cases f
  all_goals
    refine ⟨fun s _ => rfl, fun s hs => ⟨hs.svc, rfl, fun n hn => ?_, fun i _ _ => rfl, rfl⟩⟩
    refine Function.update_of_ne ?_ ..
    rintro rfl
    revert hn
    decide

/-- Kernel code before a tick. -/
def beforeTick : State where
  r := fun n => BitVec.ofNat 32 n
  sp := fun b => if b = .svc then 0x1f00 else 0x100
  lr := fun _ => 0xa000
  spsr := fun _ => 0
  cpsr := 0x13
  pc := 0x9000
  mem := fun _ => 0

theorem beforeTick_interruptible : Interruptible 0x200 ⟨0x1000, 0x2000⟩ beforeTick := by
  refine { svc := ?_, aligned := ?_, low := ?_, top := ?_, room := ?_, spot_aligned := ?_, spot_room := ?_,
           spot_off := ?_, count_aligned := ?_, count_off := ?_, count_spot := ?_ } <;> decide

theorem armIrq_resumes_tick : ∃ t, run (codeOf 0x8000 (armIrq 0x200)) tickEnv 24
    (takeIrq 0x8000 beforeTick) = some t ∧ Resumed 0x200 ⟨0x1000, 0x2000⟩ beforeTick t :=
  armIrq_resumes (codeAt_codeOf 0x8000 (armIrq 0x200) (by decide)) (tickEnv_conforms .platformIrq)
    (tickEnv_conforms .taskSchedule) beforeTick_interruptible

end YakOS
