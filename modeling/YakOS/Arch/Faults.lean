import YakOS.Lib.Arm

/-!
# Exceptions

The entries of the four fatal exceptions and `arm_save_mode_regs` of `arch/arm/arch_irq.S`, as code of the
machine of `Arm`, and what `arch/arm/faults.c` reads off the frame that they build.  An entry runs on the
stack of its own mode and stores the registers in the order of `struct arm_fault_frame`;
`arm_save_mode_regs` goes through all modes and back.

The texts that `dump_fault_frame` prints are not here, nor is the dump of the stack itself.

## Main definitions

* `Fault`, `takeFault` — the exceptions, and what the processor does when it takes one.
* `saveRegs`, `faultEntry`, `armSaveModeRegs` — the code.
* `FaultFrame`, `exceptionDie` — the frame, as the handlers find it.

## Main results

* `fault_reported` — the frame is the state in which the exception was taken.
* `armSaveModeRegs_stores` — the banks of all modes are stored, and the mode comes back.
-/

namespace YakOS

open Arm

/-! ### The entries -/

/-- The exceptions that end in `exception_die`. -/
inductive Fault
  | undefined
  | syscall
  | prefetchAbort
  | dataAbort
  deriving DecidableEq, Repr

/-- The mode an exception is taken to. -/
def Fault.mode : Fault → Word
  | .undefined => 0x1b
  | .syscall => 0x13
  | .prefetchAbort => 0x17
  | .dataAbort => 0x17

/-- The registers of that mode. -/
def Fault.bank : Fault → Bank
  | .undefined => .und
  | .syscall => .svc
  | .prefetchAbort => .abt
  | .dataAbort => .abt

/-- How far the link register is ahead of the instruction. -/
def Fault.ahead : Fault → Word
  | .undefined => 4
  | .syscall => 4
  | .prefetchAbort => 4
  | .dataAbort => 8

/-- What the processor does when an exception is taken at the current instruction. -/
def takeFault (f : Fault) (vector : Word) (s : State) : State :=
  { s with
    lr := Function.update s.lr f.bank (s.pc + f.ahead)
    spsr := Function.update s.spsr f.bank s.cpsr
    cpsr := withControl s.cpsr ((s.cpsr &&& 0x40) ||| 0x80 ||| f.mode)
    pc := vector }

/-- The registers r0 to r12. -/
def generalRegs : List Reg :=
  [.r 0, .r 1, .r 2, .r 3, .r 4, .r 5, .r 6, .r 7, .r 8, .r 9, .r 10, .r 11, .r 12]

/-- The macro `save_regs`. -/
def saveRegs : List (Instr Empty) := [
  .push .sp (generalRegs ++ [.lr]),
  .op .al .sub .sp .sp (.imm 12),
  .op .al .mov (.r 0) (.r 0) (.reg .sp),
  .mrsSpsr (.r 1),
  .stmUser (.r 0) [.r 1, .sp, .lr]]

/-- The entries `undefined`, `syscall`, `prefetch_abort` and `data_abort`. -/
def faultEntry (handler : Word) : List (Instr Empty) := saveRegs ++ [.b .al handler]

/-- `struct arm_fault_frame`. -/
structure FaultFrame where
  spsr : Word
  usp : Word
  ulr : Word
  r : List Word
  pc : Word
  deriving DecidableEq, Repr

/-- The frame at an address. -/
def faultFrame (m : ℕ → UInt8) (frame : Word) : FaultFrame where
  spsr := word m frame
  usp := word m (frame + 4)
  ulr := word m (frame + 8)
  r := words m (frame + 12) 13
  pc := word m (frame + 64)

/-- The offset that the handler of an exception gives to `exception_die`. -/
def Fault.pcOff : Fault → Word
  | .undefined => -4
  | .syscall => -4
  | .dataAbort => -8
  | .prefetchAbort => -4

/-- `exception_die`, up to the dump: the frame that is printed. -/
def exceptionDie (m : ℕ → UInt8) (frame : Word) (pcOff : Word) : FaultFrame :=
  { faultFrame m frame with pc := (faultFrame m frame).pc + pcOff }

/-- The stack that `faultEntry` needs. -/
structure FaultRoom (f : Fault) (s : State) : Prop where
  aligned : Aligned (s.sp f.bank)
  room : 68 ≤ (s.sp f.bank).toNat

variable {code : Word → Option (Instr Empty)} {env : Empty → State → State} {f : Fault} {s t : State}
  {vector handler : Word}

theorem bankOf_mode_takeFault (f : Fault) (vector : Word) (s : State) :
    bankOf (mode (takeFault f vector s).cpsr) = f.bank := by
  have hmode : mode (takeFault f vector s).cpsr = f.mode.extractLsb' 0 5 := by
    rw [takeFault, mode_withControl]
    unfold mode
    ext i hi
    rcases (by omega : i = 0 ∨ i = 1 ∨ i = 2 ∨ i = 3 ∨ i = 4) with rfl | rfl | rfl | rfl | rfl <;> simp
  rw [hmode]
  cases f <;> rfl

/-- The state when `arm_undefined_handler`, and so on, begins. -/
theorem block_fault (env : Empty → State → State) (vector handler : Word) (hs : FaultRoom f s) :
    ∃ t, block env (faultEntry handler) (takeFault f vector s) = some t ∧ t.pc = handler ∧
      t.r 0 = s.sp f.bank - 68 ∧ t.sp f.bank = s.sp f.bank - 68 ∧ mode t.cpsr = mode (takeFault f vector s).cpsr ∧
      t.mem = storeAll (storeAll s.mem (s.sp f.bank - 56) (generalRegs.map s.get ++ [s.pc + f.ahead]))
        (s.sp f.bank - 68) [s.cpsr, s.sp .usr, s.lr .usr] := by
  have hbank := bankOf_mode_takeFault f vector s
  have h68 : Aligned (s.sp f.bank - 68#32) := hs.aligned.sub_bytes 17
  have e68 : s.sp f.bank - 56#32 - 12#32 = s.sp f.bank - 68#32 := by bv_omega
  have husr : Bank.usr ≠ f.bank := by cases f <;> decide
  generalize hstart : takeFault f vector s = s1 at *
  have hlr : s1.lr = Function.update s.lr f.bank (s.pc + f.ahead) := hstart ▸ rfl
  have hspsr : s1.spsr = Function.update s.spsr f.bank s.cpsr := hstart ▸ rfl
  have hsp : s1.sp = s.sp := hstart ▸ rfl
  have hr : s1.r = s.r := hstart ▸ rfl
  have hm : s1.mem = s.mem := hstart ▸ rfl
  simp [faultEntry, saveRegs, generalRegs, block, execute, State.get, State.getUser, State.bank, State.next,
    State.set, Cond.holds, Operand.value, Op.apply, bytes, hs.aligned, hbank, hlr, hspsr, hsp, hr, hm, h68,
    e68, husr]

/-- A frame, from the words it consists of. -/
theorem faultFrame_of_words {m : ℕ → UInt8} {a psr usp ulr pc : Word} {rs : List Word} (hrs : rs.length = 13)
    (h : words m a 17 = [psr, usp, ulr] ++ (rs ++ [pc])) :
    faultFrame m a = { spsr := psr, usp := usp, ulr := ulr, r := rs, pc := pc } := by
  rw [show 17 = 3 + (13 + 1) from rfl, words_append, words_append] at h
  obtain ⟨hhead, hrest⟩ := List.append_inj h (by simp)
  obtain ⟨hregs, hlast⟩ := List.append_inj hrest (by simp [hrs])
  simp only [words, List.cons.injEq, and_true] at hhead hlast
  obtain ⟨h0, h4, h8⟩ := hhead
  have e8 : a + 8 = a + 4 + 4 := by bv_omega
  have e12 : a + 12 = a + BitVec.ofNat 32 (4 * 3) := rfl
  have e64 : a + 64 = a + BitVec.ofNat 32 (4 * 3) + BitVec.ofNat 32 (4 * 13) := by bv_omega
  rw [faultFrame, e8, e12, e64, h0, h4, h8, hregs, hlast]

/-- **The frame is the state in which the exception was taken**: the program counter that is printed is
the address of the instruction, whichever of the four exceptions it is. -/
theorem fault_reported (hcode : CodeAt code vector (faultEntry handler)) (hs : FaultRoom f s) :
    ∃ t, run code env 6 (takeFault f vector s) = some t ∧ t.pc = handler ∧
      mode t.cpsr = mode (takeFault f vector s).cpsr ∧ t.sp f.bank = t.r 0 ∧
      exceptionDie t.mem (t.r 0) f.pcOff =
        { spsr := s.cpsr, usp := s.sp .usr, ulr := s.lr .usr, r := generalRegs.map s.get, pc := s.pc } ∧
      ∀ i, (i < (s.sp f.bank).toNat - 68 ∨ (s.sp f.bank).toNat ≤ i) → t.mem i = s.mem i := by
  have hroom := hs.room
  have hlt := (s.sp f.bank).isLt
  have h56 : (s.sp f.bank - 56).toNat = (s.sp f.bank).toNat - 56 := toNat_sub_bytes (n := 14) (by omega)
  have h68 : (s.sp f.bank - 68).toNat = (s.sp f.bank).toNat - 68 := toNat_sub_bytes (n := 17) (by omega)
  have e56 : s.sp f.bank - 68 + bytes [s.cpsr, s.sp .usr, s.lr .usr] = s.sp f.bank - 56 := by
    simp only [bytes, List.length_cons, List.length_nil]
    bv_omega
  obtain ⟨t, ht, hpc, hr0, hsp, hmode, hmem⟩ := block_fault env vector handler hs
  have hrun : run code env 6 (takeFault f vector s) = some t := by
    rw [← ht]
    exact run_block (faultEntry handler) (by simp [faultEntry, saveRegs, Instr.plain]) hcode
  have hframe : words t.mem (s.sp f.bank - 68) 17 =
      [s.cpsr, s.sp .usr, s.lr .usr] ++ (generalRegs.map s.get ++ [s.pc + f.ahead]) := by
    rw [hmem]
    refine words_storeAll_append _ (generalRegs.map s.get ++ [s.pc + f.ahead]) ?_ ?_
    · rw [h68]
      simp only [generalRegs, List.map_cons, List.map_nil, List.length_append, List.length_cons, List.length_nil]
      omega
    · rw [e56]
      exact words_storeAll s.mem _ (by rw [h56]; simp [generalRegs]; omega)
  refine ⟨t, hrun, hpc, hmode, hsp.trans hr0.symm, ?_, fun i hi => ?_⟩
  · rw [hr0, exceptionDie, faultFrame_of_words rfl hframe]
    have hback : s.pc + f.ahead + f.pcOff = s.pc := by
      cases f <;> simp only [Fault.ahead, Fault.pcOff] <;> bv_omega
    rw [hback]
  · rw [hmem, storeAll_of_disjoint, storeAll_of_disjoint]
    all_goals
      simp only [h56, h68, generalRegs, List.map_cons, List.map_nil, List.length_append, List.length_cons,
        List.length_nil]
      omega

/-! ### The banks of all modes -/

/-- `arm_save_mode_regs`, for one mode. -/
def saveModeRegs (md : Word) : List (Instr Empty) := [
  .op .al .orr (.r 3) (.r 2) (.imm md),
  .msrCpsr (.reg (.r 3)),
  .str .sp (.r 0) 4,
  .str .lr (.r 0) 4]

/-- The modes in the order of `struct arm_mode_regs`: fiq, irq, svc, abt, und and sys. -/
def savedModes : List Word := [0x11, 0x12, 0x13, 0x17, 0x1b, 0x1f]

/-- `arm_save_mode_regs`. -/
def armSaveModeRegs : List (Instr Empty) :=
  [.mrsCpsr (.r 1), .op .al .bic (.r 2) (.r 1) (.imm 0x1f)] ++
    (savedModes.flatMap saveModeRegs ++ [.msrCpsr (.reg (.r 1)), .bx .lr])

/-- The words that are stored for some modes. -/
def modeRegs (s : State) (mds : List Word) : List Word :=
  mds.flatMap fun md => [s.sp (bankOf (mode md)), s.lr (bankOf (mode md))]

/-- The machine in `arm_save_mode_regs`, called in the state `s`, when `vs` have been stored. -/
structure Storing (s t : State) (vs : List Word) : Prop where
  r0 : t.r 0 = s.r 0 + bytes vs
  r1 : t.r 1 = s.cpsr
  r2 : t.r 2 = s.cpsr &&& ~~~0x1f
  r : ∀ n, 3 < n → t.r n = s.r n
  sp : t.sp = s.sp
  lr : t.lr = s.lr
  spsr : t.spsr = s.spsr
  cpsr : t.cpsr.extractLsb' 8 24 = s.cpsr.extractLsb' 8 24
  mem : t.mem = storeAll s.mem (s.r 0) vs

/-- One mode. -/
theorem Storing.save {vs : List Word} (env : Empty → State → State) (h : Storing s t vs)
    (ha : Aligned (t.r 0)) (md : Word) :
    ∃ u, block env (saveModeRegs md) t = some u ∧ Aligned (u.r 0) ∧
      Storing s u (vs ++ [s.sp (bankOf (mode md)), s.lr (bankOf (mode md))]) := by
  have h4 : Aligned (t.r 0 + 4#32) := ha.add_bytes 1
  have h8 : Aligned (t.r 0 + 4#32 + 4#32) := h4.add_bytes 1
  have hmode : mode ((s.cpsr &&& 4294967264#32) ||| md) = mode md := mode_select s.cpsr md
  have e8 : s.r 0 + bytes vs + 8#32 = s.r 0 + bytes vs + 4#32 + 4#32 := by bv_omega
  simp [saveModeRegs, block, execute, State.get, State.bank, State.next, State.set, Cond.holds, Operand.value,
    Op.apply, h.r2, ha, h4, h8, hmode]
  refine ⟨?_, h.r1, h.r2, fun n hn => ?_, h.sp, h.lr, h.spsr, (high_withControl ..).trans h.cpsr, ?_⟩
  · rw [bytes_append, ← BitVec.add_assoc, h.r0]
    exact e8.symm
  · have h0 : n ≠ 0 := by
      rintro rfl
      exact absurd hn (by decide)
    simp only [Function.update_of_ne (ne_of_gt hn), Function.update_of_ne h0]
    exact h.r n hn
  · rw [storeAll_append, h.mem, h.r0, h.sp, h.lr]
    rfl

/-- All modes, one after the other. -/
theorem Storing.saveAll {vs : List Word} (env : Empty → State → State) (h : Storing s t vs)
    (ha : Aligned (t.r 0)) (mds : List Word) :
    ∃ u, block env (mds.flatMap saveModeRegs) t = some u ∧ Storing s u (vs ++ modeRegs s mds) := by
  induction mds generalizing t vs with
  | nil => exact ⟨t, rfl, by rwa [modeRegs, List.flatMap_nil, List.append_nil]⟩
  | cons md mds ih =>
    obtain ⟨u, hu, hua, hstore⟩ := h.save env ha md
    obtain ⟨v, hv, hstore'⟩ := ih hstore hua
    refine ⟨v, ?_, ?_⟩
    · rw [List.flatMap_cons, block_append, hu, Option.bind_some, hv]
    · rwa [List.append_assoc] at hstore'

/-- The first two instructions. -/
theorem storing_start (env : Empty → State → State) (s : State) :
    ∃ t, block env [.mrsCpsr (.r 1), .op .al .bic (.r 2) (.r 1) (.imm 0x1f)] s = some t ∧ t.r 0 = s.r 0 ∧
      Storing s t [] := by
  refine ⟨_, rfl, rfl, ?_, rfl, rfl, fun n hn => ?_, rfl, rfl, rfl, rfl, rfl⟩
  · exact (BitVec.add_zero _).symm
  · have h1 : n ≠ 1 := by
      rintro rfl
      exact absurd hn (by decide)
    have h2 : n ≠ 2 := by
      rintro rfl
      exact absurd hn (by decide)
    exact (Function.update_of_ne h2 ..).trans (Function.update_of_ne h1 ..)

/-- The last two: the status comes back, and with it the mode. -/
theorem Storing.back {vs : List Word} (h : Storing s t vs) (hlr : Aligned (s.get .lr)) :
    block env [.msrCpsr (.reg (.r 1)), .bx .lr] t = some { t with cpsr := s.cpsr, pc := s.get .lr } := by
  have hpsr : withControl t.cpsr s.cpsr = s.cpsr := withControl_of_high h.cpsr
  have hlr' : Aligned (s.lr (bankOf (mode s.cpsr))) := hlr
  simp [block, execute, State.next, Operand.value, State.bank, h.r1, h.lr, hpsr, hlr']

/-- **`arm_save_mode_regs` goes through all modes and comes back**: it stores the stack pointer and the
link register of each mode, in the order of `struct arm_mode_regs`, and returns to its caller in the mode
and with the status it was called in. -/
theorem armSaveModeRegs_stores (hcode : CodeAt code s.pc armSaveModeRegs) (ha : Aligned (s.r 0))
    (hroom : (s.r 0).toNat + 48 ≤ 2 ^ 32) (hlr : Aligned (s.get .lr)) :
    ∃ t, run code env 28 s = some t ∧ t.pc = s.get .lr ∧ t.cpsr = s.cpsr ∧ t.sp = s.sp ∧ t.lr = s.lr ∧
      t.spsr = s.spsr ∧ (∀ n, 3 < n → t.r n = s.r n) ∧
      words t.mem (s.r 0) 12 = modeRegs s savedModes ∧
      ∀ i, (i < (s.r 0).toNat ∨ (s.r 0).toNat + 48 ≤ i) → t.mem i = s.mem i := by
  have hlen : (modeRegs s savedModes).length = 12 := rfl
  obtain ⟨t, ht, htr0, hstart⟩ := storing_start env s
  obtain ⟨u, hu, hstored⟩ := hstart.saveAll env (htr0 ▸ ha) savedModes
  rw [List.nil_append] at hstored
  have hrun : run code env armSaveModeRegs.length s = some { u with cpsr := s.cpsr, pc := s.get .lr } := by
    rw [run_block armSaveModeRegs ?_ hcode, armSaveModeRegs, block_append, ht, Option.bind_some,
      block_append, hu, Option.bind_some, hstored.back hlr]
    simp [armSaveModeRegs, savedModes, saveModeRegs, Instr.plain]
  refine ⟨_, hrun, rfl, rfl, hstored.sp, hstored.lr, hstored.spsr, hstored.r, ?_, fun i hi => ?_⟩
  · have hwords := words_storeAll (a := s.r 0) s.mem (modeRegs s savedModes) (by rw [hlen]; omega)
    rw [← hstored.mem] at hwords
    exact hwords
  · refine (congrFun hstored.mem i).trans (storeAll_of_disjoint _ ?_ ?_) <;> rw [hlen] <;> omega

/-! ### A fault of kernel code -/

/-- Kernel code before a fault. -/
def beforeFault : State where
  r := fun n => BitVec.ofNat 32 n
  sp := fun b => if b = .svc then 0x2000 else 0x1000
  lr := fun _ => 0xa000
  spsr := fun _ => 0
  cpsr := 0x13
  pc := 0x9000
  mem := fun _ => 0

theorem fault_reported_undefined : ∃ t, run (codeOf 0x8000 (faultEntry 0x8800)) (fun e => e.elim) 6
    (takeFault .undefined 0x8000 beforeFault) = some t ∧ t.pc = 0x8800 ∧
      mode t.cpsr = mode (takeFault .undefined 0x8000 beforeFault).cpsr ∧ t.sp .und = t.r 0 ∧
      exceptionDie t.mem (t.r 0) (-4) = { spsr := 0x13, usp := 0x1000, ulr := 0xa000,
                                          r := generalRegs.map beforeFault.get, pc := 0x9000 } ∧
      ∀ i, (i < (beforeFault.sp .und).toNat - 68 ∨ (beforeFault.sp .und).toNat ≤ i) →
        t.mem i = beforeFault.mem i :=
  fault_reported (codeAt_codeOf 0x8000 (faultEntry 0x8800) (by decide)) ⟨by decide, by decide⟩

theorem armSaveModeRegs_stores_fault : ∃ t, run (codeOf 0x9000 armSaveModeRegs) (fun e => e.elim) 28
    { beforeFault with r := fun _ => 0x100 } = some t ∧ t.pc = 0xa000 ∧ t.cpsr = 0x13 ∧
      t.sp = beforeFault.sp ∧ t.lr = beforeFault.lr ∧ t.spsr = beforeFault.spsr ∧
      (∀ n, 3 < n → t.r n = 0x100) ∧
      words t.mem 0x100 12 = modeRegs { beforeFault with r := fun _ => 0x100 } savedModes ∧
      ∀ i, (i < 0x100 ∨ 0x100 + 48 ≤ i) → t.mem i = 0 :=
  armSaveModeRegs_stores (s := { beforeFault with r := fun _ => 0x100 })
    (codeAt_codeOf 0x9000 armSaveModeRegs (by decide)) (by decide) (by decide) (by decide)

end YakOS
