import Mathlib.Data.BitVec
import Mathlib.Data.Fintype.Basic
import Mathlib.Logic.Function.Basic
import YakOS.Lib.Bytes

/-!
# A fragment of the ARM instruction set

Registers with their banks, a byte-addressed memory, and the instructions that hand-written kernel code
is made of: data processing with an immediate or a register, comparisons, conditional execution, status
register transfers, single and block transfers, branches.  Word accesses have to be aligned.  A call
leads to a function of `env`, which takes the state at its entry to the state in which it returns.

Of the system control coprocessor only the control register is here.

Not in the fragment: shifted operands, Thumb code, and the registers r8 to r12 of fast interrupts.

## Main definitions

* `State`, `State.get`, `State.set` — the machine and its registers, seen from the current mode.
* `Instr`, `execute` — the instructions and what they do; `none` stands for an unaligned access.
* `step`, `run`, `RunsTo` — execution of code that lies at addresses.
* `block` — execution of a list of instructions in their order.
* `takeIrq` — what the processor does when it takes an interrupt.

## Main results

* `words_storeAll`, `storeAll_of_disjoint` — consecutive words are read back, and nothing else changes.
* `run_block` — code of which only the last instruction branches is executed as the list of its
  instructions.
* `codeAt_codeOf` — a program lies where it is put.
-/

namespace Arm

/-- A machine word. -/
abbrev Word := BitVec 32

/-- The banks of the stack pointer, the link register and the saved status. -/
inductive Bank
  | usr
  | fiq
  | irq
  | svc
  | abt
  | und
  deriving DecidableEq, Repr

/-- A number names a general register. -/
instance generalRegs_neZero : NeZero 13 := ⟨by decide⟩

/-- The general registers. -/
inductive Reg
  | r (n : Fin 13)
  | sp
  | lr
  deriving DecidableEq, Repr

/-- The bank that the mode bits of a status register select.  System mode has the registers of user
mode; the code is never in one of the reserved modes. -/
def bankOf (mode : BitVec 5) : Bank :=
  if mode = 0x11 then .fiq else if mode = 0x12 then .irq else if mode = 0x13 then .svc
  else if mode = 0x17 then .abt else if mode = 0x1b then .und else .usr

/-- The mode bits of a status register. -/
def mode (psr : Word) : BitVec 5 := psr.extractLsb' 0 5

/-- The `Z` flag. -/
def zero (psr : Word) : Bool := psr.getLsbD 30

/-- The `N` flag differs from the `V` flag: less than, as signed numbers. -/
def less (psr : Word) : Bool := psr.getLsbD 31 != psr.getLsbD 28

/-- A status register with its control byte taken from `v`. -/
def withControl (psr v : Word) : Word := psr.extractLsb' 8 24 ++ v.extractLsb' 0 8

/-- A status register with other flags. -/
def withFlags (psr : Word) (n z c v : Bool) : Word :=
  BitVec.ofBool n ++ BitVec.ofBool z ++ BitVec.ofBool c ++ BitVec.ofBool v ++ psr.extractLsb' 0 28

/-! ### Words in memory -/

/-- Words lie at multiples of four. -/
def Aligned (a : Word) : Prop := a.toNat % 4 = 0

instance (a : Word) : Decidable (Aligned a) := inferInstanceAs (Decidable (a.toNat % 4 = 0))

/-- The word at an address. -/
def word (m : ℕ → UInt8) (a : Word) : Word := BitVec.ofNat 32 (Bytes.u32 m a.toNat)

/-- Store a word. -/
def store (m : ℕ → UInt8) (a v : Word) : ℕ → UInt8 := Bytes.write m a.toNat (Bytes.le32 v.toNat)

/-- The number of bytes of a list of words. -/
def bytes {α : Type*} (rs : List α) : Word := BitVec.ofNat 32 (4 * rs.length)

/-- `n` consecutive words. -/
def words (m : ℕ → UInt8) (a : Word) : ℕ → List Word
  | 0 => []
  | n + 1 => word m a :: words m (a + 4) n

/-- Store values into consecutive words. -/
def storeAll (m : ℕ → UInt8) (a : Word) : List Word → ℕ → UInt8
  | [] => m
  | v :: vs => storeAll (store m a v) (a + 4) vs

/-! ### The machine -/

/-- The state of the machine. -/
structure State where
  r : Fin 13 → Word
  sp : Bank → Word
  lr : Bank → Word
  spsr : Bank → Word
  cpsr : Word
  pc : Word
  mem : ℕ → UInt8
  /-- The control register of coprocessor 15. -/
  control : Word := 0

namespace State

variable (s : State)

/-- The bank of the current mode. -/
def bank : Bank := bankOf (mode s.cpsr)

/-- A register, as the current mode sees it. -/
def get : Reg → Word
  | .r n => s.r n
  | .sp => s.sp s.bank
  | .lr => s.lr s.bank

/-- Write a register, as the current mode sees it. -/
def set (s : State) : Reg → Word → State
  | .r n, v => { s with r := Function.update s.r n v }
  | .sp, v => { s with sp := Function.update s.sp s.bank v }
  | .lr, v => { s with lr := Function.update s.lr s.bank v }

/-- A register of user mode. -/
def getUser : Reg → Word
  | .r n => s.r n
  | .sp => s.sp .usr
  | .lr => s.lr .usr

/-- The next instruction. -/
def next : State := { s with pc := s.pc + 4 }

/-- Write registers, with the words from an address on. -/
def loadAll (s : State) (a : Word) : List Reg → State
  | [] => s
  | rd :: rds => loadAll (s.set rd (word s.mem a)) (a + 4) rds

end State

/-- An operand. -/
inductive Operand
  | imm (v : Word)
  | reg (r : Reg)
  deriving DecidableEq, Repr

/-- The conditions. -/
inductive Cond
  | al
  | eq
  | ne
  | lt
  deriving DecidableEq, Repr

/-- Data processing. -/
inductive Op
  | mov
  | add
  | sub
  | and
  | orr
  | bic
  deriving DecidableEq, Repr

/-- The instructions, with functions of type `ι` to call. -/
inductive Instr (ι : Type*)
  /-- Data processing; `mov` ignores its first operand. -/
  | op (c : Cond) (o : Op) (rd rn : Reg) (x : Operand)
  | cmp (c : Cond) (rn : Reg) (x : Operand)
  | teq (c : Cond) (rn : Reg) (x : Operand)
  /-- `ldr rd, =v`. -/
  | const (rd : Reg) (v : Word)
  | mrsCpsr (rd : Reg)
  | mrsSpsr (rd : Reg)
  /-- `msr cpsr_c, x`. -/
  | msrCpsr (x : Operand)
  /-- `msr spsr_cxsf, rn`. -/
  | msrSpsr (rn : Reg)
  /-- `mrc p15, 0, rd, c1, c0, 0`. -/
  | mrcControl (rd : Reg)
  /-- `mcr p15, 0, rn, c1, c0, 0`. -/
  | mcrControl (rn : Reg)
  /-- `ldr rd, [rn], #post`, and so on. -/
  | ldr (rd rn : Reg) (post : Word)
  | ldrb (rd rn : Reg) (post : Word)
  | str (rd rn : Reg) (post : Word)
  /-- `str<c> rd, [rn], #post`. -/
  | strIf (c : Cond) (rd rn : Reg) (post : Word)
  /-- `stmfd rn!, { rs }`. -/
  | push (rn : Reg) (rs : List Reg)
  /-- `ldmfd rn!, { rs }`. -/
  | pop (rn : Reg) (rs : List Reg)
  /-- `stmia rn, { rs }`. -/
  | stm (rn : Reg) (rs : List Reg)
  /-- `stmia rn, { rs }^`: the registers of user mode. -/
  | stmUser (rn : Reg) (rs : List Reg)
  /-- `ldmia rn, { rs }`. -/
  | ldm (rn : Reg) (rs : List Reg)
  /-- `ldmfd rn!, { rs, pc }^`: return from an exception. -/
  | popReturn (rn : Reg) (rs : List Reg)
  | b (c : Cond) (target : Word)
  | bl (c : Cond) (f : ι)
  /-- `bx rm` and `mov pc, rm`. -/
  | bx (rm : Reg)
  deriving Repr

variable {ι : Type*}

/-- Whether a condition holds. -/
def Cond.holds (psr : Word) : Cond → Bool
  | .al => true
  | .eq => zero psr
  | .ne => !zero psr
  | .lt => less psr

/-- The value of an operand. -/
def Operand.value (s : State) : Operand → Word
  | .imm v => v
  | .reg r => s.get r

/-- What data processing computes. -/
def Op.apply : Op → Word → Word → Word
  | .mov, _, y => y
  | .add, x, y => x + y
  | .sub, x, y => x - y
  | .and, x, y => x &&& y
  | .orr, x, y => x ||| y
  | .bic, x, y => x &&& ~~~y

/-- The status after a comparison `x - y`. -/
def afterCmp (psr x y : Word) : Word :=
  withFlags psr (x - y).msb (x == y) (y.ule x) ((x.msb != y.msb) && ((x - y).msb != x.msb))

/-- The status after a test for equality: the carry and the overflow flag stay. -/
def afterTeq (psr x y : Word) : Word :=
  withFlags psr (x ^^^ y).msb (x == y) (psr.getLsbD 29) (psr.getLsbD 28)

/-- Execute one instruction. -/
def execute (env : ι → State → State) (s : State) : Instr ι → Option State
  | .op c o rd rn x =>
    if c.holds s.cpsr then some (s.set rd (o.apply (s.get rn) (x.value s))).next else some s.next
  | .cmp c rn x =>
    if c.holds s.cpsr then
      some { s with cpsr := afterCmp s.cpsr (s.get rn) (x.value s) }.next
    else some s.next
  | .teq c rn x =>
    if c.holds s.cpsr then
      some { s with cpsr := afterTeq s.cpsr (s.get rn) (x.value s) }.next
    else some s.next
  | .const rd v => some (s.set rd v).next
  | .mrsCpsr rd => some (s.set rd s.cpsr).next
  | .mrsSpsr rd => some (s.set rd (s.spsr s.bank)).next
  | .msrCpsr x => some { s with cpsr := withControl s.cpsr (x.value s) }.next
  | .mrcControl rd => some (s.set rd s.control).next
  | .mcrControl rn => some { s with control := s.get rn }.next
  | .msrSpsr rn => some { s with spsr := Function.update s.spsr s.bank (s.get rn) }.next
  | .ldr rd rn post =>
    if Aligned (s.get rn) then
      some ((s.set rn (s.get rn + post)).set rd (word s.mem (s.get rn))).next
    else none
  | .ldrb rd rn post =>
    some ((s.set rn (s.get rn + post)).set rd (BitVec.ofNat 32 (s.mem (s.get rn).toNat).toNat)).next
  | .str rd rn post =>
    if Aligned (s.get rn) then
      some ({ s with mem := store s.mem (s.get rn) (s.get rd) }.set rn (s.get rn + post)).next
    else none
  | .strIf c rd rn post =>
    if c.holds s.cpsr then
      if Aligned (s.get rn) then
        some ({ s with mem := store s.mem (s.get rn) (s.get rd) }.set rn (s.get rn + post)).next
      else none
    else some s.next
  | .push rn rs =>
    if Aligned (s.get rn) then
      some ({ s with mem := storeAll s.mem (s.get rn - bytes rs) (rs.map s.get) }.set rn
        (s.get rn - bytes rs)).next
    else none
  | .pop rn rs =>
    if Aligned (s.get rn) then
      some ((s.set rn (s.get rn + bytes rs)).loadAll (s.get rn) rs).next
    else none
  | .stm rn rs =>
    if Aligned (s.get rn) then
      some { s with mem := storeAll s.mem (s.get rn) (rs.map s.get) }.next
    else none
  | .stmUser rn rs =>
    if Aligned (s.get rn) then
      some { s with mem := storeAll s.mem (s.get rn) (rs.map s.getUser) }.next
    else none
  | .ldm rn rs =>
    if Aligned (s.get rn) then some (s.loadAll (s.get rn) rs).next else none
  | .popReturn rn rs =>
    if Aligned (s.get rn) then
      some { (s.set rn (s.get rn + bytes rs + 4)).loadAll (s.get rn) rs with
        cpsr := s.spsr s.bank
        pc := word s.mem (s.get rn + bytes rs) }
    else none
  | .b c target => if c.holds s.cpsr then some { s with pc := target } else some s.next
  | .bl c f =>
    if c.holds s.cpsr then some (env f (s.set .lr (s.pc + 4))) else some s.next
  | .bx rm => if Aligned (s.get rm) then some { s with pc := s.get rm } else none

/-! ### Running code -/

/-- Execute the instruction that lies at the program counter. -/
def step (code : Word → Option (Instr ι)) (env : ι → State → State) (s : State) : Option State :=
  (code s.pc).bind (execute env s)

/-- Execute `n` instructions. -/
def run (code : Word → Option (Instr ι)) (env : ι → State → State) : ℕ → State → Option State
  | 0, s => some s
  | n + 1, s => (step code env s).bind (run code env n)

/-- Execution comes from `s` to `t`. -/
def RunsTo (code : Word → Option (Instr ι)) (env : ι → State → State) (s t : State) : Prop :=
  ∃ n, run code env n s = some t

/-- Execute a list of instructions one after the other. -/
def block (env : ι → State → State) : List (Instr ι) → State → Option State
  | [], s => some s
  | i :: is, s => (execute env s i).bind (block env is)

/-- The instructions `is` lie at `a` and the addresses behind it. -/
def CodeAt (code : Word → Option (Instr ι)) (a : Word) : List (Instr ι) → Prop
  | [] => True
  | i :: is => code a = some i ∧ CodeAt code (a + 4) is

/-- A program that lies at `a`. -/
def codeOf (a : Word) (is : List (Instr ι)) (b : Word) : Option (Instr ι) :=
  if Aligned (b - a) then is[(b - a).toNat / 4]? else none

/-- Instructions that are followed by the next one. -/
def Instr.plain : Instr ι → Bool
  | .b .. | .bl .. | .bx .. | .popReturn .. => false
  | _ => true

/-- What the processor does when it takes an interrupt: the address behind the next instruction goes to
the link register of the mode for interrupts, the status is saved, further interrupts are off, and
execution goes on at the handler. -/
def takeIrq (handler : Word) (s : State) : State :=
  { s with
    lr := Function.update s.lr .irq (s.pc + 4)
    spsr := Function.update s.spsr .irq s.cpsr
    cpsr := withControl s.cpsr ((s.cpsr &&& 0x40) ||| 0x92)
    pc := handler }

/-! ### Status registers -/

@[simp] theorem mode_withControl (psr v : Word) : mode (withControl psr v) = mode v := by
  unfold mode withControl
  ext i hi
  have hlow : i < 8 := by omega
  simp only [BitVec.getElem_extractLsb', BitVec.getLsbD_append, BitVec.getLsbD_extractLsb']
  simp [hlow]

@[simp] theorem mode_withFlags (psr : Word) (n z c v : Bool) :
    mode (withFlags psr n z c v) = mode psr := by
  unfold mode withFlags
  ext i hi
  have hlow : i < 28 := by omega
  simp only [BitVec.getElem_extractLsb', BitVec.getLsbD_append, BitVec.getLsbD_extractLsb']
  simp [hlow]

@[simp] theorem zero_withFlags (psr : Word) (n z c v : Bool) :
    zero (withFlags psr n z c v) = z := by
  unfold zero withFlags
  simp only [BitVec.getLsbD_append, BitVec.getLsbD_extractLsb']
  simp

/-- A status register takes its control byte back. -/
theorem withControl_of_high {psr v : Word} (h : psr.extractLsb' 8 24 = v.extractLsb' 8 24) :
    withControl psr v = v := by
  rw [withControl, h]
  exact BitVec.extractLsb'_append_extractLsb'_eq_extractLsb' rfl |>.trans (by simp)

@[simp] theorem high_withControl (psr v : Word) :
    (withControl psr v).extractLsb' 8 24 = psr.extractLsb' 8 24 := by
  unfold withControl
  ext i hi
  simp only [BitVec.getElem_extractLsb', BitVec.getLsbD_append, BitVec.getLsbD_extractLsb']
  simp [hi]

theorem less_afterCmp (psr x y : Word) : less (afterCmp psr x y) = x.slt y := by
  have hbits : less (afterCmp psr x y)
      = ((x - y).msb != ((x.msb != y.msb) && ((x - y).msb != x.msb))) := by
    unfold less afterCmp withFlags
    simp only [BitVec.getLsbD_append, BitVec.getLsbD_extractLsb']
    simp
  rw [hbits, BitVec.slt_eq_decide, BitVec.toInt_eq_msb_cond, BitVec.toInt_eq_msb_cond]
  simp only [BitVec.msb_eq_decide, BitVec.toNat_sub]
  have hx := x.isLt
  have hy := y.isLt
  grind

@[simp] theorem withControl_withControl (psr v w : Word) :
    withControl (withControl psr v) w = withControl psr w := by
  rw [withControl, high_withControl, withControl]

/-- The low byte of a status register is the one that is written. -/
theorem getLsbD_withControl (psr v : Word) {i : ℕ} (hi : i < 8) :
    (withControl psr v).getLsbD i = v.getLsbD i := by
  unfold withControl
  rw [BitVec.getLsbD_append, BitVec.getLsbD_extractLsb']
  simp [hi]

theorem getLsbD_withFlags (psr : Word) (n z c v : Bool) {i : ℕ} (hi : i < 28) :
    (withFlags psr n z c v).getLsbD i = psr.getLsbD i := by
  unfold withFlags
  simp only [BitVec.getLsbD_append, BitVec.getLsbD_extractLsb']
  simp [hi]

/-- The mode bits are cleared and set again. -/
theorem mode_select (psr v : Word) : mode ((psr &&& ~~~0x1f) ||| v) = mode v := by
  unfold mode
  ext i hi
  rcases (by omega : i = 0 ∨ i = 1 ∨ i = 2 ∨ i = 3 ∨ i = 4) with rfl | rfl | rfl | rfl | rfl <;> simp

/-- The mode bits of a status register are chosen anew, and the rest of its control byte stays. -/
theorem getLsbD_select (p v : Word) (hv : ∀ i, 5 ≤ i → i < 8 → v.getLsbD i = false) {i : ℕ} (hi : 5 ≤ i)
    (hlt : i < 8) : (withControl p ((p &&& ~~~0x1f) ||| v)).getLsbD i = p.getLsbD i := by
  rw [getLsbD_withControl _ _ hlt, BitVec.getLsbD_or, hv i hi hlt, Bool.or_false, BitVec.getLsbD_and]
  rcases (by omega : i = 5 ∨ i = 6 ∨ i = 7) with rfl | rfl | rfl <;> simp

theorem mode_takeIrq (handler : Word) (s : State) : mode (takeIrq handler s).cpsr = 0x12 := by
  rw [takeIrq, mode_withControl]
  unfold mode
  ext i hi
  rcases (by omega : i = 0 ∨ i = 1 ∨ i = 2 ∨ i = 3 ∨ i = 4) with rfl | rfl | rfl | rfl | rfl <;> simp

/-! ### Words read back -/

section Words

variable {m m' : ℕ → UInt8} {a : Word}

/-- A word only depends on its bytes. -/
theorem word_congr (h : ∀ i, a.toNat ≤ i → i < a.toNat + 4 → m i = m' i) :
    word m a = word m' a := by
  rw [word, word, Bytes.u32_congr h]

theorem word_store_self (m : ℕ → UInt8) (a v : Word) : word (store m a v) a = v := by
  rw [word, store, Bytes.u32_write_le32, Nat.mod_eq_of_lt v.isLt, BitVec.ofNat_toNat,
    BitVec.setWidth_eq]

theorem store_of_disjoint (m : ℕ → UInt8) {a : Word} (v : Word) {i : ℕ}
    (h : i < a.toNat ∨ a.toNat + 4 ≤ i) : store m a v i = m i :=
  Bytes.write_of_disjoint m h

theorem toNat_add_four (h : a.toNat + 4 < 2 ^ 32) : (a + 4).toNat = a.toNat + 4 := by
  rw [BitVec.toNat_add]
  exact Nat.mod_eq_of_lt h

/-- Stores into consecutive words leave the other bytes alone. -/
theorem storeAll_of_disjoint (vs : List Word) {i : ℕ} (hroom : a.toNat + 4 * vs.length ≤ 2 ^ 32)
    (h : i < a.toNat ∨ a.toNat + 4 * vs.length ≤ i) : storeAll m a vs i = m i := by
  induction vs generalizing m a with
  | nil => rfl
  | cons v vs ih =>
    rw [List.length_cons] at hroom h
    rw [storeAll]
    rcases vs with _ | ⟨w, vs⟩
    · exact store_of_disjoint m v (by simpa using h)
    · have ha : (a + 4).toNat = a.toNat + 4 := toNat_add_four (by simp at hroom; omega)
      rw [ih (by rw [ha]; omega) (by rw [ha]; omega), store_of_disjoint m v (by omega)]

/-- Consecutive words only depend on their bytes. -/
theorem words_congr {n : ℕ} (hroom : a.toNat + 4 * n ≤ 2 ^ 32)
    (h : ∀ i, a.toNat ≤ i → i < a.toNat + 4 * n → m i = m' i) : words m a n = words m' a n := by
  induction n generalizing a with
  | zero => rfl
  | succ n ih =>
    rw [words, words, word_congr fun i h1 h2 => h i h1 (by omega)]
    rcases n with _ | n
    · rfl
    · have ha : (a + 4).toNat = a.toNat + 4 := toNat_add_four (by omega)
      rw [ih (by rw [ha]; omega) fun i h1 h2 => h i (by omega) (by omega)]

/-- Values stored into consecutive words are read back. -/
theorem words_storeAll (m : ℕ → UInt8) (vs : List Word) (hroom : a.toNat + 4 * vs.length ≤ 2 ^ 32) :
    words (storeAll m a vs) a vs.length = vs := by
  induction vs generalizing m a with
  | nil => rfl
  | cons v vs ih =>
    rw [List.length_cons] at hroom
    rw [storeAll, List.length_cons, words]
    rcases vs with _ | ⟨w, vs⟩
    · rw [storeAll, word_store_self]
      rfl
    · have ha : (a + 4).toNat = a.toNat + 4 := toNat_add_four (by simp at hroom; omega)
      have hfirst : word (storeAll (store m a v) (a + 4) (w :: vs)) a = v := by
        refine Eq.trans (word_congr fun i _ hi => ?_) (word_store_self m a v)
        exact storeAll_of_disjoint _ (by rw [ha]; omega) (.inl (by omega))
      rw [hfirst, ih _ (by rw [ha]; omega)]

theorem words_append (m : ℕ → UInt8) (a : Word) (n k : ℕ) :
    words m a (n + k) = words m a n ++ words m (a + BitVec.ofNat 32 (4 * n)) k := by
  induction n generalizing a with
  | zero => simp [words]
  | succ n ih =>
    have hnext : a + 4 + BitVec.ofNat 32 (4 * n) = a + BitVec.ofNat 32 (4 * (n + 1)) := by
      rw [Nat.mul_add, Nat.add_comm (4 * n), BitVec.ofNat_add, ← BitVec.add_assoc]
      rfl
    rw [Nat.succ_add, words, words, ih, hnext, List.cons_append]

@[simp] theorem length_words (m : ℕ → UInt8) (a : Word) (n : ℕ) : (words m a n).length = n := by
  induction n generalizing a with
  | zero => rfl
  | succ n ih => rw [words, List.length_cons, ih]

theorem bytes_cons {α : Type*} (v : α) (vs : List α) : bytes (v :: vs) = 4 + bytes vs := by
  rw [bytes, bytes, List.length_cons, Nat.mul_add, Nat.add_comm, BitVec.ofNat_add]
  rfl

theorem bytes_append {α : Type*} (vs ws : List α) : bytes (vs ++ ws) = bytes vs + bytes ws := by
  rw [bytes, bytes, bytes, List.length_append, Nat.mul_add, BitVec.ofNat_add]

/-- Values stored behind each other. -/
theorem storeAll_append (m : ℕ → UInt8) (a : Word) (vs ws : List Word) :
    storeAll m a (vs ++ ws) = storeAll (storeAll m a vs) (a + bytes vs) ws := by
  induction vs generalizing m a with
  | nil => simp [storeAll, bytes]
  | cons v vs ih => rw [List.cons_append, storeAll, storeAll, ih, bytes_cons, BitVec.add_assoc]

theorem toNat_add_bytes {n : ℕ} (h : a.toNat + 4 * n < 2 ^ 32) :
    (a + BitVec.ofNat 32 (4 * n)).toNat = a.toNat + 4 * n := by
  rw [BitVec.toNat_add, BitVec.toNat_ofNat, Nat.mod_eq_of_lt (by omega : 4 * n < 2 ^ 32),
    Nat.mod_eq_of_lt h]

theorem toNat_sub_bytes {n : ℕ} (h : 4 * n ≤ a.toNat) :
    (a - BitVec.ofNat 32 (4 * n)).toNat = a.toNat - 4 * n := by
  have hlt := a.isLt
  rw [BitVec.toNat_sub, BitVec.toNat_ofNat, Nat.mod_eq_of_lt (by omega : 4 * n < 2 ^ 32)]
  omega

theorem Aligned.sub_bytes (h : Aligned a) (n : ℕ) : Aligned (a - BitVec.ofNat 32 (4 * n)) := by
  unfold Aligned at *
  rw [BitVec.toNat_sub, BitVec.toNat_ofNat]
  omega

theorem Aligned.add_bytes (h : Aligned a) (n : ℕ) : Aligned (a + BitVec.ofNat 32 (4 * n)) := by
  unfold Aligned at *
  rw [BitVec.toNat_add, BitVec.toNat_ofNat]
  omega

/-- What is stored below words that are there already comes before them. -/
theorem words_storeAll_append (vs ws : List Word)
    (hroom : a.toNat + 4 * (vs.length + ws.length) < 2 ^ 32) (h : words m (a + bytes vs) ws.length = ws) :
    words (storeAll m a vs) a (vs.length + ws.length) = vs ++ ws := by
  have hbase : (a + bytes vs).toNat = a.toNat + 4 * vs.length := toNat_add_bytes (by omega)
  rw [words_append, words_storeAll _ _ (by omega)]
  congr 1
  refine Eq.trans (words_congr ?_ ?_) h
  · exact hbase ▸ (by omega)
  · intro i hi _
    exact storeAll_of_disjoint _ (by omega) (.inr (hbase ▸ hi))

end Words

/-! ### Registers -/

namespace State

variable (s : State) (rd : Reg) (v : Word)

@[simp] theorem get_r (n : Fin 13) : s.get (.r n) = s.r n := rfl

@[simp] theorem get_sp : s.get .sp = s.sp s.bank := rfl

@[simp] theorem get_lr : s.get .lr = s.lr s.bank := rfl

@[simp] theorem mem_set : (s.set rd v).mem = s.mem := by cases rd <;> rfl

@[simp] theorem cpsr_set : (s.set rd v).cpsr = s.cpsr := by cases rd <;> rfl

@[simp] theorem spsr_set : (s.set rd v).spsr = s.spsr := by cases rd <;> rfl

@[simp] theorem pc_set : (s.set rd v).pc = s.pc := by cases rd <;> rfl

@[simp] theorem bank_set : (s.set rd v).bank = s.bank := by cases rd <;> rfl

@[simp] theorem get_set_self : (s.set rd v).get rd = v := by
  cases rd <;> simp [set, get, bank]

@[simp] theorem get_set_of_ne {rn : Reg} (h : rn ≠ rd) : (s.set rd v).get rn = s.get rn := by
  cases rd <;> cases rn <;> simp_all [set, get, bank]

@[simp] theorem mem_loadAll (a : Word) (rds : List Reg) : (s.loadAll a rds).mem = s.mem := by
  induction rds generalizing s a with
  | nil => rfl
  | cons rd rds ih => rw [loadAll, ih, mem_set]

@[simp] theorem pc_loadAll (a : Word) (rds : List Reg) : (s.loadAll a rds).pc = s.pc := by
  induction rds generalizing s a with
  | nil => rfl
  | cons rd rds ih => rw [loadAll, ih, pc_set]

end State

/-! ### Blocks -/

section Blocks

variable {code : Word → Option (Instr ι)} {env : ι → State → State} {s s' : State}

theorem run_add (n k : ℕ) (s : State) :
    run code env (n + k) s = (run code env n s).bind (run code env k) := by
  induction n generalizing s with
  | zero => rw [Nat.zero_add, run, Option.bind_some]
  | succ n ih =>
    rw [Nat.succ_add, run, run]
    cases step code env s with
    | none => rfl
    | some t => exact ih t

theorem RunsTo.of_run {n : ℕ} (h : run code env n s = some s') : RunsTo code env s s' := ⟨n, h⟩

theorem RunsTo.trans {t : State} (h : RunsTo code env s s') (h' : RunsTo code env s' t) :
    RunsTo code env s t := by
  obtain ⟨n, hn⟩ := h
  obtain ⟨k, hk⟩ := h'
  exact ⟨n + k, by rw [run_add, hn, Option.bind_some, hk]⟩

theorem block_append (is js : List (Instr ι)) (s : State) :
    block env (is ++ js) s = (block env is s).bind (block env js) := by
  induction is generalizing s with
  | nil => rfl
  | cons i is ih =>
    rw [List.cons_append, block, block, Option.bind_assoc]
    exact congrArg (Option.bind _) (funext fun t => ih t)

theorem step_eq {i : Instr ι} (hcode : code s.pc = some i) : step code env s = execute env s i := by
  rw [step, hcode, Option.bind_some]

theorem codeAt_append {a : Word} {is js : List (Instr ι)} :
    CodeAt code a (is ++ js) ↔ CodeAt code a is ∧ CodeAt code (a + bytes is) js := by
  induction is generalizing a with
  | nil => simp [CodeAt, bytes]
  | cons i is ih =>
    rw [List.cons_append, CodeAt, CodeAt, ih, bytes_cons, BitVec.add_assoc, and_assoc]

theorem codeAt_codeOf_add (a : Word) (js is : List (Instr ι))
    (h : 4 * (js.length + is.length) < 2 ^ 32) : CodeAt (codeOf a (js ++ is)) (a + bytes js) is := by
  induction is generalizing js with
  | nil => exact trivial
  | cons i is ih =>
    rw [List.length_cons] at h
    constructor
    · have hoff : a + bytes js - a = BitVec.ofNat 32 (4 * js.length) := by
        rw [BitVec.add_comm, BitVec.add_sub_cancel, bytes]
      have hnat : (BitVec.ofNat 32 (4 * js.length)).toNat = 4 * js.length := by
        rw [BitVec.toNat_ofNat]
        omega
      rw [codeOf, hoff, if_pos (by rw [Aligned, hnat]; omega), hnat,
        Nat.mul_div_cancel_left _ (by decide), List.getElem?_append_right (le_refl _), Nat.sub_self,
        List.getElem?_cons_zero]
    · have hnext : a + bytes js + 4 = a + bytes (js ++ [i]) := by
        rw [bytes, bytes, List.length_append, Nat.mul_add, BitVec.ofNat_add, BitVec.add_assoc]
        rfl
      rw [hnext, List.append_cons js i is]
      exact ih (js ++ [i]) (by rw [List.length_append, List.length_singleton]; omega)

theorem codeAt_codeOf (a : Word) (is : List (Instr ι)) (h : 4 * is.length < 2 ^ 32) :
    CodeAt (codeOf a is) a is := by
  have hzero : a + bytes ([] : List (Instr ι)) = a := by simp [bytes]
  have hcode := codeAt_codeOf_add a [] is (by simpa using h)
  rwa [hzero] at hcode

theorem pc_of_plain {i : Instr ι} (hi : i.plain) (h : execute env s i = some s') :
    s'.pc = s.pc + 4 := by
  cases i <;> simp only [Instr.plain, Bool.false_eq_true] at hi <;> simp only [execute] at h
  all_goals
    (repeat' split at h) <;> first | (cases h; simp [State.next]) | cases h

/-- A block of which only the last instruction may branch is executed as the list of its
instructions. -/
theorem run_block (is : List (Instr ι)) (hplain : ∀ i ∈ is.dropLast, i.plain)
    (hcode : CodeAt code s.pc is) : run code env is.length s = block env is s := by
  induction is generalizing s with
  | nil => rfl
  | cons i is ih =>
    rw [List.length_cons, run, block, step_eq hcode.1]
    cases hx : execute env s i with
    | none => rfl
    | some t =>
      rw [Option.bind_some, Option.bind_some]
      rcases is with _ | ⟨j, is⟩
      · rfl
      · have hpc : t.pc = s.pc + 4 := pc_of_plain (hplain i (by simp)) hx
        exact ih (fun k hk => hplain k (by simpa using Or.inr hk)) (hpc ▸ hcode.2)

end Blocks

end Arm
