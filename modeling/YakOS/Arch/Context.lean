import YakOS.Lib.Run
import YakOS.Arch.Interrupt

/-!
# Context switches

`arm_context_switch` of `arch/arm/boot/setup.S` and `arch_task_initialize` of
`arch/arm/arch_task.c`.  The first is code of the machine of `Arm`; the second lays out a context that
the first can load.  Tasks switch to each other in any order: between two switches the running task
computes, writes to the memory that no waiting task relies on, and creates tasks.

`cpu_switch_mm` is not here: all tasks run in the one map of kernel memory.

## Main definitions

* `armContextSwitch`, `archTaskInitialize` — the code.
* `TaskTable`, `TaskSystem`, `taskStep` — tasks with their stacks, and what happens to them.
* `Waiting`, `TasksInv` — what a task that is not running has in memory.
* `GoesOn` — what a task finds when it runs again.

## Main results

* `switchTo_spec` — one switch.
* `switches_go_on` — in every run, a switch to a task that waits resumes it as it left.
-/

namespace YakOS

open Arm

/-- `arm_context_switch`: save the context on the stack and the stack pointer at `r0`, go on with the stack
pointer `r1` and the context that lies there. -/
def armContextSwitch : List (Instr Empty) := [
  .push .sp [.r 4, .r 5, .r 6, .r 7, .r 8, .r 9, .r 10, .r 11, .lr],
  .str .sp (.r 0) 0,
  .op .al .mov .sp .sp (.reg (.r 1)),
  .pop .sp [.r 4, .r 5, .r 6, .r 7, .r 8, .r 9, .r 10, .r 11, .lr],
  .bx .lr]

/-- The fields `stack` and `stack_size` of a task, and the address of its field `sp`. -/
structure TaskMem where
  stack : Word
  stackSize : Word
  cell : Word

/-- The stack pointer a task starts with: the end of its stack, aligned to 8 bytes. -/
def TaskMem.stackTop (t : TaskMem) : Word := (t.stack + t.stackSize) &&& ~~~7

/-- The stack of a task. -/
def TaskMem.taskStack (t : TaskMem) : TaskStack := ⟨t.stack.toNat, t.stackTop.toNat⟩

/-- `arch_task_initialize`: a context of zeros, but for the link register, at the end of the stack. -/
def archTaskInitialize (m : ℕ → UInt8) (t : TaskMem) (initialTaskFunc : Word) : ℕ → UInt8 :=
  let frame := t.stackTop - 36
  let m := storeAll m frame (List.replicate 9 0)
  let m := store m (frame + 32) initialTaskFunc
  store m t.cell frame

/-- The words that `arm_context_switch` saves. -/
def switchFrame (s : State) : List Word :=
  [s.r 4, s.r 5, s.r 6, s.r 7, s.r 8, s.r 9, s.r 10, s.r 11, s.lr .svc]

/-- The task `old` goes on with what it had when it called `arm_context_switch`: at its return address,
with the registers that a function keeps, its stack pointer and its stack up to `top`. -/
structure GoesOn (top : ℕ) (old t : State) : Prop where
  svc : mode t.cpsr = 0x13
  pc : t.pc = old.lr .svc
  saved : ∀ n ∈ calleeSaved, t.r n = old.r n
  sp : t.sp .svc = old.sp .svc
  stack : ∀ i, (old.sp .svc).toNat ≤ i → i < top → t.mem i = old.mem i

section Switch

variable {s old : State} {m : ℕ → UInt8}

/-- `arm_context_switch`, when the context of `old` lies where `r1` points to. -/
theorem block_switch (env : Empty → State → State) (hs : mode s.cpsr = 0x13) (hsp : Aligned (s.sp .svc))
    (h0 : Aligned (s.r 0)) (h1 : Aligned (s.r 1))
    (hm : store (storeAll s.mem (s.sp .svc - 36) (switchFrame s)) (s.r 0) (s.sp .svc - 36) = m)
    (hframe : words m (s.r 1) 9 = switchFrame old) (hpc : Aligned (old.lr .svc)) :
    ∃ t, block env armContextSwitch s = some t ∧ t.cpsr = s.cpsr ∧ t.pc = old.lr .svc ∧
      (∀ n ∈ calleeSaved, t.r n = old.r n) ∧ t.sp .svc = s.r 1 + 36 ∧ t.mem = m := by
  have hbank : bankOf (mode s.cpsr) = .svc := by rw [hs]; rfl
  simp only [words, switchFrame, List.cons.injEq, BitVec.ofNat_eq_ofNat] at hframe
  obtain ⟨w0, w1, w2, w3, w4, w5, w6, w7, w8, -⟩ := hframe
  simp only [switchFrame, BitVec.ofNat_eq_ofNat] at hm
  simp [armContextSwitch, block, execute, State.get, State.bank, State.next, State.set, Op.apply,
    Operand.value, Cond.holds, bytes, State.loadAll, calleeSaved, hbank, hsp, h0, h1, hm, w0, w1, w2, w3, w4,
    w5, w6, w7, w8, hpc]

end Switch

/-! ### Tasks that switch to each other -/

/-- Tasks with their memory: the stacks and the fields `sp` lie apart from each other. -/
structure TaskTable (τ : Type*) where
  mem : τ → TaskMem
  aligned : ∀ t, Aligned (mem t).cell
  room : ∀ t, (mem t).taskStack.low + 36 ≤ (mem t).taskStack.top
  stack_apart : ∀ t u, t ≠ u → (mem t).taskStack.top ≤ (mem u).taskStack.low ∨
    (mem u).taskStack.top ≤ (mem t).taskStack.low
  cell_apart : ∀ t u, t ≠ u → (mem t).cell.toNat + 4 ≤ (mem u).cell.toNat ∨
    (mem u).cell.toNat + 4 ≤ (mem t).cell.toNat
  cell_off : ∀ t u, (mem t).cell.toNat + 4 ≤ (mem u).taskStack.low ∨
    (mem u).taskStack.top ≤ (mem t).cell.toNat

/-- The machine, the task that runs on it, and, of every other task that has been created, the state
in which it left, or as which it starts. -/
structure TaskSystem (τ : Type*) where
  machine : State
  current : τ
  left : τ → Option State

/-- What happens: the running task computes, writes a byte, creates a task, or calls
`arm_context_switch` to go on with another one, to be resumed at `ret`. -/
inductive TaskEvent (τ : Type*)
  | compute (r : Fin 13 → Word) (sp lr psr : Word)
  | write (a : ℕ) (b : UInt8)
  | create (t : τ)
  | switchTo (t : τ) (ret : Word)

section Runs

variable {τ : Type*} (tab : TaskTable τ) (entry initialTaskFunc : Word)

/-- The state a new task starts as. -/
def freshTask (s : State) (t : TaskMem) : State :=
  { s with
    r := fun _ => 0
    sp := Function.update s.sp .svc t.stackTop
    lr := Function.update s.lr .svc initialTaskFunc }

/-- The state in which the running task enters `arm_context_switch(&old->sp, new->sp)`. -/
def switchCall (s : TaskSystem τ) (t : τ) (ret : Word) : State :=
  { s.machine with
    r := Function.update (Function.update s.machine.r 0 (tab.mem s.current).cell)
      1 (word s.machine.mem (tab.mem t).cell)
    lr := Function.update s.machine.lr .svc ret
    pc := entry }

/-- One event. -/
def taskStep [DecidableEq τ] (s : TaskSystem τ) : TaskEvent τ → Option (TaskSystem τ)
  | .compute r sp lr psr => some
      { s with
        machine := { s.machine with
          r := r
          sp := Function.update s.machine.sp .svc sp
          lr := Function.update s.machine.lr .svc lr
          cpsr := psr } }
  | .write a b => some { s with machine := { s.machine with mem := Function.update s.machine.mem a b } }
  | .create t => some
      { s with
        machine := { s.machine with mem := archTaskInitialize s.machine.mem (tab.mem t) initialTaskFunc }
        left := Function.update s.left t (some (freshTask initialTaskFunc s.machine (tab.mem t))) }
  | .switchTo t ret =>
    (run (codeOf entry armContextSwitch) (fun e => e.elim) 5 (switchCall tab entry s t ret)).map fun m =>
      { machine := m
        current := t
        left := Function.update
          (Function.update s.left s.current (some (switchCall tab entry s t ret))) t none }

/-- The bytes that a task which has left as `old` relies on: its context and its stack, and its field `sp`. -/
def Relies (t : TaskMem) (old : State) (i : ℕ) : Prop :=
  (old.sp .svc).toNat - 36 ≤ i ∧ i < t.taskStack.top ∨ t.cell.toNat ≤ i ∧ i < t.cell.toNat + 4

/-- The running task can be switched away from: there is room for its context on its stack. -/
structure CanLeave (s : TaskSystem τ) (ret : Word) : Prop where
  aligned : Aligned (s.machine.sp .svc)
  low : (tab.mem s.current).taskStack.low + 36 ≤ (s.machine.sp .svc).toNat
  top : (s.machine.sp .svc).toNat ≤ (tab.mem s.current).taskStack.top
  ret : Aligned ret

/-- The events of tasks that keep to their own memory. -/
def TaskEventOk (s : TaskSystem τ) : TaskEvent τ → Prop
  | .compute _ _ _ psr => mode psr = 0x13
  | .write a _ => ∀ t old, s.left t = some old → ¬ Relies (tab.mem t) old a
  | .create t => t ≠ s.current ∧ Aligned initialTaskFunc
  | .switchTo t ret => (s.left t).isSome ∧ CanLeave tab s ret

/-- What holds of a task that has left as `old`. -/
structure Waiting (t : TaskMem) (m : ℕ → UInt8) (old : State) : Prop where
  aligned : Aligned (old.sp .svc)
  low : t.taskStack.low + 36 ≤ (old.sp .svc).toNat
  top : (old.sp .svc).toNat ≤ t.taskStack.top
  ret : Aligned (old.lr .svc)
  sp : word m t.cell = old.sp .svc - 36
  frame : words m (old.sp .svc - 36) 9 = switchFrame old
  stack : ∀ i, (old.sp .svc).toNat ≤ i → i < t.taskStack.top → m i = old.mem i

/-- The invariant: the machine is in supervisor mode, and every task but the running one waits as it left. -/
structure TasksInv (s : TaskSystem τ) : Prop where
  svc : mode s.machine.cpsr = 0x13
  current : s.left s.current = none
  waiting : ∀ t old, s.left t = some old → Waiting (tab.mem t) s.machine.mem old

variable {tab : TaskTable τ} {entry initialTaskFunc : Word} {s s' : TaskSystem τ} {t : TaskMem}
  {m m' : ℕ → UInt8} {old : State} {u v : τ} {ret : Word}

/-- A waiting task does not notice stores to memory it does not rely on. -/
theorem Waiting.congr (h : Waiting t m old) (hm : ∀ i, Relies t old i → m' i = m i) :
    Waiting t m' old := by
  have hlow := h.low
  have htop := h.top
  have hlt := (old.sp .svc).isLt
  have hbase : (old.sp .svc - 36).toNat = (old.sp .svc).toNat - 36 := toNat_sub_bytes (n := 9) (by omega)
  refine ⟨h.aligned, h.low, h.top, h.ret, ?_, ?_, ?_⟩
  · rw [← h.sp]
    exact word_congr fun i hi hi' => hm i (.inr ⟨hi, hi'⟩)
  · rw [← h.frame]
    exact words_congr (by omega) fun i hi hi' => hm i (.inl ⟨by omega, by omega⟩)
  · intro i hi hi'
    rw [hm i (.inl ⟨by omega, hi'⟩), h.stack i hi hi']

/-- What one task relies on is neither on the stack of another one nor its field `sp`. -/
theorem Waiting.apart (h : Waiting (tab.mem u) m old) (huv : u ≠ v) {i : ℕ}
    (hi : Relies (tab.mem u) old i) : (i < (tab.mem v).taskStack.low ∨ (tab.mem v).taskStack.top ≤ i) ∧
      (i < (tab.mem v).cell.toNat ∨ (tab.mem v).cell.toNat + 4 ≤ i) := by
  have hlow := h.low
  have hstack := tab.stack_apart u v huv
  have hcell := tab.cell_apart u v huv
  have hoff := tab.cell_off u v
  have hoff' := tab.cell_off v u
  rcases hi with ⟨hi, hi'⟩ | ⟨hi, hi'⟩ <;> omega

theorem aligned_stackTop (t : TaskMem) : Aligned t.stackTop := by
  have hmask : (~~~7 : Word).toNat % 2 ^ 2 = 0 := rfl
  unfold Aligned TaskMem.stackTop
  rw [BitVec.toNat_and, show 4 = 2 ^ 2 from rfl, Nat.and_mod_two_pow, hmask, Nat.and_zero]

/-- The context of zeros that `arch_task_initialize` leaves behind. -/
theorem words_archTaskInitialize {t : TaskMem} (hroom : 36 ≤ t.stackTop.toNat)
    (hoff : t.cell.toNat + 4 ≤ t.stackTop.toNat - 36 ∨ t.stackTop.toNat ≤ t.cell.toNat) :
    words (archTaskInitialize m t initialTaskFunc) (t.stackTop - 36) 9 =
      List.replicate 8 0 ++ [initialTaskFunc] := by
  have hlt := t.stackTop.isLt
  have hframe : (t.stackTop - 36).toNat = t.stackTop.toNat - 36 := toNat_sub_bytes (n := 9) (by omega)
  have hlink : (t.stackTop - 36 + 32).toNat = t.stackTop.toNat - 36 + 32 :=
    (toNat_add_bytes (n := 8) (by omega)).trans (by rw [hframe])
  have hzero : words (storeAll m (t.stackTop - 36) (List.replicate 9 0)) (t.stackTop - 36) 9 =
      List.replicate 9 0 := words_storeAll m (List.replicate 9 0) (by rw [List.length_replicate]; omega)
  unfold archTaskInitialize
  dsimp only
  generalize storeAll m (t.stackTop - 36) (List.replicate 9 0) = m₁ at *
  -- the zeros below the link register, which the later stores leave alone
  have hlow : words m₁ (t.stackTop - 36) 8 = List.replicate 8 0 := by
    have hsplit := words_append m₁ (t.stackTop - 36) 8 1
    rw [hzero] at hsplit
    exact (List.append_inj hsplit.symm (by simp)).1
  have hcell : words (store (store m₁ (t.stackTop - 36 + 32) initialTaskFunc) t.cell (t.stackTop - 36))
      (t.stackTop - 36) 9 = words (store m₁ (t.stackTop - 36 + 32) initialTaskFunc) (t.stackTop - 36) 9 :=
    words_congr (by omega) fun i hi hi' => store_of_disjoint _ _ (by omega)
  have hkeep : words (store m₁ (t.stackTop - 36 + 32) initialTaskFunc) (t.stackTop - 36) 8 =
      words m₁ (t.stackTop - 36) 8 :=
    words_congr (by omega) fun i hi hi' => store_of_disjoint _ _ (by omega)
  have hlast : words (store m₁ (t.stackTop - 36 + 32) initialTaskFunc) (t.stackTop - 36 + 32) 1 =
      [initialTaskFunc] := by
    rw [words, words, word_store_self]
  rw [hcell, words_append _ _ 8 1, hkeep, hlow]
  exact congrArg (List.replicate 8 0 ++ ·) hlast

/-- `arch_task_initialize` writes to the stack of the task and to its field `sp`. -/
theorem archTaskInitialize_of_disjoint {t : TaskMem} (hroom : t.taskStack.low + 36 ≤ t.taskStack.top)
    {i : ℕ} (hstack : i < t.taskStack.low ∨ t.taskStack.top ≤ i)
    (hcell : i < t.cell.toNat ∨ t.cell.toNat + 4 ≤ i) : archTaskInitialize m t initialTaskFunc i = m i := by
  have hlt := t.stackTop.isLt
  have htop : t.taskStack.top = t.stackTop.toNat := rfl
  have hframe : (t.stackTop - 36).toNat = t.stackTop.toNat - 36 := toNat_sub_bytes (n := 9) (by omega)
  have hlink : (t.stackTop - 36 + 32).toNat = t.stackTop.toNat - 36 + 32 :=
    (toNat_add_bytes (n := 8) (by omega)).trans (by rw [hframe])
  rw [archTaskInitialize, store_of_disjoint _ _ hcell, store_of_disjoint _ _ (by omega), storeAll_of_disjoint]
  all_goals rw [List.length_replicate]; omega

/-- A new task waits to begin at `initial_task_func` with an empty stack. -/
theorem freshTask_waiting (s : State) (hinit : Aligned initialTaskFunc) (u : τ) :
    Waiting (tab.mem u) (archTaskInitialize m (tab.mem u) initialTaskFunc)
      (freshTask initialTaskFunc s (tab.mem u)) := by
  have hroom : (tab.mem u).taskStack.low + 36 ≤ (tab.mem u).stackTop.toNat := tab.room u
  have hoff : (tab.mem u).cell.toNat + 4 ≤ (tab.mem u).taskStack.low ∨
      (tab.mem u).stackTop.toNat ≤ (tab.mem u).cell.toNat := tab.cell_off u u
  have hsp : (freshTask initialTaskFunc s (tab.mem u)).sp .svc = (tab.mem u).stackTop := by simp [freshTask]
  have hlr : (freshTask initialTaskFunc s (tab.mem u)).lr .svc = initialTaskFunc := by simp [freshTask]
  constructor <;> simp only [hsp, hlr]
  · exact aligned_stackTop _
  · exact hroom
  · exact le_rfl
  · exact hinit
  · exact word_store_self ..
  · rw [words_archTaskInitialize (by omega) (by omega), switchFrame, hlr]
    rfl
  · intro i hi hi'
    exact absurd hi (Nat.not_le.mpr hi')

/-- The memory after the stores of `arm_context_switch`. -/
def switchMem (m : ℕ → UInt8) (call : State) : ℕ → UInt8 :=
  store (storeAll m (call.sp .svc - 36) (switchFrame call)) (call.r 0) (call.sp .svc - 36)

section Leaving

variable (tab entry ret) (s u)

@[simp] theorem switchCall_r0 : (switchCall tab entry s u ret).r 0 = (tab.mem s.current).cell := by
  simp [switchCall]

@[simp] theorem switchCall_r1 :
    (switchCall tab entry s u ret).r 1 = word s.machine.mem (tab.mem u).cell := by simp [switchCall]

@[simp] theorem switchCall_lr : (switchCall tab entry s u ret).lr .svc = ret := by simp [switchCall]

@[simp] theorem switchCall_sp : (switchCall tab entry s u ret).sp = s.machine.sp := rfl

@[simp] theorem switchCall_mem : (switchCall tab entry s u ret).mem = s.machine.mem := rfl

end Leaving

/-- The stores of a task that is switched away from keep to its own memory. -/
theorem switchMem_of_disjoint (hleave : CanLeave tab s ret) {i : ℕ}
    (hstack : i < (s.machine.sp .svc).toNat - 36 ∨ (s.machine.sp .svc).toNat ≤ i)
    (hcell : i < (tab.mem s.current).cell.toNat ∨ (tab.mem s.current).cell.toNat + 4 ≤ i) :
    switchMem s.machine.mem (switchCall tab entry s u ret) i = s.machine.mem i := by
  have hlow := hleave.low
  have hlt := (s.machine.sp .svc).isLt
  have hbase : (s.machine.sp .svc - 36).toNat = (s.machine.sp .svc).toNat - 36 :=
    toNat_sub_bytes (n := 9) (by omega)
  have hlen : (switchFrame (switchCall tab entry s u ret)).length = 9 := rfl
  unfold switchMem
  rw [store_of_disjoint, switchCall_sp, storeAll_of_disjoint]
  · rw [hlen]
    omega
  · rw [hlen]
    omega
  · rw [switchCall_r0]
    exact hcell

/-- The task that is switched away from waits from then on. -/
theorem leaving_waiting (hleave : CanLeave tab s ret) :
    Waiting (tab.mem s.current) (switchMem s.machine.mem (switchCall tab entry s u ret))
      (switchCall tab entry s u ret) := by
  have hlow := hleave.low
  have htop := hleave.top
  have hlt := (s.machine.sp .svc).isLt
  have hoff := tab.cell_off s.current s.current
  have hbase : (s.machine.sp .svc - 36).toNat = (s.machine.sp .svc).toNat - 36 :=
    toNat_sub_bytes (n := 9) (by omega)
  refine ⟨hleave.aligned, hlow, htop, ?_, ?_, ?_, ?_⟩
  · rw [switchCall_lr]
    exact hleave.ret
  · rw [switchMem, switchCall_r0, word_store_self]
  · have hlen : (switchFrame (switchCall tab entry s u ret)).length = 9 := rfl
    rw [← words_storeAll s.machine.mem (switchFrame (switchCall tab entry s u ret))
      (a := s.machine.sp .svc - 36) (by rw [hbase, hlen]; omega)]
    refine words_congr (by rw [switchCall_sp]; omega) ?_
    intro i hi hi'
    rw [switchCall_sp] at hi hi'
    exact store_of_disjoint _ _ (by rw [switchCall_r0]; omega)
  · intro i hi hi'
    rw [switchCall_sp] at hi
    exact switchMem_of_disjoint hleave (.inr hi) (by omega)

variable (entry initialTaskFunc) in
/-- **A switch goes through**, the task that is switched to goes on as it left, and all the others
wait. -/
theorem switchTo_spec [DecidableEq τ] (hinv : TasksInv tab s) (hleft : s.left u = some old)
    (hleave : CanLeave tab s ret) :
    ∃ s', taskStep tab entry initialTaskFunc s (.switchTo u ret) = some s' ∧ s'.current = u ∧
      GoesOn (tab.mem u).taskStack.top old s'.machine ∧ TasksInv tab s' := by
  have hlow := hleave.low
  have htop := hleave.top
  have hne : u ≠ s.current := by
    rintro rfl
    rw [hinv.current] at hleft
    cases hleft
  -- no waiting task notices the stores
  have hkeep : ∀ v o, v ≠ s.current → s.left v = some o →
      Waiting (tab.mem v) (switchMem s.machine.mem (switchCall tab entry s u ret)) o := by
    intro v o hv ho
    refine (hinv.waiting v o ho).congr ?_
    intro i hi
    obtain ⟨hstack, hcell⟩ := (hinv.waiting v o ho).apart hv hi
    exact switchMem_of_disjoint hleave (by omega) hcell
  have hwait := hkeep u old hne hleft
  have hr1 : (switchCall tab entry s u ret).r 1 = old.sp .svc - 36 := by
    rw [switchCall_r1, (hinv.waiting u old hleft).sp]
  obtain ⟨t, hblock, hcpsr, hpc, hsaved, hsp, hmem⟩ := block_switch (fun e => e.elim)
    (s := switchCall tab entry s u ret) hinv.svc hleave.aligned
    (by rw [switchCall_r0]; exact tab.aligned _) (by rw [hr1]; exact hwait.aligned.sub_bytes 9) rfl
    (by rw [hr1]; exact hwait.frame) hwait.ret
  have hrun : run (codeOf entry armContextSwitch) (fun e => e.elim) 5 (switchCall tab entry s u ret) =
      some t := by
    rw [← hblock]
    exact run_block armContextSwitch (by simp [armContextSwitch, Instr.plain])
      (codeAt_codeOf entry armContextSwitch (by decide))
  have hold : t.sp .svc = old.sp .svc := by
    rw [hsp, hr1]
    exact BitVec.sub_add_cancel _ _
  refine ⟨_, by rw [taskStep, hrun, Option.map_some], rfl, ?_, ?_⟩
  · refine ⟨hcpsr ▸ hinv.svc, hpc, hsaved, hold, fun i hi hi' => ?_⟩
    rw [hmem]
    exact hwait.stack i hi hi'
  · refine ⟨hcpsr ▸ hinv.svc, Function.update_self .., fun v o ho => ?_⟩
    have hvu : v ≠ u := by
      rintro rfl
      simp at ho
    dsimp only at ho ⊢
    rw [Function.update_of_ne hvu] at ho
    rw [hmem]
    by_cases hv : v = s.current
    · subst hv
      rw [Function.update_self, Option.some.injEq] at ho
      subst ho
      exact leaving_waiting hleave
    · rw [Function.update_of_ne hv] at ho
      exact hkeep v o hv ho

/-- Every event keeps the invariant. -/
theorem tasksInv_step [DecidableEq τ] (s : TaskSystem τ) (e : TaskEvent τ) (s' : TaskSystem τ)
    (hinv : TasksInv tab s) (hok : TaskEventOk tab initialTaskFunc s e)
    (h : taskStep tab entry initialTaskFunc s e = some s') : TasksInv tab s' := by
  cases e with
  | compute r sp lr psr =>
    cases h
    exact ⟨hok, hinv.current, hinv.waiting⟩
  | write a b =>
    cases h
    refine ⟨hinv.svc, hinv.current, fun v o ho => (hinv.waiting v o ho).congr fun i hi => ?_⟩
    have hia : i ≠ a := by
      rintro rfl
      exact hok v o ho hi
    exact Function.update_of_ne hia ..
  | create u =>
    cases h
    obtain ⟨hne, hinit⟩ := hok
    refine ⟨hinv.svc, (Function.update_of_ne (Ne.symm hne) ..).trans hinv.current, fun v o ho => ?_⟩
    dsimp only at ho ⊢
    by_cases hv : v = u
    · subst hv
      rw [Function.update_self, Option.some.injEq] at ho
      subst ho
      exact freshTask_waiting s.machine hinit v
    · rw [Function.update_of_ne hv] at ho
      refine (hinv.waiting v o ho).congr ?_
      intro i hi
      obtain ⟨hstack, hcell⟩ := (hinv.waiting v o ho).apart hv hi
      exact archTaskInitialize_of_disjoint (tab.room u) hstack hcell
  | switchTo u ret =>
    obtain ⟨old, hold⟩ := Option.isSome_iff_exists.mp hok.1
    obtain ⟨s'', hs'', -, -, hinv'⟩ :=
      switchTo_spec entry initialTaskFunc hinv hold hok.2
    rw [h, Option.some.injEq] at hs''
    exact hs'' ▸ hinv'

/-- The system when the first task runs: no other one has been created yet. -/
def TaskSystem.boot (machine : State) (first : τ) : TaskSystem τ := ⟨machine, first, fun _ => none⟩

/-- **Context switches over whole runs**: in every run of tasks that keep to their own memory, at every
time, a switch from the running task to any task that waits goes through, and that task goes on with
everything it left: or, when it is new, at `initial_task_func` with an empty stack. -/
theorem switches_go_on [DecidableEq τ] (machine : State) (hmachine : mode machine.cpsr = 0x13) (first : τ)
    (es : List (TaskEvent τ))
    (hes : Run.Guarded (taskStep tab entry initialTaskFunc) (TaskEventOk tab initialTaskFunc)
      (.boot machine first) es) :
    Run.Always (taskStep tab entry initialTaskFunc)
      (fun s => ∀ u ret old, s.left u = some old → CanLeave tab s ret →
        ∃ s', taskStep tab entry initialTaskFunc s (.switchTo u ret) = some s' ∧ s'.current = u ∧
          GoesOn (tab.mem u).taskStack.top old s'.machine) (.boot machine first) es := by
  have hboot : TasksInv tab (.boot machine first) := by
    refine ⟨hmachine, rfl, fun u o ho => ?_⟩
    cases ho
  refine Run.Always.mono (fun s hs u ret old hleft hleave => ?_) (Run.always_of_guarded tasksInv_step hboot hes)
  obtain ⟨s', hs', hcur, hgo, -⟩ := switchTo_spec entry initialTaskFunc hs hleft hleave
  exact ⟨s', hs', hcur, hgo⟩

end Runs

/-! ### Two tasks -/

/-- The memory of two tasks. -/
def twoTasksMem (t : Bool) : TaskMem :=
  if t then ⟨0x3000, 0x1000, 0x108⟩ else ⟨0x1000, 0x1000, 0x100⟩

theorem twoTasks_aligned : ∀ t, Aligned (twoTasksMem t).cell := by decide

theorem twoTasks_room : ∀ t, (twoTasksMem t).taskStack.low + 36 ≤ (twoTasksMem t).taskStack.top := by decide

theorem twoTasks_stack_apart : ∀ t u, t ≠ u →
    (twoTasksMem t).taskStack.top ≤ (twoTasksMem u).taskStack.low ∨
      (twoTasksMem u).taskStack.top ≤ (twoTasksMem t).taskStack.low := by decide

theorem twoTasks_cell_apart : ∀ t u, t ≠ u →
    (twoTasksMem t).cell.toNat + 4 ≤ (twoTasksMem u).cell.toNat ∨
      (twoTasksMem u).cell.toNat + 4 ≤ (twoTasksMem t).cell.toNat := by decide

theorem twoTasks_cell_off : ∀ t u,
    (twoTasksMem t).cell.toNat + 4 ≤ (twoTasksMem u).taskStack.low ∨
      (twoTasksMem u).taskStack.top ≤ (twoTasksMem t).cell.toNat := by decide

/-- Two tasks. -/
def twoTasks : TaskTable Bool where
  mem := twoTasksMem
  aligned := twoTasks_aligned
  room := twoTasks_room
  stack_apart := twoTasks_stack_apart
  cell_apart := twoTasks_cell_apart
  cell_off := twoTasks_cell_off

/-- The machine when the first of them starts. -/
def twoTasksBoot : State where
  r := fun _ => 0
  sp := fun _ => 0x2000
  lr := fun _ => 0
  spsr := fun _ => 0
  cpsr := 0x13
  pc := 0x8000
  mem := fun _ => 0

theorem switches_go_on_two : Run.Always (taskStep twoTasks 0x9000 0xa000)
    (fun s => ∀ u ret old, s.left u = some old → CanLeave twoTasks s ret →
      ∃ s', taskStep twoTasks 0x9000 0xa000 s (.switchTo u ret) = some s' ∧ s'.current = u ∧
        GoesOn (twoTasks.mem u).taskStack.top old s'.machine) (.boot twoTasksBoot false) [.create true] :=
  switches_go_on twoTasksBoot rfl false [.create true] ⟨⟨by decide, by decide⟩, fun _ _ => trivial⟩

end YakOS
