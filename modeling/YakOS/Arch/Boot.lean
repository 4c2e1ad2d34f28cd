import YakOS.Lib.Arm

/-!
# The start of the machine

`reset` of `arch/arm/boot/setup.S`, as code of the machine of `Arm`, from the first instruction to the
call of `kmain`: the control register, a stack for each of four modes, and the loop that clears the bss
segment.  The loop compares addresses as signed numbers.

## Main definitions

* `reset` — the code, in its pieces.
* `Booted` — the state in which `kmain` is called.

## Main results

* `block_stackMode` — one of the four modes gets its stack.
* `clearing_round`, `clearing_loop` — the bss segment is cleared word by word.
* `reset_boots` — from every state, `reset` comes to the call of `kmain`.
-/

namespace YakOS

open Arm

/-- The addresses that the linker puts into `reset`. -/
structure Image where
  irqSaveSpot : Word
  abortStackTop : Word
  undefinedStackTop : Word
  stackTop : Word
  bssStart : Word
  bssEnd : Word

/-- The function that `reset` calls. -/
inductive BootCall
  | kmain
  deriving DecidableEq, Repr

/-- The first instructions of `reset`: caches and translation are off, alignment faults are on. -/
def resetControl : List (Instr BootCall) := [
  .mrcControl (.r 0),
  .op .al .bic (.r 0) (.r 0) (.imm 0xb000),
  .op .al .bic (.r 0) (.r 0) (.imm 5),
  .op .al .orr (.r 0) (.r 0) (.imm 2),
  .mcrControl (.r 0)]

/-- The stack pointer of one mode. -/
def stackMode (mode top : Word) : List (Instr BootCall) := [
  .op .al .orr (.r 1) (.r 0) (.imm mode),
  .msrCpsr (.reg (.r 1)),
  .const .sp top]

/-- `stack_setup`. -/
def stackSetup (l : Image) : List (Instr BootCall) :=
  [.mrsCpsr (.r 0), .op .al .bic (.r 0) (.r 0) (.imm 0x1f)] ++
    (stackMode 0x12 l.irqSaveSpot ++ (stackMode 0x17 l.abortStackTop ++
      (stackMode 0x1b l.undefinedStackTop ++ stackMode 0x13 l.stackTop)))

/-- `clear_bss`. -/
def clearBss (l : Image) : List (Instr BootCall) := [
  .const (.r 0) l.bssStart,
  .const (.r 1) l.bssEnd,
  .op .al .mov (.r 2) (.r 2) (.imm 0)]

/-- `__bss_loop`, which lies at `start`. -/
def bssLoop (start : Word) : List (Instr BootCall) := [
  .cmp .al (.r 0) (.reg (.r 1)),
  .strIf .lt (.r 2) (.r 0) 4,
  .b .lt start]

/-- The call of `kmain` and the endless loop behind it, which lies at `last`. -/
def startKernel (last : Word) : List (Instr BootCall) := [
  .bl .al .kmain,
  .b .al last]

/-- `reset`, at the address `entry`. -/
def reset (entry : Word) (l : Image) : List (Instr BootCall) :=
  (resetControl ++ (stackSetup l ++ clearBss l)) ++
    (bssLoop (entry + 88) ++ startKernel (entry + 104))

/-- The stack pointers that `reset` leaves behind. -/
def bootStacks (l : Image) (sp : Bank → Word) : Bank → Word
  | .irq => l.irqSaveSpot
  | .abt => l.abortStackTop
  | .und => l.undefinedStackTop
  | .svc => l.stackTop
  | b => sp b

/-- The memory with the bytes of `[a, b)` cleared. -/
def cleared (m : ℕ → UInt8) (a b : ℕ) (i : ℕ) : UInt8 := if a ≤ i ∧ i < b then 0 else m i

/-- The machine in `reset`, started in the state `s`, behind `stack_setup`: it is in supervisor mode, with
interrupts as they were, and every mode has its stack. -/
structure Prepared (l : Image) (s t : State) : Prop where
  svc : mode t.cpsr = 0x13
  masks : ∀ i, 5 ≤ i → i < 8 → t.cpsr.getLsbD i = s.cpsr.getLsbD i
  control : t.control = (s.control &&& ~~~0xb005) ||| 2
  sp : t.sp = bootStacks l s.sp
  lr : t.lr = s.lr
  spsr : t.spsr = s.spsr
  r : ∀ n, 2 < n → t.r n = s.r n

/-- The machine in the loop of `reset`, with the next word at `a`. -/
structure Clearing (l : Image) (s t : State) (a : Word) : Prop extends Prepared l s t where
  r0 : t.r 0 = a
  r1 : t.r 1 = l.bssEnd
  r2 : t.r 2 = 0
  mem : t.mem = cleared s.mem l.bssStart.toNat a.toNat

/-- `kmain` is about to be called, with the bss segment cleared if its start is below its end as a signed
number. -/
structure Booted (entry : Word) (l : Image) (s u : State) : Prop extends Prepared l s u where
  pc : u.pc = entry + 100
  mem : u.mem = if l.bssStart.slt l.bssEnd then cleared s.mem l.bssStart.toNat l.bssEnd.toNat else s.mem

variable {code : Word → Option (Instr BootCall)} {env : BootCall → State → State} {entry a psr : Word}
  {l : Image} {s t : State}

/-! ### The stacks -/

/-- One mode gets its stack. -/
theorem block_stackMode (v top : Word) (hr : t.r 0 = psr &&& ~~~0x1f) :
    block env (stackMode v top) t = some
      { t with
        r := Function.update t.r 1 (t.r 0 ||| v)
        cpsr := withControl t.cpsr (t.r 0 ||| v)
        sp := Function.update t.sp (bankOf (mode v)) top
        pc := t.pc + 12 } := by
  have hmode : mode (t.r 0 ||| v) = mode v := by rw [hr, mode_select]
  have hpc : t.pc + 4#32 + 4#32 + 4#32 = t.pc + 12#32 := by bv_omega
  simp [stackMode, block, execute, State.set, State.next, Operand.value, Cond.holds, Op.apply, State.bank,
    hmode, hpc]

theorem block_stackSetup (hpsr : psr = t.cpsr &&& ~~~0x1f) :
    block env (stackSetup l) t = some
      { t with
        r := Function.update (Function.update t.r 0 psr) 1 (psr ||| 0x13)
        cpsr := withControl t.cpsr (psr ||| 0x13)
        sp := bootStacks l t.sp
        pc := t.pc + 56 } := by
  have hstart : block env [.mrsCpsr (.r 0), .op .al .bic (.r 0) (.r 0) (.imm 0x1f)] t =
      some { t with r := Function.update t.r 0 psr, pc := t.pc + 8 } := by
    have hpc : t.pc + 4#32 + 4#32 = t.pc + 8#32 := by bv_omega
    simp [block, execute, State.set, State.next, Operand.value, Cond.holds, Op.apply, hpc,
      hpsr, -BitVec.reduceNot]
  have hstacks : Function.update (Function.update (Function.update (Function.update t.sp .irq l.irqSaveSpot)
      .abt l.abortStackTop) .und l.undefinedStackTop) .svc l.stackTop = bootStacks l t.sp := by
    funext b
    cases b <;> rfl
  have hirq : bankOf (mode (0x12#32)) = .irq := rfl
  have habt : bankOf (mode (0x17#32)) = .abt := rfl
  have hund : bankOf (mode (0x1b#32)) = .und := rfl
  have hsvc : bankOf (mode (0x13#32)) = .svc := rfl
  have hpc : t.pc + 8#32 + 12#32 + 12#32 + 12#32 + 12#32 = t.pc + 56#32 := by bv_omega
  rw [stackSetup, block_append, hstart, Option.bind_some]
  rw [block_append, block_stackMode _ _ (by simpa [-BitVec.reduceNot] using hpsr), Option.bind_some]
  rw [block_append, block_stackMode _ _ (by simpa [-BitVec.reduceNot] using hpsr), Option.bind_some]
  rw [block_append, block_stackMode _ _ (by simpa [-BitVec.reduceNot] using hpsr), Option.bind_some]
  rw [block_stackMode _ _ (by simpa [-BitVec.reduceNot] using hpsr)]
  simp [← hstacks, hpc, hirq, habt, hund, hsvc]

theorem block_resetControl :
    block env resetControl t = some
      { t with
        r := Function.update t.r 0 ((t.control &&& ~~~0xb005) ||| 2)
        control := (t.control &&& ~~~0xb005) ||| 2
        pc := t.pc + 20 } := by
  have hpc : t.pc + 4#32 + 4#32 + 4#32 + 4#32 + 4#32 = t.pc + 20#32 := by bv_omega
  have hmask : ∀ c : Word, c &&& ~~~0xb000#32 &&& ~~~5#32 = c &&& ~~~0xb005#32 := by
    intro c
    rw [BitVec.and_assoc]
    exact congrArg (c &&& ·) (by decide)
  simp [resetControl, block, execute, State.set, State.next, Operand.value, Cond.holds, Op.apply, hpc,
    -BitVec.reduceNot, hmask]

/-- The words up to the next one are cleared. -/
theorem store_cleared (m : ℕ → UInt8) {b : ℕ} (h : b ≤ a.toNat) :
    store (cleared m b a.toNat) a 0 = cleared m b (a.toNat + 4) := by
  funext i
  by_cases hi : i < a.toNat ∨ a.toNat + 4 ≤ i
  · rw [store_of_disjoint _ _ hi, cleared, cleared]
    exact if_congr (by omega) rfl rfl
  · obtain ⟨k, rfl⟩ := Nat.exists_eq_add_of_le (by omega : a.toNat ≤ i)
    have hk : k < (Bytes.le32 0).length := by
      rw [Bytes.length_le32]
      omega
    rw [store, cleared, if_pos (by omega)]
    refine (Bytes.write_add _ _ hk).trans ?_
    rcases (by rw [Bytes.length_le32] at hk; omega : k = 0 ∨ k = 1 ∨ k = 2 ∨ k = 3)
      with rfl | rfl | rfl | rfl <;> rfl

theorem cleared_self (m : ℕ → UInt8) (b : ℕ) : cleared m b b = m := by
  funext i
  exact if_neg (by omega)

/-- The status changes in its flags only, and the scratch registers change. -/
theorem Prepared.flags (h : Prepared l s t) {u : State} (n z c v : Bool)
    (hpsr : u.cpsr = withFlags t.cpsr n z c v) (hcontrol : u.control = t.control) (hsp : u.sp = t.sp)
    (hlr : u.lr = t.lr) (hspsr : u.spsr = t.spsr) (hr : ∀ n, 2 < n → u.r n = t.r n) : Prepared l s u where
  svc := by rw [hpsr, mode_withFlags, h.svc]
  masks i hi hlt := by rw [hpsr, getLsbD_withFlags _ _ _ _ _ (by omega), h.masks i hi hlt]
  control := hcontrol.trans h.control
  sp := hsp.trans h.sp
  lr := hlr.trans h.lr
  spsr := hspsr.trans h.spsr
  r n hn := (hr n hn).trans (h.r n hn)

/-- One round of the loop clears the word at `a` and goes on, if `a` is below the end as a signed number;
otherwise the loop ends. -/
theorem clearing_round (hcode : CodeAt code (entry + 88) (bssLoop (entry + 88))) (h : Clearing l s t a)
    (hpc : t.pc = entry + 88) (ha : Aligned a) (hstart : l.bssStart.toNat ≤ a.toNat)
    (hroom : a.slt l.bssEnd → a.toNat + 4 < 2 ^ 32) :
    ∃ u, run code env 3 t = some u ∧ u.pc = (if a.slt l.bssEnd then entry + 88 else entry + 100) ∧
      Clearing l s u (if a.slt l.bssEnd then a + 4 else a) := by
  have hrun : run code env (bssLoop (entry + 88)).length t = block env (bssLoop (entry + 88)) t :=
    run_block _ (by simp [bssLoop, Instr.plain]) (hpc ▸ hcode)
  have hpc12 : entry + 88#32 + 4#32 + 4#32 + 4#32 = entry + 100#32 := by bv_omega
  rw [show 3 = (bssLoop (entry + 88)).length from rfl, hrun]
  by_cases hlt : a.slt l.bssEnd
  · simp [bssLoop, block, execute, State.set, State.next, Operand.value, Cond.holds, less_afterCmp, h.r0,
      h.r1, h.r2, hpc, hlt, ha]
    refine ⟨h.toPrepared.flags _ _ _ _ rfl rfl rfl rfl rfl fun n hn => ?_, rfl, h.r1, h.r2, ?_⟩
    · exact Function.update_of_ne (ne_of_gt (lt_trans (by decide) hn)) ..
    · calc store t.mem a 0
          = store (cleared s.mem l.bssStart.toNat a.toNat) a 0 := by rw [h.mem]
        _ = cleared s.mem l.bssStart.toNat (a.toNat + 4) := store_cleared _ hstart
        _ = cleared s.mem l.bssStart.toNat (a + 4).toNat := by rw [toNat_add_four (hroom hlt)]
  · simp [bssLoop, block, execute, State.set, State.next, Operand.value, Cond.holds, less_afterCmp, h.r0,
      h.r1, hpc, hlt, hpc12]
    exact ⟨h.toPrepared.flags _ _ _ _ rfl rfl rfl rfl rfl fun _ _ => rfl, h.r0, h.r1, h.r2, h.mem⟩

/-- An address between the two ends compares like the first one. -/
theorem slt_of_between {b c : Word} (hb : b.toNat ≤ a.toNat) (hc : a.toNat < c.toNat) :
    a.slt c = true ∨ b.slt c = false := by
  rw [← Bool.not_eq_true, BitVec.slt_iff_toInt_lt, BitVec.slt_iff_toInt_lt, BitVec.toInt_eq_toNat_cond,
    BitVec.toInt_eq_toNat_cond, BitVec.toInt_eq_toNat_cond]
  have hlt := c.isLt
  split <;> split <;> split <;> omega

/-- The loop clears the words up to the end, if the start is below the end as a signed number. -/
theorem clearing_loop (hcode : CodeAt code (entry + 88) (bssLoop (entry + 88)))
    (hslt : l.bssStart.slt l.bssEnd) (hend : Aligned l.bssEnd) {n : ℕ}
    (hn : l.bssEnd.toNat = a.toNat + 4 * n) (hstart : l.bssStart.toNat ≤ a.toNat)
    (h : Clearing l s t a) (hpc : t.pc = entry + 88) :
    ∃ u, RunsTo code env t u ∧ u.pc = entry + 100 ∧ Clearing l s u l.bssEnd := by
  have hlast := l.bssEnd.isLt
  have ha : Aligned a := by
    unfold Aligned at *
    omega
  induction n generalizing a t with
  | zero =>
    have heq : a = l.bssEnd := BitVec.eq_of_toNat_eq (by omega)
    subst heq
    have hnot : ¬ l.bssEnd.slt l.bssEnd := by
      rw [BitVec.slt_iff_toInt_lt]
      exact lt_irrefl _
    obtain ⟨u, hrun, hupc, hu⟩ := clearing_round hcode h hpc ha hstart (absurd · hnot)
    rw [if_neg hnot] at hupc hu
    exact ⟨u, .of_run hrun, hupc, hu⟩
  | succ n ih =>
    have hlt : a.slt l.bssEnd := (slt_of_between hstart (by omega)).resolve_right (by simp [hslt])
    obtain ⟨u, hrun, hupc, hu⟩ := clearing_round hcode h hpc ha hstart fun _ => by
      unfold Aligned at *
      omega
    rw [if_pos hlt] at hupc hu
    have hnext : (a + 4).toNat = a.toNat + 4 := toNat_add_four (by unfold Aligned at *; omega)
    obtain ⟨v, hreach, hv⟩ := ih (by omega) (by omega) hu hupc (by unfold Aligned at *; omega)
    exact ⟨v, (RunsTo.of_run hrun).trans hreach, hv⟩

/-- From the first instruction to the loop. -/
theorem block_reset (hpc : s.pc = entry) :
    ∃ t, block env (resetControl ++ (stackSetup l ++ clearBss l)) s = some t ∧ t.pc = entry + 88 ∧
      Clearing l s t l.bssStart := by
  have hpc88 : entry + 20 + 56 + 4 + 4 + 4 = entry + 88 := by bv_omega
  rw [block_append, block_resetControl, Option.bind_some, block_append, block_stackSetup rfl,
    Option.bind_some]
  refine ⟨_, rfl, by rw [← hpc88, ← hpc]; rfl, ⟨?_, fun i hi hlt => ?_, rfl, rfl, rfl, rfl, fun n hn => ?_⟩,
    rfl, rfl, rfl, (cleared_self ..).symm⟩
  · exact (mode_withControl ..).trans (mode_select ..)
  · refine getLsbD_select s.cpsr 0x13 (fun j hj hj' => ?_) hi hlt
    rcases (by omega : j = 5 ∨ j = 6 ∨ j = 7) with rfl | rfl | rfl <;> rfl
  · have h0 : n ≠ 0 := ne_of_gt (lt_trans (by decide) hn)
    have h1 : n ≠ 1 := ne_of_gt (lt_trans (by decide) hn)
    have h2 : n ≠ 2 := ne_of_gt hn
    simp [State.set, State.next, h0, h1, h2]

/-- **The machine starts**: from every state, `reset` comes to the call of `kmain`, in supervisor mode,
with caches and translation off and alignment faults on, every mode on its own stack, and the bss segment
cleared if its start is below its end as a signed number, and nothing else changed; a `kmain` that returns is
followed by an endless loop. -/
theorem reset_boots (hcode : CodeAt code entry (reset entry l)) (hpc : s.pc = entry)
    (hstart : Aligned l.bssStart) (hend : Aligned l.bssEnd) (hle : l.bssStart.toNat ≤ l.bssEnd.toNat) :
    ∃ u, RunsTo code env s u ∧ Booted entry l s u ∧
      step code env u = some (env .kmain (u.set .lr (entry + 104))) ∧
      ∀ v, v.pc = entry + 104 → step code env v = some v := by
  have hloopPc : entry + bytes (resetControl ++ (stackSetup l ++ clearBss l)) = entry + 88 := rfl
  have hlastPc : entry + 88 + bytes (bssLoop (entry + 88)) = entry + 100 := by
    rw [BitVec.add_assoc]
    rfl
  obtain ⟨hfirst, hrest⟩ := codeAt_append.mp hcode
  rw [hloopPc] at hrest
  obtain ⟨hloop, hlast⟩ := codeAt_append.mp hrest
  rw [hlastPc] at hlast
  have hhang : entry + 100 + 4 = entry + 104 := by bv_omega
  have hal : ∀ psr, Cond.al.holds psr = true := fun _ => rfl
  obtain ⟨t, hblock, htpc, ht⟩ : ∃ t, block env (resetControl ++ (stackSetup l ++ clearBss l)) s = some t ∧
      t.pc = entry + 88 ∧ Clearing l s t l.bssStart := block_reset hpc
  have hrun : run code env _ s = block env _ s := run_block (resetControl ++ (stackSetup l ++ clearBss l))
    (by simp [resetControl, stackSetup, stackMode, clearBss, Instr.plain]) (hpc ▸ hfirst)
  have hreach : RunsTo code env s t := .of_run (hrun.trans hblock)
  obtain ⟨u, hreach', hupc, hprepared, hmem⟩ : ∃ u, RunsTo code env t u ∧ u.pc = entry + 100 ∧
      Prepared l s u ∧ u.mem = if l.bssStart.slt l.bssEnd then
        cleared s.mem l.bssStart.toNat l.bssEnd.toNat else s.mem := by
    by_cases hslt : l.bssStart.slt l.bssEnd
    · obtain ⟨n, hn⟩ : ∃ n, l.bssEnd.toNat = l.bssStart.toNat + 4 * n :=
        ⟨(l.bssEnd.toNat - l.bssStart.toNat) / 4, by unfold Aligned at *; omega⟩
      obtain ⟨u, hu, hupc, hcl⟩ := clearing_loop hloop hslt hend hn le_rfl ht htpc
      exact ⟨u, hu, hupc, hcl.toPrepared, by rw [if_pos hslt, hcl.mem]⟩
    · obtain ⟨u, hu, hupc, hcl⟩ := clearing_round hloop ht htpc hstart le_rfl (absurd · hslt)
      rw [if_neg hslt] at hupc hcl
      exact ⟨u, .of_run hu, hupc, hcl.toPrepared, by rw [if_neg hslt, hcl.mem, cleared_self]⟩
  refine ⟨u, hreach.trans hreach', ⟨hprepared, hupc, hmem⟩, ?_, fun v hv => ?_⟩
  · rw [step_eq (hupc ▸ hlast.1), execute, if_pos (hal _), hupc, hhang]
  · rw [step_eq (hv ▸ hhang ▸ hlast.2.1), execute, if_pos (hal _)]

/-- A kernel with two words of bss, with stacks at the end of it. -/
def bootImage : Image where
  irqSaveSpot := 0xc0010000
  abortStackTop := 0xc0012000
  undefinedStackTop := 0xc0013000
  stackTop := 0xc0820000
  bssStart := 0xc0014000
  bssEnd := 0xc0014008

/-- The machine after a reset. -/
def resetState : State where
  r := fun _ => 0
  sp := fun _ => 0
  lr := fun _ => 0
  spsr := fun _ => 0
  cpsr := 0xd3
  pc := 0xc0008040
  mem := fun _ => 0xff
  control := 0x1005

theorem reset_boots_image : ∃ u,
    RunsTo (codeOf 0xc0008040 (reset 0xc0008040 bootImage)) (fun _ v => v) resetState u ∧
      Booted 0xc0008040 bootImage resetState u ∧
      step (codeOf 0xc0008040 (reset 0xc0008040 bootImage)) (fun _ v => v) u
        = some (u.set .lr (0xc0008040 + 104)) ∧
      ∀ v, v.pc = 0xc0008040 + 104 →
        step (codeOf 0xc0008040 (reset 0xc0008040 bootImage)) (fun _ v => v) v = some v :=
  reset_boots (codeAt_codeOf 0xc0008040 (reset 0xc0008040 bootImage) (by decide)) rfl
    (by decide) (by decide) (by decide)

end YakOS
