import YakOS.Lib.Arm
import YakOS.Libc.Strings

/-!
# `strchr`

`arch/arm/lib/strchr.S`, as code of the machine of `Arm`: one round of the loop loads a byte, compares it
with the character, then with NUL, and goes on when it is neither.

## Main definitions

* `strchr` — the code.
* `Seeking` — the machine after some characters.

## Main results

* `seeking_round` — one round of the loop.
* `strchr_finds` — the address of the first occurrence of the character, or NULL.
-/

namespace YakOS

open Arm

/-- `strchr`, at the address `entry`. -/
def strchr (entry : Word) : List (Instr Empty) := [
  .op .al .and (.r 1) (.r 1) (.imm 0xff),
  .ldrb (.r 2) (.r 0) 1,
  .teq .al (.r 2) (.reg (.r 1)),
  .teq .ne (.r 2) (.imm 0),
  .b .ne (entry + 4),
  .teq .al (.r 2) (.reg (.r 1)),
  .op .ne .mov (.r 0) (.r 0) (.imm 0),
  .op .eq .sub (.r 0) (.r 0) (.imm 1),
  .bx .lr]

/-- A byte in a register. -/
def byteWord (c : UInt8) : Word := BitVec.ofNat 32 c.toNat

/-- The bytes of the memory, at the addresses of the machine. -/
def bytesOf (s : State) : Memory := fun a => s.mem a.toNat

/-- What `strchr` returns: the address of the first occurrence of `c`, which may be the NUL, or NULL. -/
def firstChar (a : Word) (text : List UInt8) (c : UInt8) : Word :=
  if c ∈ text ++ [0] then a + BitVec.ofNat 32 ((text ++ [0]).idxOf c) else 0

/-- The machine in the loop, called in the state `s`, with the next byte at `a`. -/
structure Seeking (s t : State) (c : UInt8) (a : Word) : Prop where
  r0 : t.r 0 = a
  r1 : t.r 1 = byteWord c
  r : ∀ n, 2 < n → t.r n = s.r n
  sp : t.sp = s.sp
  lr : t.lr = s.lr
  psr : mode t.cpsr = mode s.cpsr
  mem : t.mem = s.mem

/-- `strchr`, called in the state `s`, has returned `v`. -/
structure Returned (s u : State) (v : Word) : Prop where
  pc : u.pc = s.get .lr
  r0 : u.r 0 = v
  r : ∀ n, 2 < n → u.r n = s.r n
  sp : u.sp = s.sp
  psr : mode u.cpsr = mode s.cpsr
  mem : u.mem = s.mem

section Loop

variable {code : Word → Option (Instr Empty)} {env : Empty → State → State} {entry a : Word} {s t : State}
  {c x : UInt8}

theorem byteWord_inj {c d : UInt8} : byteWord c = byteWord d ↔ c = d := by
  unfold byteWord
  rw [← BitVec.toNat_inj, BitVec.toNat_ofNat, BitVec.toNat_ofNat, ← UInt8.toNat_inj]
  have hc := c.toNat_lt
  have hd := d.toNat_lt
  omega

/-- The instructions of one round. -/
def strchrRound (entry : Word) : List (Instr Empty) := [
  .ldrb (.r 2) (.r 0) 1,
  .teq .al (.r 2) (.reg (.r 1)),
  .teq .ne (.r 2) (.imm 0),
  .b .ne (entry + 4)]

/-- The instructions behind the loop. -/
def strchrEnd : List (Instr Empty) := [
  .teq .al (.r 2) (.reg (.r 1)),
  .op .ne .mov (.r 0) (.r 0) (.imm 0),
  .op .eq .sub (.r 0) (.r 0) (.imm 1),
  .bx .lr]

theorem strchr_eq (entry : Word) : strchr entry =
    [.op .al .and (.r 1) (.r 1) (.imm 0xff)] ++ (strchrRound entry ++ strchrEnd) := rfl

/-- The character in a register. -/
theorem byteWord_and (v : Word) : v &&& 0xff = byteWord (UInt8.ofNat v.toNat) := by
  rw [byteWord, ← BitVec.toNat_inj, BitVec.toNat_and, BitVec.toNat_ofNat, UInt8.toNat_ofNat']
  refine (Nat.and_two_pow_sub_one_eq_mod v.toNat 8).trans ?_
  omega

/-- A byte is loaded, and the status changes. -/
theorem Seeking.load (h : Seeking s t c a) (v psr pc : Word) (hpsr : mode psr = mode t.cpsr) :
    Seeking s { t with r := Function.update (Function.update t.r 0 (a + 1)) 2 v, cpsr := psr, pc := pc } c
      (a + 1) := by
  refine ⟨?_, ?_, fun n hn => ?_, h.sp, h.lr, hpsr.trans h.psr, h.mem⟩
  · simp
  · simpa using h.r1
  · have h0 : n ≠ 0 := by
      rintro rfl
      exact absurd hn (by decide)
    simp only [Function.update_of_ne (ne_of_gt hn), Function.update_of_ne h0]
    exact h.r n hn

/-- One round of the loop: it ends at the character and at NUL. -/
theorem seeking_round (hcode : CodeAt code (entry + 4) (strchrRound entry)) (h : Seeking s t c a)
    (hpc : t.pc = entry + 4) (hx : bytesOf s a = x) :
    ∃ u, run code env 4 t = some u ∧ u.pc = (if x = c ∨ x = 0 then entry + 20 else entry + 4) ∧
      Seeking s u c (a + 1) ∧ u.r 2 = byteWord x := by
  have hload : BitVec.ofNat 32 (t.mem a.toNat).toNat = byteWord x := by
    rw [h.mem, ← hx]
    rfl
  have hzero : byteWord 0 = 0#32 := rfl
  have hrun : run code env (strchrRound entry).length t = block env (strchrRound entry) t :=
    run_block _ (by simp [strchrRound, Instr.plain]) (hpc ▸ hcode)
  have hpc4 : entry + 4#32 + 4#32 + 4#32 + 4#32 + 4#32 = entry + 20#32 := by bv_omega
  rw [show 4 = (strchrRound entry).length from rfl, hrun]
  simp [strchrRound, block, execute, State.set, State.next, Operand.value, Cond.holds, afterTeq, h.r0,
    h.r1, hload, hpc]
  by_cases hc : x = c
  · subst hc
    simp
    exact ⟨hpc4, h.load _ _ _ (mode_withFlags ..)⟩
  · have hne : byteWord x ≠ byteWord c := fun heq => hc (byteWord_inj.mp heq)
    rcases eq_or_ne x 0 with h0 | h0
    · subst h0
      rw [hzero] at hne
      simp [hne, hc, hzero]
      exact ⟨hpc4, h.load _ _ _ (by simp)⟩
    · have hne0 : byteWord x ≠ 0#32 := fun heq => h0 (byteWord_inj.mp (heq.trans hzero.symm))
      simp [hne, h0, hne0, hc]
      exact h.load _ _ _ (by simp)

@[simp] theorem firstChar_nil : firstChar a [] c = if 0 = c then a else 0 := by
  by_cases hc : c = 0
  · simp [firstChar, hc]
  · simp [firstChar, hc, Ne.symm hc]

@[simp] theorem firstChar_cons (text : List UInt8) :
    firstChar a (x :: text) c = if x = c then a else firstChar (a + 1) text c := by
  unfold firstChar
  by_cases hc : x = c
  · simp [hc]
  · rw [List.cons_append, if_neg hc, List.idxOf_cons_ne _ hc, ← add_one_add_ofNat]
    refine if_congr ?_ rfl rfl
    rw [List.mem_cons]
    exact or_iff_right (Ne.symm hc)

/-- The loop, from the byte at `a` on: it ends behind the character or behind the NUL. -/
theorem seeking_loop (hcode : CodeAt code (entry + 4) (strchrRound entry)) {text : List UInt8}
    (htext : TextAt (bytesOf s) a text) (h : Seeking s t c a) (hpc : t.pc = entry + 4) :
    ∃ u b x, RunsTo code env t u ∧ u.pc = entry + 20 ∧ Seeking s u c (b + 1) ∧ u.r 2 = byteWord x ∧
      firstChar a text c = if x = c then b else 0 := by
  induction text generalizing a t with
  | nil =>
    obtain ⟨u, hrun, hupc, hu, h2⟩ := seeking_round hcode h hpc htext
    rw [if_pos (.inr rfl)] at hupc
    exact ⟨u, a, 0, .of_run hrun, hupc, hu, h2, firstChar_nil⟩
  | cons y text ih =>
    obtain ⟨hy, h0, htext⟩ := htext
    obtain ⟨u, hrun, hupc, hu, h2⟩ := seeking_round hcode h hpc hy
    rw [firstChar_cons]
    by_cases hc : y = c
    · rw [if_pos (.inl hc)] at hupc
      exact ⟨u, a, y, .of_run hrun, hupc, hu, h2, by rw [if_pos hc, if_pos hc]⟩
    · rw [if_neg (not_or.mpr ⟨hc, h0⟩)] at hupc
      obtain ⟨v, b, x, hreach, hv⟩ := ih htext hu hupc
      exact ⟨v, b, x, (RunsTo.of_run hrun).trans hreach, by rwa [if_neg hc]⟩

/-- The instructions behind the loop. -/
theorem strchr_end (hcode : CodeAt code (entry + 20) strchrEnd) (h : Seeking s t c (a + 1))
    (hpc : t.pc = entry + 20) (h2 : t.r 2 = byteWord x) (hlr : Aligned (s.get .lr)) :
    ∃ u, run code env 4 t = some u ∧ Returned s u (if x = c then a else 0) := by
  have hrun : run code env strchrEnd.length t = block env strchrEnd t :=
    run_block _ (by simp [strchrEnd, Instr.plain]) (hpc ▸ hcode)
  have hr : ∀ v : Word, ∀ n, 2 < n → Function.update t.r 0 v n = s.r n := by
    intro v n hn
    have h0 : n ≠ 0 := by
      rintro rfl
      exact absurd hn (by decide)
    rw [Function.update_of_ne h0]
    exact h.r n hn
  have hback : t.lr (bankOf (mode t.cpsr)) = s.get .lr := by
    rw [h.lr, h.psr]
    rfl
  rw [show 4 = strchrEnd.length from rfl, hrun]
  by_cases hc : x = c
  · subst hc
    simp [strchrEnd, block, execute, State.set, State.next, Operand.value, Cond.holds, afterTeq, h.r0, h.r1,
      h2, hpc, Op.apply, State.bank, hback]
    exact ⟨hlr, rfl, by simp, hr _, h.sp, (mode_withFlags ..).trans h.psr, h.mem⟩
  · have hne : byteWord x ≠ byteWord c := fun heq => hc (byteWord_inj.mp heq)
    simp [strchrEnd, block, execute, State.set, State.next, Operand.value, Cond.holds, afterTeq, h.r1,
      h2, hpc, Op.apply, State.bank, hback, hne, hc]
    exact ⟨hlr, rfl, by simp, hr _, h.sp, (mode_withFlags ..).trans h.psr, h.mem⟩

/-- **`strchr` finds the first occurrence**: for every string at `r0` and every character in `r1`, it
returns the address of the first occurrence, the NUL included, or NULL, and changes neither the memory
nor a register that its caller relies on. -/
theorem strchr_finds (hcode : CodeAt code entry (strchr entry)) (hpc : s.pc = entry) {text : List UInt8}
    (htext : TextAt (bytesOf s) (s.r 0) text) (hlr : Aligned (s.get .lr)) :
    ∃ u, RunsTo code env s u ∧ Returned s u (firstChar (s.r 0) text (UInt8.ofNat (s.r 1).toNat)) := by
  rw [strchr_eq, codeAt_append, codeAt_append] at hcode
  obtain ⟨hfirst, hround, hend⟩ := hcode
  obtain ⟨c, hc⟩ : ∃ c, c = UInt8.ofNat (s.r 1).toNat := ⟨_, rfl⟩
  obtain ⟨t, hrun, hpc1, ht⟩ : ∃ t, run code env 1 s = some t ∧ t.pc = entry + 4 ∧
      Seeking s t c (s.r 0) := by
    refine ⟨(s.set (.r 1) (byteWord c)).next, ?_, by rw [← hpc]; rfl, ?_⟩
    · have hmask : s.r 1 &&& 0xff = byteWord c := by rw [hc, byteWord_and]
      rw [run, step_eq (hpc ▸ hfirst.1), ← hmask]
      rfl
    · refine ⟨rfl, by simp [State.next, State.set], fun n hn => ?_, rfl, rfl, rfl, rfl⟩
      refine Function.update_of_ne ?_ ..
      rintro rfl
      exact absurd hn (by decide)
  obtain ⟨u, b, x, hreach, hupc, hu, h2, hfind⟩ := seeking_loop hround htext ht hpc1
  have hpc20 : entry + 4 + 16 = entry + 20 := by bv_omega
  have hend' : CodeAt code (entry + 20) strchrEnd := hpc20 ▸ hend
  obtain ⟨v, hrunEnd, hv⟩ := strchr_end hend' hu hupc h2 hlr
  rw [← hc, hfind]
  exact ⟨v, ((RunsTo.of_run hrun).trans hreach).trans (.of_run hrunEnd), hv⟩

end Loop

/-- A call of `strchr` with two characters at `r0`, the second of which is in `r1`. -/
def strchrCall : State where
  r := fun n => if n = 0 then 0x100 else 0x62
  sp := fun _ => 0
  lr := fun _ => 0x9000
  spsr := fun _ => 0
  cpsr := 0x13
  pc := 0x8000
  mem := fun i => if i = 0x100 then 0x61 else if i = 0x101 then 0x62 else 0

theorem strchr_finds_second : ∃ u, RunsTo (codeOf 0x8000 (strchr 0x8000)) (fun e => e.elim) strchrCall u ∧
    Returned strchrCall u (firstChar 0x100 [0x61, 0x62] (UInt8.ofNat (strchrCall.r 1).toNat)) :=
  strchr_finds (codeAt_codeOf 0x8000 (strchr 0x8000) (by decide)) rfl
    (by simp [TextAt, bytesOf, strchrCall]) (by decide)

end YakOS
