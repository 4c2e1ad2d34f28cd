import YakOS.Arch.Faults
import YakOS.Kernel.Dump

/-!
# The report of a fault

What `exception_die` and `dump_fault_frame` of `arch/arm/faults.c` print: which exception it was, the frame,
the stack pointers and link registers of the modes, and the bottom of the stack of the mode in which the
exception was taken.  Everything is printed in fields of a fixed width, so that nothing of it is lost.

The registers of abort mode are stored by `arm_save_mode_regs` but not printed.

## Main definitions

* `Fault.message`, `dumpFaultFrame`, `faultReport` — the code.
* `ModeRegs` — `struct arm_mode_regs`.

## Main results

* `modeMessage_inj` — a line about a mode tells its registers.
* `fault_report_tells` — **equal reports are about equal faults**.
-/

namespace YakOS

open Arm Bytes

/-! ### The code -/

/-- `struct arm_mode_regs`. -/
structure ModeRegs where
  fiq : Word × Word
  irq : Word × Word
  svc : Word × Word
  abt : Word × Word
  und : Word × Word
  sys : Word × Word
  deriving DecidableEq, Repr

/-- What the handler of an exception passes to `exception_die`. -/
def Fault.message : Fault → List UInt8
  | .syscall => chars "Unhandled syscall\n"
  | .undefined => chars "Undefined abort!\n"
  | .dataAbort => chars "Data abort!\n"
  | .prefetchAbort => chars "Prefetch abort!\n"

/-- `"<label>%08x<label>%08x ... \n"` -/
def labelled : List (List UInt8) → List Piece
  | [] => [.text (chars "\n")]
  | label :: labels => .text label :: hexField 8 .int :: labelled labels

/-- The lines with the registers of the frame. -/
def frameMessages (frame : FaultFrame) : List Message := [
  (labelled [chars "r0  0x", chars " r1  0x", chars " r2  0x", chars " r3  0x"], (frame.r.take 4).map .word),
  (labelled [chars "r4  0x", chars " r5  0x", chars " r6  0x", chars " r7  0x"],
    ((frame.r.drop 4).take 4).map .word),
  (labelled [chars "r8  0x", chars " r9  0x", chars " r10 0x", chars " r11 0x"],
    ((frame.r.drop 8).take 4).map .word),
  (labelled [chars "r12 0x", chars " usp 0x", chars " ulr 0x", chars " pc  0x"],
    ((frame.r.drop 12).take 1 ++ [frame.usp, frame.ulr, frame.pc]).map .word),
  (labelled [chars "spsr 0x"], [frame.spsr].map .word)]

/-- `" r13 0x%08x r14 0x%08x\n"` -/
def bankWords : List Piece :=
  [.text (chars " r13 0x"), hexField 8 .int, .text (chars " r14 0x"), hexField 8 .int, .text (chars "\n")]

/-- The line with the registers of a mode, which a star marks as the one of the exception. -/
def modeMessage (spsr md : Word) (name : List UInt8) (regs : Word × Word) : Message :=
  (.arg ⟨false, false, false, false, 0, .int, .c⟩ :: .arg ⟨false, false, false, false, 0, .int, .s⟩ :: bankWords,
    [.word (if spsr &&& 0x1f = md then 42 else 32), .string (some name), .word regs.1, .word regs.2])

/-- The lines with the registers of the modes. -/
def modeMessages (spsr : Word) (regs : ModeRegs) : List Message := [
  modeMessage spsr 0x11 (chars "fiq") regs.fiq,
  modeMessage spsr 0x12 (chars "irq") regs.irq,
  modeMessage spsr 0x13 (chars "svc") regs.svc,
  modeMessage spsr 0x1b (chars "und") regs.und,
  modeMessage spsr 0x1f (chars "sys") regs.sys]

/-- The stack pointer of the mode in which the exception was taken. -/
def faultStack (spsr : Word) (regs : ModeRegs) : Word :=
  if spsr &&& 0x1f = 0x11 then regs.fiq.1
  else if spsr &&& 0x1f = 0x12 then regs.irq.1
  else if spsr &&& 0x1f = 0x13 then regs.svc.1
  else if spsr &&& 0x1f = 0x1b then regs.und.1
  else if spsr &&& 0x1f = 0x1f then regs.sys.1
  else 0

/-- `"bottom of stack at 0x%08x:\n"` -/
def stackMessage (stack : Word) : Message :=
  ([.text (chars "bottom of stack at 0x"), hexField 8 .int, .text (chars ":\n")], [.word stack])

/-- The dump of the bottom of the stack. -/
def stackMessages (m : ℕ → UInt8) (fuel : ℕ) (stack : Word) : Option (List Message) :=
  if stack = 0 then some []
  else (hexdump m fuel stack 128).map (stackMessage stack :: ·)

/-- `dump_fault_frame` -/
def dumpFaultFrame (m : ℕ → UInt8) (fuel : ℕ) (frame : FaultFrame) (regs : ModeRegs) : Option (List Message) :=
  (stackMessages m fuel (faultStack frame.spsr regs)).map
    (frameMessages frame ++ modeMessages frame.spsr regs ++ ·)

/-- What a handler prints before it halts, with the frame as `exception_die` leaves it. -/
def faultReport (m : ℕ → UInt8) (fuel : ℕ) (f : Fault) (frame : FaultFrame) (regs : ModeRegs) :
    Option (List Message) := (dumpFaultFrame m fuel frame regs).map (([.text f.message], []) :: ·)

/-! ### What the lines tell -/

section Lines

variable {rest rest' : List UInt8} {frame frame' : FaultFrame} {regs regs' : ModeRegs}

theorem tellsWords_labelled (labels : List (List UInt8)) : TellsWords (labelled labels) labels.length := by
  induction labels with
  | nil => rfl
  | cons label labels ih => exact ⟨.inl rfl, ih⟩

/-- A line of labelled words tells the words. -/
theorem labelled_inj (labels : List (List UInt8)) {ws ws' : List Word} (hws : ws.length = labels.length)
    (hws' : ws'.length = labels.length)
    (h : Message.text (labelled labels, ws.map .word) ++ rest =
      Message.text (labelled labels, ws'.map .word) ++ rest') : ws = ws' ∧ rest = rest' :=
  denote_words_inj ws ws' (tellsWords_labelled labels) hws hws' h

theorem take_append_drop_frame {r : List Word} (hr : r.length = 13) :
    r = r.take 4 ++ ((r.drop 4).take 4 ++ ((r.drop 8).take 4 ++ (r.drop 12).take 1)) := by
  have hend : (r.drop 12).take 1 = r.drop 12 := List.take_of_length_le (by simp [hr])
  have h12 : r.drop 12 = (r.drop 8).drop 4 := by rw [List.drop_drop]
  have h8 : r.drop 8 = (r.drop 4).drop 4 := by rw [List.drop_drop]
  rw [hend, h12, List.take_append_drop, h8, List.take_append_drop, List.take_append_drop]

/-- The lines about the frame tell the frame. -/
theorem frameMessages_inj (hr : frame.r.length = 13) (hr' : frame'.r.length = 13)
    (h : textOf (frameMessages frame) ++ rest = textOf (frameMessages frame') ++ rest') :
    frame = frame' ∧ rest = rest' := by
  simp only [frameMessages, textOf_cons, textOf_nil, List.append_assoc, List.nil_append] at h
  obtain ⟨h0, h⟩ := labelled_inj _ (by simp [hr]) (by simp [hr']) h
  obtain ⟨h4, h⟩ := labelled_inj _ (by simp [hr]) (by simp [hr']) h
  obtain ⟨h8, h⟩ := labelled_inj _ (by simp [hr]) (by simp [hr']) h
  obtain ⟨hlast, h⟩ := labelled_inj _ (by simp [hr]) (by simp [hr']) h
  obtain ⟨hspsr, h⟩ := labelled_inj _ rfl rfl h
  obtain ⟨h12, hlast⟩ := List.append_inj hlast (by simp [hr, hr'])
  refine ⟨?_, h⟩
  have heq : frame.r = frame'.r := by
    rw [take_append_drop_frame hr, take_append_drop_frame hr', h0, h4, h8, h12]
  simp only [List.cons.injEq, and_true] at hlast hspsr
  obtain ⟨spsr, usp, ulr, r, pc⟩ := frame
  obtain ⟨spsr', usp', ulr', r', pc'⟩ := frame'
  rw [FaultFrame.mk.injEq]
  exact ⟨hspsr, hlast.1, hlast.2.1, heq, hlast.2.2⟩

theorem modeMessage_text (spsr md : Word) (name : List UInt8) (r : Word × Word) :
    (modeMessage spsr md name r).text = [UInt8.ofNat (if spsr &&& 0x1f = md then 42 else 32 : Word).toNat] ++
      (name ++ denote argList bankWords ([r.1, r.2].map .word)) := by
  have hname : (⟨false, false, false, false, 0, .int, .s⟩ : Directive).padded name = name := by
    simp [Directive.padded]
  exact congrArg (_ :: · ++ _) hname

theorem tellsWords_bankWords : TellsWords bankWords 2 := ⟨.inl rfl, .inl rfl, rfl⟩

/-- A line about a mode tells its registers. -/
theorem modeMessage_inj {spsr md : Word} {name : List UInt8} {r r' : Word × Word}
    (h : (modeMessage spsr md name r).text ++ rest = (modeMessage spsr md name r').text ++ rest') :
    r = r' ∧ rest = rest' := by
  simp only [modeMessage_text, List.append_assoc] at h
  obtain ⟨heq, hrest⟩ := denote_words_inj [r.1, r.2] [r'.1, r'.2] tellsWords_bankWords rfl rfl
    (List.append_cancel_left (List.append_cancel_left h))
  simp only [List.cons.injEq, and_true] at heq
  exact ⟨Prod.ext heq.1 heq.2, hrest⟩

/-- The same registers, but for those of abort mode. -/
def SameBanks (regs regs' : ModeRegs) : Prop :=
  regs.fiq = regs'.fiq ∧ regs.irq = regs'.irq ∧ regs.svc = regs'.svc ∧ regs.und = regs'.und ∧ regs.sys = regs'.sys

theorem modeMessages_inj {spsr : Word}
    (h : textOf (modeMessages spsr regs) ++ rest = textOf (modeMessages spsr regs') ++ rest') :
    SameBanks regs regs' ∧ rest = rest' := by
  simp only [modeMessages, textOf_cons, textOf_nil, List.append_assoc, List.nil_append] at h
  obtain ⟨hfiq, h⟩ := modeMessage_inj h
  obtain ⟨hirq, h⟩ := modeMessage_inj h
  obtain ⟨hsvc, h⟩ := modeMessage_inj h
  obtain ⟨hund, h⟩ := modeMessage_inj h
  obtain ⟨hsys, h⟩ := modeMessage_inj h
  exact ⟨⟨hfiq, hirq, hsvc, hund, hsys⟩, h⟩

theorem SameBanks.faultStack_eq (h : SameBanks regs regs') (spsr : Word) :
    faultStack spsr regs = faultStack spsr regs' := by
  obtain ⟨hfiq, hirq, hsvc, hund, hsys⟩ := h
  rw [faultStack, faultStack, hfiq, hirq, hsvc, hund, hsys]

/-- The first line tells the exception. -/
theorem message_inj {f f' : Fault} (h : f.message ++ rest = f'.message ++ rest') : f = f' := by
  have htake : ∀ (f : Fault) (rest : List UInt8), (f.message ++ rest).take 3 = f.message.take 3 := by
    intro f rest
    cases f <;> rfl
  have heq : f.message.take 3 = f'.message.take 3 := by rw [← htake f rest, h, htake]
  have hinj : ∀ f f' : Fault, f.message.take 3 = f'.message.take 3 → f = f' := by
    intro f f'
    cases f <;> cases f' <;> decide
  exact hinj f f' heq

end Lines

/-! ### On the console -/

section Console

variable {frame frame' : FaultFrame} {regs regs' : ModeRegs} {m m' : ℕ → UInt8}

theorem plain_labelled (labels : List (List UInt8)) (ws : List Word) (hws : ws.length = labels.length)
    (hclean : ∀ p ∈ labelled labels, p.Clean) (hlen : textLength (labelled labels) ≤ 255) :
    PlainMessage (labelled labels, ws.map .word) :=
  plain_words ws (tellsWords_labelled labels) hws hclean hlen

theorem plain_frameMessages (hr : frame.r.length = 13) : ∀ msg ∈ frameMessages frame, PlainMessage msg := by
  intro msg hmsg
  simp only [frameMessages, List.mem_cons, List.not_mem_nil, or_false] at hmsg
  rcases hmsg with rfl | rfl | rfl | rfl | rfl
  all_goals exact plain_labelled _ _ (by simp [hr]) (by decide) (by decide)

theorem plain_modeMessage (spsr md : Word) {name : List UInt8} (hname : name.length ≤ 3) (hnul : 0 ∉ name)
    (r : Word × Word) : PlainMessage (modeMessage spsr md name r) := by
  obtain ⟨hok, hlen, hwords⟩ := denote_words [r.1, r.2] tellsWords_bankWords rfl (by decide)
  refine ⟨⟨⟨by decide, trivial⟩, ⟨by decide, trivial⟩, hok⟩, ?_, ?_⟩
  · rw [modeMessage_text, List.length_append, List.length_append, hlen]
    have hbank : textLength bankWords = 31 := by decide
    rw [List.length_singleton, hbank]
    omega
  · rw [modeMessage_text, List.mem_append, List.mem_append, List.mem_singleton]
    refine not_or.mpr ⟨?_, not_or.mpr ⟨hnul, hwords⟩⟩
    split <;> decide

theorem plain_modeMessages (spsr : Word) (regs : ModeRegs) : ∀ msg ∈ modeMessages spsr regs, PlainMessage msg := by
  intro msg hmsg
  simp only [modeMessages, List.mem_cons, List.not_mem_nil, or_false] at hmsg
  rcases hmsg with rfl | rfl | rfl | rfl | rfl
  all_goals exact plain_modeMessage _ _ (by decide) (by decide) _

theorem tellsWords_stackMessage (stack : Word) : TellsWords (stackMessage stack).1 1 := ⟨.inl rfl, rfl⟩

theorem plain_stackMessages {fuel : ℕ} {stack : Word} {ms : List Message}
    (h : stackMessages m fuel stack = some ms) : ∀ msg ∈ ms, PlainMessage msg := by
  unfold stackMessages at h
  split at h
  · cases h
    exact fun msg hmsg => absurd hmsg List.not_mem_nil
  · obtain ⟨rows, hrows, rfl⟩ := Option.map_eq_some_iff.mp h
    rw [(dump_returns_iff _ _ _).2 _ _ hrows]
    refine List.forall_mem_cons.mpr ⟨?_, plain_dumpRows (plain_hexdumpRow m) _ _⟩
    exact plain_words [stack] (tellsWords_stackMessage stack) rfl (by decide) (by decide)

theorem plain_message (f : Fault) : PlainMessage ([.text f.message], []) := by
  cases f <;> exact ⟨⟨by decide, by decide, trivial⟩, by decide, by decide⟩

/-- A report, line by line. -/
theorem textOf_faultReport {fuel : ℕ} {f : Fault} {ms : List Message} (hr : frame.r.length = 13)
    (h : faultReport m fuel f frame regs = some ms) :
    (∀ msg ∈ ms, PlainMessage msg) ∧ ∃ stack, stackMessages m fuel (faultStack frame.spsr regs) = some stack ∧
      textOf ms = f.message ++ (textOf (frameMessages frame) ++
        (textOf (modeMessages frame.spsr regs) ++ textOf stack)) := by
  obtain ⟨frames, hframes, rfl⟩ := Option.map_eq_some_iff.mp h
  obtain ⟨stack, hstack, rfl⟩ := Option.map_eq_some_iff.mp hframes
  refine ⟨?_, stack, hstack, ?_⟩
  · refine List.forall_mem_cons.mpr ⟨plain_message f, fun msg hmsg => ?_⟩
    rcases List.mem_append.mp hmsg with hmsg | hmsg
    · rcases List.mem_append.mp hmsg with hmsg | hmsg
      · exact plain_frameMessages hr msg hmsg
      · exact plain_modeMessages _ _ msg hmsg
    · exact plain_stackMessages hstack msg hmsg
  · have htext : Message.text ([.text f.message], []) = f.message := List.append_nil _
    rw [textOf_cons, textOf_append, textOf_append, htext, List.append_assoc]

/-- The dumps of two stacks. -/
theorem stackMessages_inj {fuel fuel' : ℕ} {stack : Word} {ms ms' : List Message} (hstack : stack ≠ 0)
    (ha : Aligned stack) (h : stackMessages m fuel stack = some ms) (h' : stackMessages m' fuel' stack = some ms')
    (heq : textOf ms = textOf ms') :
    ∀ i < 128, m (stack + BitVec.ofNat 32 i).toNat = m' (stack + BitVec.ofNat 32 i).toNat := by
  rw [stackMessages, if_neg hstack] at h h'
  obtain ⟨rows, hrows, rfl⟩ := Option.map_eq_some_iff.mp h
  obtain ⟨rows', hrows', rfl⟩ := Option.map_eq_some_iff.mp h'
  rw [textOf_cons, textOf_cons, (dump_returns_iff _ _ _).2 _ _ hrows, (dump_returns_iff _ _ _).2 _ _ hrows'] at heq
  exact (rowTells_hexdump.dumpRows _ _ ha ha (List.append_cancel_left heq)).2.2

/-- **The report tells the fault**: if what two fatal exceptions print to the console is the same, then they
are the same exception, their frames are the same, so are the registers of all modes but abort mode, and so
are the bottoms of their stacks. -/
theorem fault_report_tells {f f' : Fault} (hr : frame.r.length = 13) (hr' : frame'.r.length = 13)
    {fuel fuel' : ℕ} {ms ms' : List Message} (h : faultReport m fuel f frame regs = some ms)
    (h' : faultReport m' fuel' f' frame' regs' = some ms') {out : List UInt8} (hout : Prints ms out)
    (hout' : Prints ms' out) :
    f = f' ∧ frame = frame' ∧ SameBanks regs regs' ∧
      (faultStack frame.spsr regs ≠ 0 → Aligned (faultStack frame.spsr regs) → ∀ i < 128,
        m (faultStack frame.spsr regs + BitVec.ofNat 32 i).toNat =
          m' (faultStack frame.spsr regs + BitVec.ofNat 32 i).toNat) := by
  obtain ⟨hplain, stack, hstack, htext⟩ := textOf_faultReport hr h
  obtain ⟨hplain', stack', hstack', htext'⟩ := textOf_faultReport hr' h'
  have heq := ((prints_iff hplain).mp hout).symm.trans ((prints_iff hplain').mp hout')
  rw [htext, htext'] at heq
  have hf := message_inj heq
  subst hf
  obtain ⟨rfl, heq⟩ := frameMessages_inj hr hr' (List.append_cancel_left heq)
  obtain ⟨hbanks, heq⟩ := modeMessages_inj heq
  rw [← hbanks.faultStack_eq] at hstack'
  exact ⟨rfl, rfl, hbanks, fun hne ha => stackMessages_inj hne ha hstack hstack' heq⟩

end Console

/-- The frame of a system call in supervisor mode. -/
def syscallFrame : FaultFrame where
  spsr := 0x13
  usp := 0
  ulr := 0
  r := List.replicate 13 7
  pc := 0x8000

/-- The banks at that call. -/
def syscallBanks : ModeRegs where
  fiq := (0, 0)
  irq := (0x1000, 0)
  svc := (0x2000, 0x8004)
  abt := (0x3000, 0)
  und := (0x4000, 0)
  sys := (0, 0)

theorem fault_report_tells_syscall : ∃ ms out, faultReport (fun _ => 0) 9 .syscall syscallFrame syscallBanks = some ms ∧
    Prints ms out ∧ SameBanks syscallBanks syscallBanks := by
  obtain ⟨ms, hms⟩ : ∃ ms, faultReport (fun _ => 0) 9 .syscall syscallFrame syscallBanks = some ms := ⟨_, rfl⟩
  have hout : Prints ms (textOf ms) := (prints_iff (textOf_faultReport rfl hms).1).mpr rfl
  exact ⟨ms, textOf ms, hms, hout, (fault_report_tells rfl rfl hms hms hout hout).2.2.1⟩

end YakOS
