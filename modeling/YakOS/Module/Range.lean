import YakOS.Module.Resolve
import YakOS.Module.Target

/-!
# Branches out of reach

A branch has 24 bits of offset in words, a Thumb call 22 in halfwords.  `apply_relocate`
masks a displacement that does not fit: with a Thumb call it reports it on the console, with
the branches of ARM code it does not look.  There is an error code for it that nothing
returns.  The only pair that is refused is a call from Thumb to ARM code on ARMv4T, which
has no `BLX`.

## Main definitions

* `OutOfReach` — a displacement that the instruction does not hold.
* `NoBlx` — the calls that are refused, far or near.
* `LoadCall.Far` — a relocation of an image that is out of reach.

## Main results

* `patchWord_error_iff` — when a relative relocation is refused.
* `far_relocation_rejected_iff` — **when a relocation out of reach is.**
-/

namespace YakOS.Module

open Bytes (chars)

variable {arch4T : Bool} {type : BitVec 8} {word place addr : BitVec 32}

/-- The displacement of a relative relocation. -/
def displacement (type : BitVec 8) (word place addr : BitVec 32) : ℤ :=
  if type = 10 then thumbDisplacement place addr else armDisplacement word place addr

/-- How far an instruction reaches. -/
def reach (type : BitVec 8) : ℤ := if type = 10 then 2 ^ 22 else 2 ^ 25

/-- A relative relocation whose displacement does not fit the immediate of its instruction. -/
structure OutOfReach (type : BitVec 8) (word place addr : BitVec 32) : Prop where
  relative : relative type = true
  far : ¬ (-reach type ≤ displacement type word place addr ∧
    displacement type word place addr < reach type)

instance : Decidable (OutOfReach type word place addr) :=
  decidable_of_iff (relative type = true ∧ ¬ (-reach type ≤ displacement type word place addr ∧
    displacement type word place addr < reach type)) ⟨fun h => ⟨h.1, h.2⟩, fun h => ⟨h.1, h.2⟩⟩

/-- A Thumb call to ARM code on a target without `BLX`. -/
structure NoBlx (arch4T : Bool) (type : BitVec 8) (word addr : BitVec 32) : Prop where
  type_eq : type = 10
  target : arch4T = true
  pair : (word >>> 16).setWidth 16 &&& 0xe800#16 = 0xe800#16
  arm : addr &&& 1 = 0

theorem patchThmCall_error_iff {stop : Stop} :
    patchThmCall arch4T word place addr = .error stop ↔
      stop = .error .unhandledReloc ∧ NoBlx arch4T 10 word addr := by
  unfold patchThmCall
  by_cases hpair : (word >>> 16).setWidth 16 &&& 0xe800#16 = 0xe800#16
  · by_cases harm : addr &&& 1 = 0
    · cases arch4T with
      | true =>
        simp only [if_pos hpair, harm, ne_eq, not_true_eq_false, if_false, if_true]
        exact ⟨fun h => ⟨(Except.error.inj h).symm, rfl, rfl, hpair, harm⟩, fun h => h.1 ▸ rfl⟩
      | false =>
        simp only [if_pos hpair, harm, ne_eq, not_true_eq_false, if_false, Bool.false_eq_true]
        exact iff_of_false nofun fun h => absurd h.2.target Bool.false_ne_true
    · simp only [if_pos hpair, ne_eq, harm, not_false_eq_true, if_true]
      exact iff_of_false nofun fun h => harm h.2.arm
  · simp only [if_neg hpair]
    exact iff_of_false nofun fun h => hpair h.2.pair

/-- **A relative relocation is refused** only where there is no `BLX`, in reach or not. -/
theorem patchWord_error_iff (h : relative type = true) {stop : Stop} :
    patchWord arch4T type word place addr = .error stop ↔
      stop = .error .unhandledReloc ∧ NoBlx arch4T type word addr := by
  rcases relative_iff.mp h with harm | rfl
  · rw [patchWord_of_arm harm]
    refine iff_of_false nofun ?_
    intro h
    rw [h.2.type_eq] at harm
    exact absurd harm (by decide)
  · exact patchThmCall_error_iff

/-! ### Loading -/

namespace LoadCall

variable {c : LoadCall} {t : SegType} {r : Rela} {a : BitVec 32}

/-- The relocation is to the address `a`, out of reach of its instruction. -/
structure Far (c : LoadCall) (t : SegType) (r : Rela) (a : BitVec 32) : Prop where
  mem : r ∈ c.table t
  address : symbolAddress c.kernel c.info c.seg r = .ok a
  out : OutOfReach r.type (c.info.word t r) (c.address t + r.rOffset) a

/-- What `apply_relocate` does with it. -/
def apply (c : LoadCall) (output : KModule) (t : SegType) (r : Rela) (a : BitVec 32) :
    Except Stop KModule :=
  applyRelocate c.arch4T c.info.file output (c.info.secInfo t.sec).sOffset (c.address t) r a

theorem apply_eq (output : KModule) : c.apply output t r a =
    (patchWord c.arch4T r.type (c.info.word t r) (c.address t + r.rOffset) a).map fun w =>
      (writeSegment output (Bytes.le32 w.toNat)).2 := by
  unfold apply applyRelocate
  rw [word_eq]
  show (patchWord c.arch4T r.type (c.info.word t r) (c.address t + r.rOffset) a >>= _) = _
  cases patchWord c.arch4T r.type (c.info.word t r) (c.address t + r.rOffset) a <;> rfl

/-- `apply_relocate` returns an error for a relocation out of reach where there is no `BLX`. -/
theorem Far.apply_error_iff (h : c.Far t r a) (output : KModule) :
    (∃ e, c.apply output t r a = .error (.error e)) ↔
      NoBlx c.arch4T r.type (c.info.word t r) a := by
  rw [apply_eq]
  constructor
  · rintro ⟨e, he⟩
    cases hw : patchWord c.arch4T r.type (c.info.word t r) (c.address t + r.rOffset) a with
    | ok w =>
      rw [hw] at he
      cases he
    | error stop => exact ((patchWord_error_iff h.out.relative).mp hw).2
  · intro hno
    refine ⟨.unhandledReloc, ?_⟩
    rw [(patchWord_error_iff h.out.relative).mpr ⟨rfl, hno⟩]
    rfl

/-- The module is not loaded then. -/
theorem Far.not_ok (h : c.Far t r a) (hno : NoBlx c.arch4T r.type (c.info.word t r) a)
    (res : KModule × BitVec 32) : c.run ≠ .ok res := by
  intro hrun
  obtain ⟨-, hreloc, -⟩ := c.run_ok_iff.mp ⟨res, hrun⟩
  obtain ⟨w, b, hb, hw⟩ := (hreloc t).2 r h.mem
  obtain rfl := Except.ok.inj (h.address.symm.trans hb)
  rw [(patchWord_error_iff h.out.relative).mpr ⟨rfl, hno⟩] at hw
  cases hw

end LoadCall

/-- **A relocation out of reach is rejected** exactly when it is a Thumb call to ARM code on
ARMv4T. -/
theorem far_relocation_rejected_iff (c : LoadCall) (output : KModule) (t : SegType) (r : Rela)
    (a : BitVec 32) (h : c.Far t r a) :
    ((∃ e, c.apply output t r a = .error (.error e)) ∧ ∀ res, c.run ≠ .ok res) ↔
      NoBlx c.arch4T r.type (c.info.word t r) a :=
  ⟨fun hrej => (h.apply_error_iff output).mp hrej.1,
    fun hno => ⟨(h.apply_error_iff output).mpr hno, h.not_ok hno⟩⟩

/-- An image whose text calls `printk`: with `R_ARM_CALL`, or with `R_ARM_THM_CALL`. -/
def callImage (type : BitVec 8) (instr : List UInt8) : BitVec 32 → UInt8 :=
  memoryAt 0x30100000 <|
    imageBytes [⟨0, 0, 0⟩, ⟨1, 304, 4⟩, ⟨7, 308, 8⟩, ⟨17, 316, 48⟩, ⟨25, 252, 50⟩] 4
      (0 :: chars ".text" ++ 0 :: chars ".rel.text" ++ 0 :: chars ".symtab" ++ 0 :: chars ".strtab" ++
        0 :: chars "printk" ++ 0 :: chars "mod_entry" ++ [0, 0, 0] ++
        instr ++ relaBytes 0 (0x100 + type.setWidth 32) ++
        Elf32Sym.bytes ⟨0, 0, 0⟩ ++ Elf32Sym.bytes ⟨33, 0, 0⟩ ++ Elf32Sym.bytes ⟨40, 0, 1⟩)

/-- The call that loads it to `0x33000000`, more than 32M from the kernel. -/
def loadCallImage (arch4T : Bool) (type : BitVec 8) (instr : List UInt8) : LoadCall :=
  ⟨arch4T, printkKernel, fun _ => 0x33000000, callImage type instr, 0x30100000, allocKmodule fun _ => 0⟩

/-- The sections of the image. -/
def callRecord (type : BitVec 8) (instr : List UInt8) : LoadInfo :=
  ⟨callImage type instr, 0x30100000, fun k => [⟨304, 4, 308, 8, 0, 1⟩, ⟨0, 0, 0, 0, 0, 0⟩, ⟨0, 0, 0, 0, 0, 0⟩,
    ⟨316, 48, 0, 0, 0, 0⟩, ⟨252, 50, 0, 0, 0, 0⟩, ⟨0, 0, 0, 0, 0, 0⟩].getD k default⟩

/-- The relocation is out of reach as soon as the record of the image says so. -/
theorem far_loadCallImage {type : BitVec 8} {instr : List UInt8} {r : Rela} {a : BitVec 32}
    (hinfo : (loadCallImage arch4T type instr).info = callRecord type instr)
    (hmem : r ∈ relocTable (callRecord type instr) .text (usingRelas (callRecord type instr) .text))
    (haddr : symbolAddress printkKernel (callRecord type instr)
      (setSegInfo (fun _ => 0x33000000) (callRecord type instr) (allocKmodule fun _ => 0)).segInfo r
        = .ok a)
    (hout : OutOfReach r.type ((callRecord type instr).word .text r) (0x33000000 + r.rOffset) a) :
    (loadCallImage arch4T type instr).Far .text r a := by
  have hseg : (loadCallImage arch4T type instr).seg
      = (setSegInfo (fun _ => 0x33000000) (callRecord type instr) (allocKmodule fun _ => 0)).segInfo := by
    rw [← hinfo]
    rfl
  refine ⟨?_, ?_, ?_⟩
  · unfold LoadCall.table
    rw [hinfo]
    exact hmem
  · rw [hinfo, hseg]
    exact haddr
  · unfold LoadCall.address
    rw [hinfo, hseg]
    exact hout

/-- `R_ARM_CALL` from there to the kernel is out of reach, and is patched. -/
theorem far_call_loaded :
    ¬ ∀ (c : LoadCall) (output : KModule) (t : SegType) (r : Rela) (a : BitVec 32), c.Far t r a →
      (∃ e, c.apply output t r a = .error (.error e)) ∧ ∀ res, c.run ≠ .ok res := by
  intro h
  have hfar : (loadCallImage false 28 [0xfe, 0xff, 0xff, 0xeb]).Far .text ⟨0, 0x11c, .text, 0⟩
      0x30010000 :=
    far_loadCallImage (recorded_eq (by decide +kernel)) (by decide +kernel) (by decide +kernel)
      (by decide +kernel)
  have hload : (loadCallImage false 28 [0xfe, 0xff, 0xff, 0xeb]).run.toOption.isSome = true := by
    decide +kernel
  obtain ⟨res, hres⟩ := Option.isSome_iff_exists.mp hload
  exact (h _ noModule .text _ _ hfar).2 res (eq_ok_of_toOption hres)

/-- `R_ARM_THM_CALL` is rejected there on ARMv4T. -/
theorem far_relocation_rejected_iff_armv4t :
    ¬ ∃ res, (loadCallImage true 10 [0xff, 0xf7, 0xfe, 0xff]).run = .ok res :=
  not_exists.mpr ((far_relocation_rejected_iff (loadCallImage true 10 [0xff, 0xf7, 0xfe, 0xff]) noModule
    .text ⟨0, 0x10a, .text, 0⟩ 0x30010000
    (far_loadCallImage (recorded_eq (by decide +kernel)) (by decide +kernel) (by decide +kernel)
      (by decide +kernel))).mpr ⟨by decide, rfl, by decide +kernel, by decide⟩).2

end YakOS.Module
