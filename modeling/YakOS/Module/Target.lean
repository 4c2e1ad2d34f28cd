import YakOS.Lib.Bitops
import YakOS.Module.Segment

/-!
# Where a patched instruction leads

`apply_relocate` patches three formats: a word with an address, the branch of ARM code
with 24 bits of offset in words, and the pair of halfwords of a Thumb call, with 11 bits
of offset each.  A call to ARM code becomes a `BLX`, whose offset counts from the word
that its place lies in.  This module reads the formats back.

## Main definitions

* `armOffset`, `thumbOffset` — the offset that an instruction holds.
* `armDisplacement`, `thumbDisplacement` — the offset that it should hold.
* `ThumbCall`, `IsBl`, `IsBlx` — the calls of Thumb code.
* `Hits` — a patched word leads to the address it was patched for.

## Main results

* `armOffset_patchPc24`, `thumb_bl`, `thumb_blx` — the formats, one by one.
* `apply_relocate_hits` — **the word that `apply_relocate` writes leads to the address.**
-/

namespace YakOS.Module

open Bitops

/-! ### Branches of ARM code -/

/-- The offset of a branch, its signed immediate times 4. -/
def armOffset (w : BitVec 32) : ℤ := 4 * (w.extractLsb' 0 24).toInt

/-- `S + A - P` for a branch at `place` with the addend of `word`, as a signed number. -/
def armDisplacement (word place addr : BitVec 32) : ℤ :=
  (addr + BitVec.ofInt 32 (armOffset word) - place).toInt

/-- The immediate of a patched branch is the sum, in words. -/
theorem extract_patchPc24 (word place addr : BitVec 32) :
    (patchPc24 word place addr).extractLsb' 0 24
      = (((word &&& 0x00ffffff#32) <<< 2) + (addr - place)).extractLsb' 2 24 := by
  unfold patchPc24
  simp only
  rw [BitVec.extractLsb'_or, extractLsb'_and_of_zero (by decide), extractLsb'_and_of_ones (by decide),
    BitVec.zero_or, extractLsb'_sshiftRight _ (by decide)]

/-- Its top byte is left alone. -/
theorem top_patchPc24 (word place addr : BitVec 32) :
    (patchPc24 word place addr).extractLsb' 24 8 = word.extractLsb' 24 8 := by
  unfold patchPc24
  simp only
  rw [BitVec.extractLsb'_or, extractLsb'_and_of_ones (by decide), extractLsb'_and_of_zero (by decide),
    BitVec.or_zero]

/-- The immediate is taken without its sign, which does not matter modulo `2 ^ 26`. -/
theorem armOffset_emod (word : BitVec 32) :
    armOffset word % 67108864 = 4 * (word.toNat % 16777216) := by
  unfold armOffset
  rw [BitVec.toInt_eq_toNat_cond, BitVec.extractLsb'_toNat, Nat.shiftRight_zero]
  omega

theorem toInt_emod (x : BitVec 32) : x.toInt % 67108864 = (x.toNat : ℤ) % 67108864 := by
  rw [BitVec.toInt_eq_toNat_cond]
  split <;> omega

theorem toNat_sum_emod (word place addr : BitVec 32) :
    ((((word &&& 0x00ffffff#32) <<< 2) + (addr - place)).toNat : ℤ) % 67108864
      = armDisplacement word place addr % 67108864 := by
  have himm : (word &&& 0x00ffffff#32).toNat = word.toNat % 2 ^ 24 := by
    rw [BitVec.toNat_and]
    exact Nat.and_two_pow_sub_one_eq_mod _ 24
  have hoff := armOffset_emod word
  unfold armDisplacement
  rw [toInt_emod]
  simp only [BitVec.toNat_add, BitVec.toNat_sub, BitVec.toNat_shiftLeft, BitVec.toNat_ofInt, himm,
    Nat.shiftLeft_eq]
  omega

/-- **A patched branch holds the displacement**, when it is a number of words in reach. -/
theorem armOffset_patchPc24 {word place addr : BitVec 32}
    (hmul : (4 : ℤ) ∣ armDisplacement word place addr)
    (hlow : -2 ^ 25 ≤ armDisplacement word place addr)
    (hhigh : armDisplacement word place addr < 2 ^ 25) :
    armOffset (patchPc24 word place addr) = armDisplacement word place addr := by
  have hsum := toNat_sum_emod word place addr
  unfold armOffset
  rw [extract_patchPc24, BitVec.toInt_eq_toNat_cond, BitVec.extractLsb'_toNat,
    Nat.shiftRight_eq_div_pow]
  omega

/-! ### Calls of Thumb code -/

/-- The offset of a pair: the immediate of its first halfword, and that of the second below. -/
def thumbOffset (w : BitVec 32) : ℤ :=
  (w.extractLsb' 0 11 ++ w.extractLsb' 16 11 ++ 0#1 : BitVec 23).toInt

/-- A pair of halfwords that is a `BL` or a `BLX`; instructions lie at even addresses. -/
structure ThumbCall (word place : BitVec 32) : Prop where
  aligned : place.toNat % 2 = 0
  first : word.extractLsb' 11 5 = 0b11110#5
  second : word.extractLsb' 27 5 = 0b11111#5 ∨ word.extractLsb' 27 5 = 0b11101#5

/-- A `BL`. -/
structure IsBl (w : BitVec 32) : Prop where
  first : w.extractLsb' 11 5 = 0b11110#5
  second : w.extractLsb' 27 5 = 0b11111#5

/-- A `BLX`: its offset is a number of words. -/
structure IsBlx (w : BitVec 32) : Prop where
  first : w.extractLsb' 11 5 = 0b11110#5
  second : w.extractLsb' 27 5 = 0b11101#5
  words : (4 : ℤ) ∣ thumbOffset w

/-- What a `BLX` counts from: the word that the program counter lies in. -/
def wordBase (place : BitVec 32) : BitVec 32 := (place + 4) >>> 2 <<< 2

/-- The target of a `BL`. -/
def blTarget (place w : BitVec 32) : BitVec 32 := place + 4 + BitVec.ofInt 32 (thumbOffset w)

/-- The target of a `BLX`. -/
def blxTarget (place w : BitVec 32) : BitVec 32 := wordBase place + BitVec.ofInt 32 (thumbOffset w)

/-- The offset from a call to an address: the odd ones are in Thumb code. -/
def thumbDisplacement (place addr : BitVec 32) : ℤ :=
  if addr.toNat % 2 = 1 then (addr - (place + 4)).toInt else (addr - wordBase place).toInt

/-- A halfword with 11 bits of an offset. -/
def withOffset (instr : BitVec 16) (offset : BitVec 32) (n : ℕ) : BitVec 16 :=
  (instr &&& 0xf800#16) ||| ((offset.sshiftRight n) &&& 0x07ff#32).setWidth 16

theorem extract_withOffset (instr : BitVec 16) (offset : BitVec 32) {n : ℕ} (hn : n ≤ 12) :
    (withOffset instr offset n).extractLsb' 0 11 = offset.extractLsb' n 11 := by
  unfold withOffset
  rw [BitVec.extractLsb'_or, extractLsb'_and_of_zero (by decide), BitVec.zero_or,
    BitVec.extractLsb'_setWidth_of_le (by decide), extractLsb'_and_of_ones (by decide),
    extractLsb'_sshiftRight _ (by omega), Nat.zero_add]

theorem opcode_withOffset (instr : BitVec 16) (offset : BitVec 32) (n : ℕ) :
    (withOffset instr offset n).extractLsb' 11 5 = instr.extractLsb' 11 5 := by
  unfold withOffset
  rw [BitVec.extractLsb'_or, extractLsb'_and_of_ones (by decide),
    BitVec.extractLsb'_setWidth_of_le (by decide), extractLsb'_and_of_zero (by decide), BitVec.or_zero]

/-- A pair holds the lower 23 bits of its offset, without the lowest one. -/
theorem thumbOffset_append (instr0 instr1 : BitVec 16) {offset : BitVec 32}
    (hlow : -2 ^ 22 ≤ offset.toInt) (hhigh : offset.toInt < 2 ^ 22) :
    thumbOffset (withOffset instr1 offset 1 ++ withOffset instr0 offset 12)
      = offset.toInt / 2 * 2 := by
  have hbits : (offset.extractLsb' 12 11 ++ offset.extractLsb' 1 11 ++ 0#1 : BitVec 23).toNat
      = offset.toNat / 2 % 2 ^ 22 * 2 := by
    rw [BitVec.extractLsb'_append_extractLsb'_eq_extractLsb' (by decide), BitVec.toNat_append,
      BitVec.extractLsb'_toNat, Nat.shiftRight_eq_div_pow, Nat.shiftLeft_eq]
    exact Nat.or_zero _
  unfold thumbOffset
  rw [BitVec.extractLsb'_append_eq_of_add_le (by decide),
    BitVec.extractLsb'_append_eq_of_le (by decide), extract_withOffset _ _ (by decide),
    extract_withOffset _ _ (by decide), BitVec.toInt_eq_toNat_cond, hbits]
  rw [BitVec.toInt_eq_toNat_cond] at hlow hhigh ⊢
  omega

/-- The opcodes of a pair. -/
theorem opcodes_append (instr0 instr1 : BitVec 16) (offset : BitVec 32) :
    (withOffset instr1 offset 1 ++ withOffset instr0 offset 12).extractLsb' 11 5
        = instr0.extractLsb' 11 5 ∧
      (withOffset instr1 offset 1 ++ withOffset instr0 offset 12).extractLsb' 27 5
        = instr1.extractLsb' 11 5 := by
  rw [BitVec.extractLsb'_append_eq_of_add_le (by decide),
    BitVec.extractLsb'_append_eq_of_le (by decide), opcode_withOffset, opcode_withOffset]
  exact ⟨rfl, rfl⟩

/-- A halfword is its opcode and its 11 bits of an offset. -/
theorem halfword_eq_iff {x y : BitVec 16} :
    x = y ↔ x.extractLsb' 11 5 = y.extractLsb' 11 5 ∧ x.extractLsb' 0 11 = y.extractLsb' 0 11 := by
  constructor
  · rintro rfl
    exact ⟨rfl, rfl⟩
  · rintro ⟨htop, hlow⟩
    rw [← @BitVec.extractLsb'_append_extractLsb' 5 11 x, htop, hlow]
    exact BitVec.extractLsb'_append_extractLsb'

/-- A mask of the opcode is tested on the opcode alone. -/
theorem mask_eq_iff {m v : BitVec 16} (hm : m.extractLsb' 0 11 = 0#11) (hv : v.extractLsb' 0 11 = 0#11)
    (x : BitVec 16) :
    x &&& m = v ↔ x.extractLsb' 11 5 &&& m.extractLsb' 11 5 = v.extractLsb' 11 5 := by
  rw [halfword_eq_iff, BitVec.extractLsb'_and, extractLsb'_and_of_zero hm, hv, and_iff_left rfl]

theorem second_halfword (word : BitVec 32) :
    ((word >>> 16).setWidth 16).extractLsb' 11 5 = word.extractLsb' 27 5 := by
  rw [BitVec.extractLsb'_setWidth_of_le (by decide), extractLsb'_ushiftRight]

theorem first_halfword (word : BitVec 32) :
    (word.setWidth 16).extractLsb' 11 5 = word.extractLsb' 11 5 :=
  BitVec.extractLsb'_setWidth_of_le (by decide)

/-- A call of Thumb code is patched to a `BL`, -/
theorem patchThmCall_of_odd {word place addr : BitVec 32} (h : ThumbCall word place)
    (hodd : addr &&& 1 ≠ 0) :
    patchThmCall false word place addr =
      .ok (withOffset ((word >>> 16).setWidth 16 ||| 0x1800#16) (addr - (place + 4)) 1 ++
        withOffset (word.setWidth 16) (addr - (place + 4)) 12) := by
  have hpair : (word >>> 16).setWidth 16 &&& 0xe800#16 = 0xe800#16 := by
    rw [mask_eq_iff (by decide) (by decide), second_halfword]
    rcases h.second with h | h <;> rw [h] <;> decide
  have hbl : ¬ ((word >>> 16).setWidth 16 ||| 0x1800#16) &&& 0x1800#16 = 0x0800#16 := by
    rw [mask_eq_iff (by decide) (by decide), BitVec.extractLsb'_or, second_halfword]
    rcases h.second with h | h <;> rw [h] <;> decide
  unfold patchThmCall
  simp only [if_pos hpair, if_pos hodd]
  show Except.ok _ = _
  simp only [if_neg hbl]
  rfl

/-- and one of ARM code to a `BLX`, whose address takes bit 1 of the place. -/
theorem patchThmCall_of_even {word place addr : BitVec 32} (h : ThumbCall word place)
    (heven : addr &&& 1 = 0) :
    patchThmCall false word place addr =
      .ok (withOffset ((word >>> 16).setWidth 16 &&& ~~~0x1800#16 ||| 0x0800#16)
          (((addr &&& 0xfffffffd#32) ||| ((place + 4) &&& 2)) - (place + 4)) 1 ++
        withOffset (word.setWidth 16)
          (((addr &&& 0xfffffffd#32) ||| ((place + 4) &&& 2)) - (place + 4)) 12) := by
  have hpair : (word >>> 16).setWidth 16 &&& 0xe800#16 = 0xe800#16 := by
    rw [mask_eq_iff (by decide) (by decide), second_halfword]
    rcases h.second with h | h <;> rw [h] <;> decide
  have hblx : ((word >>> 16).setWidth 16 &&& ~~~0x1800#16 ||| 0x0800#16) &&& 0x1800#16 = 0x0800#16 := by
    rw [mask_eq_iff (by decide) (by decide), BitVec.extractLsb'_or, BitVec.extractLsb'_and,
      second_halfword]
    rcases h.second with h | h <;> rw [h] <;> decide
  unfold patchThmCall
  simp only [if_pos hpair, heven, ne_eq, not_true_eq_false, if_false, Bool.false_eq_true]
  show Except.ok _ = _
  simp only [if_pos hblx]
  rfl

theorem and_one_eq_zero_iff (x : BitVec 32) : x &&& 1 = 0 ↔ x.toNat % 2 = 0 := by
  rw [← BitVec.toNat_inj, BitVec.toNat_and]
  exact (Nat.and_one_is_mod x.toNat).congr_left

theorem add_four_even {place : BitVec 32} (h : place.toNat % 2 = 0) : (place + 4).toNat % 2 = 0 := by
  show (place + 4#32).toNat % 2 = 0
  rw [BitVec.toNat_add, BitVec.toNat_ofNat]
  omega

/-- From an even address, an offset without its lowest bit leads to an address without it. -/
theorem add_ofInt_half (base addr : BitVec 32) (h : base.toNat % 2 = 0) :
    base + BitVec.ofInt 32 ((addr - base).toInt / 2 * 2) = addr >>> 1 <<< 1 := by
  rw [← BitVec.toNat_inj, BitVec.toInt_eq_toNat_cond]
  simp only [BitVec.toNat_add, BitVec.toNat_sub, BitVec.toNat_ofInt, BitVec.toNat_shiftLeft,
    BitVec.toNat_ushiftRight, Nat.shiftLeft_eq, Nat.shiftRight_eq_div_pow]
  omega

/-- The second bit of a word. -/
theorem getLsbD_one (x : BitVec 32) : x.getLsbD 1 = decide (x.toNat / 2 % 2 = 1) :=
  Nat.testBit_eq_decide_div_mod_eq

theorem toNat_and_two (x : BitVec 32) : (x &&& 2).toNat = x.toNat / 2 % 2 * 2 := by
  have hbit : x &&& 2 = if x.getLsbD 1 then BitVec.twoPow 32 1 else 0#32 := BitVec.and_twoPow x 1
  rw [hbit]
  split
  next h =>
    rw [getLsbD_one, decide_eq_true_eq] at h
    rw [h]
    rfl
  next h =>
    rw [getLsbD_one, decide_eq_true_eq, Nat.mod_two_not_eq_one] at h
    rw [h]
    rfl

/-- The address of a word keeps its bits without the second one. -/
theorem and_not_two {addr : BitVec 32} (haddr : addr.toNat % 4 = 0) : addr &&& 0xfffffffd#32 = addr := by
  have hbit : addr.getLsbD 1 = false := by
    rw [getLsbD_one, decide_eq_false_iff_not]
    omega
  have hmask : 0xfffffffd#32 = ~~~BitVec.twoPow 32 1 := by decide
  rw [hmask]
  ext i hi
  rw [BitVec.getElem_and, BitVec.getElem_not, BitVec.getElem_twoPow]
  by_cases hone : i = 1
  · subst hone
    simpa [BitVec.getLsbD_eq_getElem] using hbit
  · simp [hone]

/-- The address of a `BLX` to a word, less the program counter, counts from its word. -/
theorem sub_wordBase {place addr : BitVec 32} (haligned : place.toNat % 2 = 0)
    (haddr : addr.toNat % 4 = 0) :
    ((addr &&& 0xfffffffd#32) ||| ((place + 4) &&& 2)) - (place + 4) = addr - wordBase place := by
  have hbase := add_four_even haligned
  unfold wordBase
  generalize place + 4 = base at hbase ⊢
  have hor : (addr ||| (base &&& 2)).toNat = addr.toNat + base.toNat / 2 % 2 * 2 := by
    rw [BitVec.toNat_or, toNat_and_two, ← Nat.mul_div_cancel' (Nat.dvd_of_mod_eq_zero haddr)]
    exact (Nat.two_pow_add_eq_or_of_lt (i := 2) (by omega) _).symm
  rw [and_not_two haddr, ← BitVec.toNat_inj]
  simp only [BitVec.toNat_sub, BitVec.toNat_shiftLeft, BitVec.toNat_ushiftRight, Nat.shiftLeft_eq,
    Nat.shiftRight_eq_div_pow, hor]
  omega

/-- **A call to Thumb code** is a `BL` to it. -/
theorem thumb_bl {word place addr : BitVec 32} (h : ThumbCall word place)
    (hodd : addr.toNat % 2 = 1) (hlow : -2 ^ 22 ≤ thumbDisplacement place addr)
    (hhigh : thumbDisplacement place addr < 2 ^ 22) :
    ∃ w, patchThmCall false word place addr = .ok w ∧ IsBl w ∧ blTarget place w = addr >>> 1 <<< 1 := by
  have hbit : addr &&& 1 ≠ 0 := by
    rw [ne_eq, and_one_eq_zero_iff]
    omega
  rw [thumbDisplacement, if_pos hodd] at hlow hhigh
  obtain ⟨hfirst, hsecond⟩ := opcodes_append (word.setWidth 16)
    ((word >>> 16).setWidth 16 ||| 0x1800#16) (addr - (place + 4))
  refine ⟨_, patchThmCall_of_odd h hbit, ⟨?_, ?_⟩, ?_⟩
  · rw [hfirst, first_halfword]
    exact h.first
  · rw [hsecond, BitVec.extractLsb'_or, second_halfword]
    rcases h.second with h | h <;> rw [h] <;> decide
  · rw [blTarget, thumbOffset_append _ _ hlow hhigh]
    exact add_ofInt_half _ _ (add_four_even h.aligned)

/-- **A call to a word of ARM code** is a `BLX` to it. -/
theorem thumb_blx {word place addr : BitVec 32} (h : ThumbCall word place)
    (haddr : addr.toNat % 4 = 0) (hlow : -2 ^ 22 ≤ thumbDisplacement place addr)
    (hhigh : thumbDisplacement place addr < 2 ^ 22) :
    ∃ w, patchThmCall false word place addr = .ok w ∧ IsBlx w ∧ blxTarget place w = addr := by
  have hbit : addr &&& 1 = 0 := by
    rw [and_one_eq_zero_iff]
    omega
  rw [thumbDisplacement, if_neg (by omega)] at hlow hhigh
  have hpatch := patchThmCall_of_even h hbit
  rw [sub_wordBase h.aligned haddr] at hpatch
  obtain ⟨hfirst, hsecond⟩ := opcodes_append (word.setWidth 16)
    ((word >>> 16).setWidth 16 &&& ~~~0x1800#16 ||| 0x0800#16) (addr - wordBase place)
  -- both ends are words, so that the offset is a multiple of 4
  have hwords : (4 : ℤ) ∣ (addr - wordBase place).toInt := by
    rw [BitVec.toInt_eq_toNat_cond, wordBase]
    simp only [BitVec.toNat_sub, BitVec.toNat_shiftLeft, BitVec.toNat_ushiftRight, Nat.shiftLeft_eq,
      Nat.shiftRight_eq_div_pow]
    omega
  have hoffset : (addr - wordBase place).toInt / 2 * 2 = (addr - wordBase place).toInt := by
    omega
  refine ⟨_, hpatch, ⟨?_, ?_, ?_⟩, ?_⟩
  · rw [hfirst, first_halfword]
    exact h.first
  · rw [hsecond, BitVec.extractLsb'_or, BitVec.extractLsb'_and, second_halfword]
    rcases h.second with h | h <;> rw [h] <;> decide
  · rw [thumbOffset_append _ _ hlow hhigh, hoffset]
    exact hwords
  · rw [blxTarget, thumbOffset_append _ _ hlow hhigh, hoffset, BitVec.ofInt_toInt]
    exact add_sub_cancel _ _

/-! ### The patched word -/

/-- The types of relocation that are patched relative to their place. -/
def relative (type : BitVec 8) : Bool := type == 1 || type == 28 || type == 29 || type == 10

/-- The word `w` leads to the address that `word` was to be patched for: it is the sum with
`R_ARM_ABS32`, and holds a displacement in reach with the relative types. -/
def Hits (type : BitVec 8) (word place addr w : BitVec 32) : Prop :=
  match type.toNat with
  | 2 => w = addr + word
  | 1 | 28 | 29 =>
      (4 : ℤ) ∣ armDisplacement word place addr → -2 ^ 25 ≤ armDisplacement word place addr →
        armDisplacement word place addr < 2 ^ 25 →
          armOffset w = armDisplacement word place addr ∧ w.extractLsb' 24 8 = word.extractLsb' 24 8
  | 10 =>
      ThumbCall word place → -2 ^ 22 ≤ thumbDisplacement place addr →
        thumbDisplacement place addr < 2 ^ 22 →
          (addr.toNat % 2 = 1 → IsBl w ∧ blTarget place w = addr >>> 1 <<< 1) ∧
            (addr.toNat % 4 = 0 → IsBlx w ∧ blxTarget place w = addr)
  | _ => True

theorem relative_iff {type : BitVec 8} :
    relative type = true ↔ (type = 1 ∨ type = 28 ∨ type = 29) ∨ type = 10 := by
  simp [relative, or_assoc]

/-- A branch of ARM code is always patched, and leads to the address. -/
theorem patchWord_of_arm {arch4T : Bool} {type : BitVec 8} (h : type = 1 ∨ type = 28 ∨ type = 29)
    (word place addr : BitVec 32) :
    patchWord arch4T type word place addr = .ok (patchPc24 word place addr) := by
  rcases h with rfl | rfl | rfl <;> rfl

theorem hits_of_arm {type : BitVec 8} (h : type = 1 ∨ type = 28 ∨ type = 29)
    (word place addr : BitVec 32) : Hits type word place addr (patchPc24 word place addr) := by
  have hfield : (4 : ℤ) ∣ armDisplacement word place addr → -2 ^ 25 ≤ armDisplacement word place addr →
      armDisplacement word place addr < 2 ^ 25 →
        armOffset (patchPc24 word place addr) = armDisplacement word place addr ∧
          (patchPc24 word place addr).extractLsb' 24 8 = word.extractLsb' 24 8 :=
    fun hmul hlow hhigh => ⟨armOffset_patchPc24 hmul hlow hhigh, top_patchPc24 word place addr⟩
  rcases h with rfl | rfl | rfl <;> exact hfield

/-- So is a pair of Thumb code, on every other target than ARMv4T. -/
theorem patchThmCall_ok (word place addr : BitVec 32) :
    ∃ w, patchThmCall false word place addr = .ok w := by
  unfold patchThmCall
  simp only [Bool.false_eq_true, if_false]
  split
  · split <;> exact ⟨_, rfl⟩
  · exact ⟨_, rfl⟩

theorem hits_of_thumb {word place addr w : BitVec 32}
    (hw : patchThmCall false word place addr = .ok w) : Hits 10 word place addr w := by
  intro hcall hlow hhigh
  constructor
  · intro hodd
    obtain ⟨w', hw', hbl⟩ := thumb_bl hcall hodd hlow hhigh
    rw [Except.ok.inj (hw.symm.trans hw')]
    exact hbl
  · intro haddr
    obtain ⟨w', hw', hblx⟩ := thumb_blx hcall haddr hlow hhigh
    rw [Except.ok.inj (hw.symm.trans hw')]
    exact hblx

/-- **Off ARMv4T, `apply_relocate` writes a word that leads to the address**, for each type of
relocation that it knows. -/
theorem apply_relocate_hits (file : ℕ → UInt8) (output : KModule)
    (sectionoffset sectionaddr : BitVec 32) (r : Rela) (addr : BitVec 32)
    (h : r.type = 2 ∨ relative r.type = true) :
    ∃ w, applyRelocate false file output sectionoffset sectionaddr r addr
        = .ok (writeSegment output (Bytes.le32 w.toNat)).2 ∧
      Hits r.type (.ofNat 32 (Bytes.u32 file (sectionoffset + r.rOffset).toNat))
        (sectionaddr + r.rOffset) addr w := by
  unfold applyRelocate
  generalize BitVec.ofNat 32 (Bytes.u32 file (sectionoffset + r.rOffset).toNat) = word
  generalize sectionaddr + r.rOffset = place
  generalize r.type = type at h ⊢
  rcases h with rfl | h
  · exact ⟨addr + word, rfl, rfl⟩
  · rcases relative_iff.mp h with harm | rfl
    · refine ⟨patchPc24 word place addr, ?_, hits_of_arm harm word place addr⟩
      simp only [patchWord_of_arm harm]
      rfl
    · obtain ⟨w, hw⟩ := patchThmCall_ok word place addr
      refine ⟨w, ?_, hits_of_thumb hw⟩
      show (patchThmCall false word place addr >>= _) = _
      rw [hw]
      rfl

/-- A `BL` as an assembler leaves it, `0xf7ff` and `0xfffe`. -/
def blFile (i : ℕ) : UInt8 := [0xff, 0xf7, 0xfe, 0xff].getD i 0

/-- A module before anything is written. -/
def noModule : KModule := ⟨0, 0, ⟨⟨0, 0⟩, ⟨0, 0⟩, ⟨0, 0⟩, ⟨0, 0⟩⟩, fun _ => 0, 0⟩

/-- At `0x8000` it is patched to call `0x9001`. -/
theorem apply_relocate_hits_bl :
    ∃ w, applyRelocate false blFile noModule 0 0x8000 ⟨0, 10, .text, 0⟩ 0x9001
        = .ok (writeSegment noModule (Bytes.le32 w.toNat)).2 ∧
      IsBl w ∧ blTarget 0x8000 w = 0x9000 := by
  obtain ⟨w, hw, hhits⟩ := apply_relocate_hits blFile noModule 0 0x8000 ⟨0, 10, .text, 0⟩ 0x9001 (by decide)
  have hcall : ThumbCall (.ofNat 32 (Bytes.u32 blFile 0)) 0x8000 :=
    ⟨by decide, by decide, Or.inl (by decide)⟩
  exact ⟨w, hw, (hhits hcall (by decide) (by decide)).1 (by decide)⟩

end YakOS.Module
