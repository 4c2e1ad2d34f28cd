import YakOS.Lib.Numerals
import Mathlib.Data.BitVec

/-!
# Numbers as text

`longlong_to_string` and `longlong_to_hexstring` of `kernel/printk.c`.  Both fill a
buffer from its end, the terminating NUL first: what is kept here is the text in front
of the NUL.  The decimal loop casts its 64-bit number to `unsigned int`, so only the
low half of the number reaches the text.

## Main definitions

* `Flags` — the flags of a conversion.
* `longlongToString`, `longlongToHexstring` — the code.
* `magnitude`, `signText` — the number to show, and its sign.
* `ShowsDecimal n flag` — the decimal string is the right one.

## Main results

* `readFrom_decimalLoop` — what the decimal digits denote.
* `longlong_text` — when the decimal string is right; the other one always is.
-/

namespace YakOS

open Numerals

/-- The flags of a conversion. -/
structure Flags where
  /-- `LONGFLAG` -/
  long : Bool := false
  /-- `LONGLONGFLAG` -/
  longLong : Bool := false
  /-- `HALFFLAG` -/
  half : Bool := false
  /-- `HALFHALFFLAG` -/
  halfHalf : Bool := false
  /-- `SIZETFLAG` -/
  sizeT : Bool := false
  /-- `ALTFLAG` -/
  alt : Bool := false
  /-- `CAPSFLAG` -/
  caps : Bool := false
  /-- `SHOWSIGNFLAG` -/
  showSign : Bool := false
  /-- `SIGNEDFLAG` -/
  signed : Bool := false
  /-- `LEFTFORMATFLAG` -/
  leftFormat : Bool := false
  /-- `LEADZEROFLAG` -/
  leadZero : Bool := false
  deriving DecidableEq, Repr, Inhabited

/-- The size of `num_buffer`. -/
def numBufferSize : ℕ := 32

/-! ### Decimal -/

theorem low_half_div_lt {n : ℕ} (h : 10 ≤ n) : n % 2 ^ 32 / 10 < n := by omega

/-- The digits of `longlong_to_string`, put in front of `text`. -/
def decimalLoop (n : ℕ) (text : List UInt8) : List UInt8 :=
  if 10 ≤ n then decimalLoop (n % 2 ^ 32 / 10) (UInt8.ofNat (n % 2 ^ 32 % 10 + 48) :: text)
  else UInt8.ofNat (n + 48) :: text
termination_by n
decreasing_by exact low_half_div_lt ‹_›

/-- `longlong_to_string` -/
def longlongToString (n : BitVec 64) (flag : Flags) : List UInt8 :=
  let negative := flag.signed && decide (n.toInt < 0)
  let text := decimalLoop (if negative then -n else n).toNat []
  -- the sign
  if negative then 45 :: text else if flag.showSign then 43 :: text else text

/-! ### Hexadecimal -/

theorem div_sixteen_lt {u : ℕ} (h : u / 16 ≠ 0) : u / 16 < u := by omega

/-- `hextable` and `hextable_caps` -/
def hexDigit (caps : Bool) (digit : ℕ) : UInt8 :=
  if digit < 10 then UInt8.ofNat (digit + 48)
  else if caps then UInt8.ofNat (digit - 10 + 65) else UInt8.ofNat (digit - 10 + 97)

/-- The digits of `longlong_to_hexstring`, put in front of `text`. -/
def hexLoop (caps : Bool) (u : ℕ) (text : List UInt8) : List UInt8 :=
  if u / 16 ≠ 0 then hexLoop caps (u / 16) (hexDigit caps (u % 16) :: text)
  else hexDigit caps (u % 16) :: text
termination_by u
decreasing_by exact div_sixteen_lt ‹_›

/-- `longlong_to_hexstring` -/
def longlongToHexstring (u : BitVec 64) (flag : Flags) : List UInt8 := hexLoop flag.caps u.toNat []

/-! ### What the texts denote -/

/-- The number that the decimal string is to show, without its sign. -/
def magnitude (n : BitVec 64) (flag : Flags) : ℕ :=
  if flag.signed ∧ n.toInt < 0 then n.toInt.natAbs else n.toNat

/-- The sign that the decimal string is to show. -/
def signText (n : BitVec 64) (flag : Flags) : List UInt8 :=
  if flag.signed ∧ n.toInt < 0 then [45] else if flag.showSign then [43] else []

/-- `longlong_to_string` writes the sign and the decimal numeral of the number. -/
def ShowsDecimal (n : BitVec 64) (flag : Flags) : Prop :=
  ∃ digits, longlongToString n flag = signText n flag ++ digits ∧ Denotes 10 digits (magnitude n flag)

section Loops

variable {n u : ℕ} {text : List UInt8} {caps : Bool}

theorem decimalLoop_of_lt (h : n < 10) : decimalLoop n text = UInt8.ofNat (n + 48) :: text := by
  rw [decimalLoop, if_neg (Nat.not_le.mpr h)]

theorem decimalLoop_of_le (h : 10 ≤ n) : decimalLoop n text =
    decimalLoop (n % 2 ^ 32 / 10) (UInt8.ofNat (n % 2 ^ 32 % 10 + 48) :: text) := by
  rw [decimalLoop, if_pos h]

/-- The decimal digits denote the low half of the number. -/
theorem readFrom_decimalLoop (n : ℕ) (text : List UInt8) :
    readFrom 10 0 (decimalLoop n text) = readFrom 10 (n % 2 ^ 32) text := by
  induction n using Nat.strong_induction_on generalizing text with
  | _ n ih =>
    by_cases h : 10 ≤ n
    · have hdigit := Nat.mod_lt (n % 2 ^ 32) (by decide : 0 < 10)
      have hlow : n % 2 ^ 32 / 10 % 2 ^ 32 = n % 2 ^ 32 / 10 := by omega
      rw [decimalLoop_of_le h, ih _ (low_half_div_lt h), readFrom_cons (digitValue_ofNat hdigit) hdigit,
        hlow, Nat.div_add_mod']
    · have hlt := Nat.not_le.mp h
      rw [decimalLoop_of_lt hlt, readFrom_cons (digitValue_ofNat hlt) hlt, Nat.zero_mul, Nat.zero_add,
        Nat.mod_eq_of_lt (by omega)]

/-- A number of at most `k + 1` digits takes at most that many characters. -/
theorem length_decimalLoop_le (text : List UInt8) {k : ℕ} (h : n < 10 ^ (k + 1)) :
    (decimalLoop n text).length ≤ text.length + (k + 1) := by
  induction k generalizing n text with
  | zero =>
    rw [decimalLoop_of_lt (by omega), List.length_cons]
  | succ k ih =>
    by_cases hn : 10 ≤ n
    · have hdiv : n % 2 ^ 32 / 10 < 10 ^ (k + 1) := by
        have := Nat.mod_le n (2 ^ 32)
        rw [Nat.pow_succ] at h
        omega
      have := ih (UInt8.ofNat (n % 2 ^ 32 % 10 + 48) :: text) hdiv
      rw [decimalLoop_of_le hn]
      rw [List.length_cons] at this
      omega
    · rw [decimalLoop_of_lt (by omega), List.length_cons]
      omega

/-- Whatever the number, there are at most ten digits. -/
theorem length_decimalLoop (n : ℕ) (text : List UInt8) :
    (decimalLoop n text).length ≤ text.length + 10 := by
  by_cases h : 10 ≤ n
  · rw [decimalLoop_of_le h]
    have := length_decimalLoop_le (k := 8) (UInt8.ofNat (n % 2 ^ 32 % 10 + 48) :: text)
      (by omega : n % 2 ^ 32 / 10 < 10 ^ (8 + 1))
    rw [List.length_cons] at this
    omega
  · rw [decimalLoop_of_lt (by omega), List.length_cons]
    omega

/-- The first digit of a number that fits an `unsigned int` is only zero if the number is. -/
theorem head?_decimalLoop (h0 : 0 < n) (hlt : n < 2 ^ 32) :
    (decimalLoop n text).head? ≠ some 48 := by
  induction n using Nat.strong_induction_on generalizing text with
  | _ n ih =>
    by_cases h : 10 ≤ n
    · rw [decimalLoop_of_le h]
      exact ih _ (low_half_div_lt h) (by omega) (by omega)
    · rw [decimalLoop_of_lt (by omega), List.head?_cons]
      intro heq
      have := congrArg UInt8.toNat (Option.some.inj heq)
      rw [UInt8.toNat_ofNat'] at this
      have h48 : (48 : UInt8).toNat = 48 := rfl
      omega

theorem decimalLoop_ne_nil (n : ℕ) (text : List UInt8) : decimalLoop n text ≠ [] := by
  induction n using Nat.strong_induction_on generalizing text with
  | _ n ih =>
    by_cases h : 10 ≤ n
    · rw [decimalLoop_of_le h]
      exact ih _ (low_half_div_lt h) _
    · rw [decimalLoop_of_lt (by omega)]
      exact List.cons_ne_nil _ _

theorem denotes_decimalLoop (h : n < 2 ^ 32) : Denotes 10 (decimalLoop n []) n where
  value := by rw [readFrom_decimalLoop, readFrom, Nat.mod_eq_of_lt h]
  nonempty := decimalLoop_ne_nil n []
  no_leading_zero := by
    intro hzero
    rcases Nat.eq_zero_or_pos n with rfl | hpos
    · rw [decimalLoop_of_lt (by decide)]
      rfl
    · exact absurd hzero (head?_decimalLoop hpos h)

theorem digitValue_hexDigit (caps : Bool) {d : ℕ} (hd : d < 16) :
    digitValue (hexDigit caps d) = some d := by
  unfold hexDigit
  split
  · next h => exact digitValue_ofNat h
  · next h =>
    unfold digitValue
    cases caps with
    | true =>
      have hc : (UInt8.ofNat (d - 10 + 65)).toNat = d + 55 := by
        rw [UInt8.toNat_ofNat']
        omega
      rw [if_pos rfl, hc, if_neg (by omega), if_neg (by omega), if_pos (by omega), Nat.add_sub_cancel]
    | false =>
      have hc : (UInt8.ofNat (d - 10 + 97)).toNat = d + 87 := by
        rw [UInt8.toNat_ofNat']
        omega
      rw [if_neg Bool.false_ne_true, hc, if_neg (by omega), if_pos (by omega), Nat.add_sub_cancel]

theorem readFrom_hexLoop (caps : Bool) (u : ℕ) (text : List UInt8) :
    readFrom 16 0 (hexLoop caps u text) = readFrom 16 u text := by
  induction u using Nat.strong_induction_on generalizing text with
  | _ u ih =>
    have hdigit := Nat.mod_lt u (by decide : 0 < 16)
    unfold hexLoop
    split
    · next h =>
      rw [ih _ (div_sixteen_lt h), readFrom_cons (digitValue_hexDigit caps hdigit) hdigit,
        Nat.div_add_mod']
    · next h =>
      rw [readFrom_cons (digitValue_hexDigit caps hdigit) hdigit]
      congr 1
      omega

theorem hexLoop_ne_nil (caps : Bool) (u : ℕ) (text : List UInt8) : hexLoop caps u text ≠ [] := by
  induction u using Nat.strong_induction_on generalizing text with
  | _ u ih =>
    unfold hexLoop
    split
    · exact ih _ (div_sixteen_lt ‹_›) _
    · exact List.cons_ne_nil _ _

theorem length_hexLoop_le (caps : Bool) (text : List UInt8) {k : ℕ} (h : u < 16 ^ (k + 1)) :
    (hexLoop caps u text).length ≤ text.length + (k + 1) := by
  induction k generalizing u text with
  | zero =>
    unfold hexLoop
    rw [if_neg (by omega), List.length_cons]
  | succ k ih =>
    unfold hexLoop
    split
    · have hdiv : u / 16 < 16 ^ (k + 1) := by
        rw [Nat.pow_succ] at h
        omega
      have := ih (hexDigit caps (u % 16) :: text) hdiv
      rw [List.length_cons] at this
      omega
    · rw [List.length_cons]
      omega

end Loops

section Strings

variable (n : BitVec 64) (flag : Flags)

/-- Negating the smallest number leaves it alone, and as an unsigned number that is its magnitude. -/
theorem toNat_magnitude :
    (if flag.signed && decide (n.toInt < 0) then -n else n).toNat = magnitude n flag := by
  unfold magnitude
  by_cases h : flag.signed = true ∧ n.toInt < 0
  · rw [if_pos h, if_pos (by simpa using h)]
    have hint := BitVec.toInt_eq_toNat_cond n
    have hlt := n.isLt
    rw [BitVec.toNat_neg]
    split at hint <;> omega
  · rw [if_neg h, if_neg (by simpa using h)]

theorem longlongToString_eq :
    longlongToString n flag = signText n flag ++ decimalLoop (magnitude n flag) [] := by
  unfold longlongToString signText
  dsimp only
  rw [toNat_magnitude]
  simp only [Bool.and_eq_true, decide_eq_true_eq]
  split
  · rfl
  · split <;> rfl

/-- The decimal string is right for the numbers that fit an `unsigned int`. -/
theorem showsDecimal_iff : ShowsDecimal n flag ↔ magnitude n flag < 2 ^ 32 := by
  unfold ShowsDecimal
  rw [longlongToString_eq]
  constructor
  · rintro ⟨digits, heq, hdenotes⟩
    obtain rfl := List.append_cancel_left heq
    have hvalue := hdenotes.value
    rw [readFrom_decimalLoop, readFrom] at hvalue
    have := Nat.mod_lt (magnitude n flag) (by decide : 0 < 2 ^ 32)
    rwa [Option.some.inj hvalue] at this
  · intro hlt
    exact ⟨_, rfl, denotes_decimalLoop hlt⟩

theorem length_longlongToString : (longlongToString n flag).length + 1 ≤ numBufferSize := by
  have hdigits := length_decimalLoop (magnitude n flag) []
  have hsign : (signText n flag).length ≤ 1 := by
    unfold signText
    split
    · simp
    · split <;> simp
  rw [longlongToString_eq, List.length_append, numBufferSize]
  rw [List.length_nil] at hdigits
  omega

theorem length_longlongToHexstring : (longlongToHexstring n flag).length + 1 ≤ numBufferSize := by
  have := length_hexLoop_le (k := 15) flag.caps [] n.isLt
  rw [List.length_nil] at this
  unfold longlongToHexstring numBufferSize
  omega

/-- The decimal string is the numeral of the number, with its sign and without leading zeros, exactly
when the magnitude of the number fits an `unsigned int`.  Both strings always fit the buffer, and the
hexadecimal one always denotes the number. -/
theorem longlong_text (n : BitVec 64) (flag : Flags) :
    (ShowsDecimal n flag ↔ magnitude n flag < 2 ^ 32) ∧
      (longlongToString n flag).length + 1 ≤ numBufferSize ∧
      readFrom 16 0 (longlongToHexstring n flag) = some n.toNat ∧
      (longlongToHexstring n flag).length + 1 ≤ numBufferSize := by
  refine ⟨showsDecimal_iff n flag, length_longlongToString n flag, ?_, length_longlongToHexstring n flag⟩
  rw [longlongToHexstring, readFrom_hexLoop, readFrom]

end Strings

/-- `2 ^ 32` is shown as `00`. -/
theorem longlongToString_high_half : ¬ ShowsDecimal (2 ^ 32) {} ∧
    longlongToString (2 ^ 32) {} = [48, 48] := by
  have hmag : magnitude (2 ^ 32) {} = 2 ^ 32 := by decide
  refine ⟨fun h => ?_, ?_⟩
  · rw [showsDecimal_iff, hmag] at h
    exact absurd h (by decide)
  · rw [longlongToString_eq, hmag, decimalLoop_of_le (by decide), decimalLoop_of_lt (by decide)]
    decide

end YakOS
