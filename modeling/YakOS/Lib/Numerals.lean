import Mathlib.Data.UInt
import Mathlib.Data.Nat.Digits.Defs
import Mathlib.Algebra.Group.Nat.Defs

/-!
# Numerals

Numbers written in a base up to sixteen, as characters with the most significant digit
first.

## Main definitions

* `readFrom b v cs` — reading the digits `cs` behind a number `v`.
* `Denotes b cs n` — `cs` is the numeral of `n` without leading zeros.
* `numeral caps b n` — the numeral of `n`.

## Main results

* `readFrom_cons` — reading one digit.
* `numeral_of_le` — the last digit of a numeral, and the ones in front of it.
-/

namespace Numerals

/-- The value of a digit; letters in lower and in upper case. -/
def digitValue (c : UInt8) : Option ℕ :=
  if 48 ≤ c.toNat ∧ c.toNat ≤ 57 then some (c.toNat - 48)
  else if 97 ≤ c.toNat ∧ c.toNat ≤ 102 then some (c.toNat - 87)
  else if 65 ≤ c.toNat ∧ c.toNat ≤ 70 then some (c.toNat - 55)
  else none

/-- Read the digits of base `b` that stand behind the number `v`; `none` if there is
something else. -/
def readFrom (b : ℕ) : ℕ → List UInt8 → Option ℕ
  | v, [] => some v
  | v, c :: cs => (digitValue c).bind fun d => if d < b then readFrom b (v * b + d) cs else none

/-- The characters are the numeral of `n` in base `b`, without leading zeros. -/
structure Denotes (b : ℕ) (cs : List UInt8) (n : ℕ) : Prop where
  value : readFrom b 0 cs = some n
  nonempty : cs ≠ []
  no_leading_zero : cs.head? = some 48 → cs.length = 1

theorem readFrom_cons {b v d : ℕ} {c : UInt8} (hc : digitValue c = some d) (hd : d < b)
    (cs : List UInt8) : readFrom b v (c :: cs) = readFrom b (v * b + d) cs := by
  rw [readFrom, hc, Option.bind_some, if_pos hd]

/-- The digits below ten. -/
theorem digitValue_ofNat {d : ℕ} (hd : d < 10) : digitValue (UInt8.ofNat (d + 48)) = some d := by
  have hc : (UInt8.ofNat (d + 48)).toNat = d + 48 := by
    rw [UInt8.toNat_ofNat']
    omega
  unfold digitValue
  rw [hc, if_pos (by omega), Nat.add_sub_cancel]

/-! ### Writing -/

/-- The character of a digit. -/
def digit (caps : Bool) (d : ℕ) : UInt8 :=
  if d < 10 then UInt8.ofNat (d + 48)
  else if caps then UInt8.ofNat (d - 10 + 65) else UInt8.ofNat (d - 10 + 97)

/-- The numeral of a number. -/
def numeral (caps : Bool) (b n : ℕ) : List UInt8 :=
  if n = 0 then [digit caps 0] else (Nat.digits b n).reverse.map (digit caps)

theorem numeral_of_lt (caps : Bool) {b n : ℕ} (h : n < b) : numeral caps b n = [digit caps n] := by
  unfold numeral
  split
  · next h0 => rw [h0]
  · next h0 =>
    rw [Nat.digits_of_lt b n h0 h]
    rfl

theorem numeral_of_le (caps : Bool) {b n : ℕ} (hb : 1 < b) (h : b ≤ n) :
    numeral caps b n = numeral caps b (n / b) ++ [digit caps (n % b)] := by
  have hdiv : n / b ≠ 0 := (Nat.div_pos h (by omega)).ne'
  unfold numeral
  rw [if_neg (by omega), if_neg hdiv, Nat.digits_def' hb (by omega), List.reverse_cons, List.map_append]
  rfl

end Numerals
