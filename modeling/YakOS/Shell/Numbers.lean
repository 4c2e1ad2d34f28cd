import Mathlib.Data.Fintype.Basic
import YakOS.Kernel.Digits

/-!
# Numbers in commands

`simple_strtoul` of `init/init_shell.c`, which `mount` reads its address with.  It takes digits as long as
they are digits of the base; a base of 0 is guessed from the first characters.

A string is its characters; behind them there is the NUL.

## Main definitions

* `simpleGuessBase`, `simpleStrtoul` — the code.
* `digitsOf base cp` — the digits of the base that `cp` begins with.

## Main results

* `strtoulLoop_eq` — what the loop reads, and where it stops.
* `strtoul_reads_back` — **what `printk` writes for a word is read back as the word.**
-/

namespace YakOS

open Numerals

/-- `isdigit` -/
def isdigit (c : UInt8) : Bool := decide (48 ≤ c ∧ c ≤ 57)

/-- `isxdigit` -/
def isxdigit (c : UInt8) : Bool := isdigit c || decide (97 ≤ c ∧ c ≤ 102) || decide (65 ≤ c ∧ c ≤ 70)

/-- `TOLOWER` -/
def toLower (c : UInt8) : UInt8 := c ||| 0x20

/-- `simple_guess_base` -/
def simpleGuessBase (cp : List UInt8) : BitVec 32 :=
  if cp.getD 0 0 = 48 then
    if toLower (cp.getD 1 0) = 120 ∧ isxdigit (cp.getD 2 0) then 16 else 8
  else 10

/-- The value of a digit in `simple_strtoul`. -/
def strtoulDigit (c : UInt8) : BitVec 32 :=
  if isdigit c then BitVec.ofNat 32 (c.toNat - 48) else BitVec.ofNat 32 ((toLower c).toNat - 97 + 10)

/-- The loop of `simple_strtoul`: the number, and the rest of the string. -/
def strtoulLoop (base : BitVec 32) : BitVec 32 → List UInt8 → BitVec 32 × List UInt8
  | result, [] => (result, [])
  | result, c :: cp =>
    if isxdigit c then
      if base ≤ strtoulDigit c then (result, c :: cp)
      else strtoulLoop base (result * base + strtoulDigit c) cp
    else (result, c :: cp)

/-- `simple_strtoul`: the number, and the string at `endp`. -/
def simpleStrtoul (cp : List UInt8) (base : BitVec 32) : BitVec 32 × List UInt8 :=
  let base := if base = 0 then simpleGuessBase cp else base
  let cp := if base = 16 ∧ cp.getD 0 0 = 48 ∧ toLower (cp.getD 1 0) = 120 then cp.drop 2 else cp
  strtoulLoop base 0 cp

/-! ### The digits of a string -/

/-- The character is a digit of the base. -/
def isDigitOf (base : ℕ) (c : UInt8) : Bool := (digitValue c).any (· < base)

/-- The digits that a string begins with. -/
def digitsOf (base : ℕ) (cp : List UInt8) : List UInt8 := cp.takeWhile (isDigitOf base)

/-- What is behind them. -/
def behindDigits (base : ℕ) (cp : List UInt8) : List UInt8 := cp.dropWhile (isDigitOf base)

/-- What stands behind a number cannot be taken for a part of it. -/
def EndsNumber (rest : List UInt8) : Prop := ∀ c ∈ rest.head?, isxdigit c = false ∧ toLower c ≠ 120

instance (rest : List UInt8) : Decidable (EndsNumber rest) :=
  inferInstanceAs (Decidable (∀ c ∈ rest.head?, isxdigit c = false ∧ toLower c ≠ 120))

theorem digitValue_eq (c : UInt8) :
    digitValue c = if isxdigit c then some (strtoulDigit c).toNat else none := by
  have hall : ∀ i : Fin 256, digitValue (UInt8.ofNat i.val) =
      if isxdigit (UInt8.ofNat i.val) then some (strtoulDigit (UInt8.ofNat i.val)).toNat else none := by
    decide +kernel
  have hc := hall ⟨c.toNat, c.toNat_lt⟩
  rwa [UInt8.ofNat_toNat] at hc

/-- **The loop** reads the digits of the base, behind the number read so far, and stops at the first other
character. -/
theorem strtoulLoop_eq (base result : BitVec 32) (v : ℕ) (hv : result = BitVec.ofNat 32 v)
    (cp : List UInt8) : ∃ w, readFrom base.toNat v (digitsOf base.toNat cp) = some w ∧
      strtoulLoop base result cp = (BitVec.ofNat 32 w, behindDigits base.toNat cp) := by
  induction cp generalizing result v with
  | nil => exact ⟨v, rfl, by rw [strtoulLoop, hv]; rfl⟩
  | cons c cp ih =>
    have hc := digitValue_eq c
    unfold strtoulLoop
    by_cases hx : isxdigit c = true
    · rw [if_pos hx] at hc ⊢
      by_cases hbase : base ≤ strtoulDigit c
      · have hnot : isDigitOf base.toNat c = false := by
          simpa [isDigitOf, hc, BitVec.le_def] using hbase
        refine ⟨v, ?_, ?_⟩
        · rw [digitsOf, List.takeWhile_cons_of_neg (by simp [hnot])]
          rfl
        · rw [if_pos hbase, behindDigits, List.dropWhile_cons_of_neg (by simp [hnot]), hv]
      · have hlt : (strtoulDigit c).toNat < base.toNat :=
          Nat.lt_of_not_le fun h => hbase (BitVec.le_def.mpr h)
        have hyes : isDigitOf base.toNat c = true := by
          rw [isDigitOf, hc]
          exact decide_eq_true hlt
        obtain ⟨w, hw, hloop⟩ := ih (result * base + strtoulDigit c)
          (v * base.toNat + (strtoulDigit c).toNat) (by
            rw [hv, BitVec.ofNat_add, BitVec.ofNat_mul, BitVec.ofNat_toNat, BitVec.ofNat_toNat]
            simp)
        refine ⟨w, ?_, ?_⟩
        · rw [digitsOf, List.takeWhile_cons_of_pos hyes, readFrom_cons hc hlt]
          exact hw
        · rw [if_neg hbase, hloop, behindDigits, behindDigits, List.dropWhile_cons_of_pos hyes]
    · rw [if_neg hx] at hc ⊢
      have hnot : isDigitOf base.toNat c = false := by simp [isDigitOf, hc]
      refine ⟨v, ?_, ?_⟩
      · rw [digitsOf, List.takeWhile_cons_of_neg (by simp [hnot])]
        rfl
      · rw [behindDigits, List.dropWhile_cons_of_neg (by simp [hnot]), hv]

/-! ### Reading back -/

section ReadingBack

variable {base v w : ℕ} {digits rest : List UInt8}

/-- What denotes a number are digits. -/
theorem isDigitOf_of_readFrom (h : readFrom base v digits = some w) : ∀ c ∈ digits, isDigitOf base c = true := by
  induction digits generalizing v with
  | nil => exact fun c hc => absurd hc List.not_mem_nil
  | cons c digits ih =>
    obtain ⟨d, hd, hrest⟩ := Option.bind_eq_some_iff.mp h
    split at hrest
    · next hlt =>
      rw [List.forall_mem_cons]
      exact ⟨by simp [isDigitOf, hd, hlt], ih hrest⟩
    · cases hrest

theorem isxdigit_of_isDigitOf {c : UInt8} (h : isDigitOf base c = true) : isxdigit c = true := by
  rw [isDigitOf, digitValue_eq] at h
  by_contra hx
  rw [if_neg hx] at h
  cases h

theorem toLower_of_isxdigit {c : UInt8} (h : isxdigit c = true) : toLower c ≠ 120 := by
  have hall : ∀ i : Fin 256, isxdigit (UInt8.ofNat i.val) = true → toLower (UInt8.ofNat i.val) ≠ 120 := by
    decide +kernel
  have hc := hall ⟨c.toNat, c.toNat_lt⟩
  rw [UInt8.ofNat_toNat] at hc
  exact hc h

/-- The digits in front of something else. -/
theorem digits_append (h : readFrom base v digits = some w) (hrest : EndsNumber rest) :
    digitsOf base (digits ++ rest) = digits ∧ behindDigits base (digits ++ rest) = rest := by
  have hdigits := isDigitOf_of_readFrom h
  have hend : rest.takeWhile (isDigitOf base) = [] ∧ rest.dropWhile (isDigitOf base) = rest := by
    cases rest with
    | nil => exact ⟨rfl, rfl⟩
    | cons c rest =>
      have hc : ¬ isDigitOf base c = true := fun hdigit => by
        have hx := (hrest c rfl).1
        rw [isxdigit_of_isDigitOf hdigit] at hx
        cases hx
      exact ⟨List.takeWhile_cons_of_neg hc, List.dropWhile_cons_of_neg hc⟩
  rw [digitsOf, behindDigits, List.takeWhile_append_of_pos hdigits, List.dropWhile_append_of_pos hdigits,
    hend.1, hend.2, List.append_nil]
  exact ⟨rfl, rfl⟩

/-- The loop, from the start of a numeral. -/
theorem strtoulLoop_numeral (b : BitVec 32) (h : readFrom b.toNat 0 digits = some w)
    (hrest : EndsNumber rest) : strtoulLoop b 0 (digits ++ rest) = (BitVec.ofNat 32 w, rest) := by
  obtain ⟨w', hw', hloop⟩ := strtoulLoop_eq b 0 0 rfl (digits ++ rest)
  obtain ⟨hdigits, hbehind⟩ := digits_append h hrest
  rw [hdigits, h] at hw'
  rw [hloop, hbehind, Option.some.inj hw']

/-- The second character of a numeral, or of what is behind it, is not the `x` of a prefix. -/
theorem second_ne (h : readFrom base v digits = some w) (hne : digits ≠ []) (hrest : EndsNumber rest) :
    toLower ((digits ++ rest).getD 1 0) ≠ 120 := by
  have hdigits := isDigitOf_of_readFrom h
  cases digits with
  | nil => exact absurd rfl hne
  | cons c digits =>
    rw [List.forall_mem_cons] at hdigits
    cases digits with
    | nil =>
      cases rest with
      | nil => exact (by decide : toLower 0 ≠ 120)
      | cons d rest => exact (hrest d rfl).2
    | cons d digits =>
      exact toLower_of_isxdigit (isxdigit_of_isDigitOf (hdigits.2 d List.mem_cons_self))

/-- **What `printk` writes for a word is read back**: in hexadecimal with and without its prefix, and in
decimal, and `endp` is left behind it. -/
theorem strtoul_reads_back (n : BitVec 32) (flag : Flags) (hrest : EndsNumber rest) :
    simpleStrtoul (longlongToHexstring (n.setWidth 64) flag ++ rest) 16 = (n, rest) ∧
    (∀ x b, x = 120 ∨ x = 88 → b = 0 ∨ b = 16 →
      simpleStrtoul (48 :: x :: (longlongToHexstring (n.setWidth 64) flag ++ rest)) b = (n, rest)) ∧
    (flag.signed = false → flag.showSign = false → ∀ b, b = 0 ∨ b = 10 →
      simpleStrtoul (longlongToString (n.setWidth 64) flag ++ rest) b = (n, rest)) := by
  have hn : (n.setWidth 64).toNat = n.toNat := by
    rw [BitVec.toNat_setWidth]
    exact Nat.mod_eq_of_lt (n.isLt.trans (by decide))
  have hword : BitVec.ofNat 32 n.toNat = n := by rw [BitVec.ofNat_toNat, BitVec.setWidth_eq]
  obtain ⟨hex, hhex⟩ : ∃ hex, hex = longlongToHexstring (n.setWidth 64) flag := ⟨_, rfl⟩
  have hread : readFrom 16 0 hex = some n.toNat := by
    rw [hhex, longlongToHexstring, readFrom_hexLoop, hn]
    rfl
  have hhexne : hex ≠ [] := by
    rw [hhex, longlongToHexstring]
    exact hexLoop_ne_nil _ _ _
  have hhexloop : strtoulLoop 16 0 (hex ++ rest) = (n, rest) := by
    rw [strtoulLoop_numeral 16 hread hrest, hword]
  rw [← hhex]
  refine ⟨?_, fun x b hx hb => ?_, fun hsigned hshow b hb => ?_⟩
  · unfold simpleStrtoul
    dsimp only
    rw [if_neg (by decide : ¬ (16 : BitVec 32) = 0),
      if_neg (fun hprefix => second_ne hread hhexne hrest hprefix.2.2), hhexloop]
  · have hxlower : toLower x = 120 := by
      rcases hx with rfl | rfl <;> decide
    have hfirst : isxdigit ((48 :: x :: (hex ++ rest)).getD 2 0) = true := by
      obtain ⟨c, hex', rfl⟩ := List.exists_cons_of_ne_nil hhexne
      exact isxdigit_of_isDigitOf (isDigitOf_of_readFrom hread c List.mem_cons_self)
    have hbase : (if b = 0 then simpleGuessBase (48 :: x :: (hex ++ rest)) else b) = 16 := by
      rcases hb with rfl | rfl
      · have hzero : (48 :: x :: (hex ++ rest)).getD 0 0 = 48 := rfl
        rw [if_pos rfl, simpleGuessBase, if_pos hzero, if_pos ⟨hxlower, hfirst⟩]
      · exact if_neg (by decide)
    unfold simpleStrtoul
    dsimp only
    rw [hbase, if_pos ⟨rfl, rfl, hxlower⟩]
    exact hhexloop
  · have hmag : magnitude (n.setWidth 64) flag = n.toNat := by
      rw [magnitude, if_neg (fun h => by rw [hsigned] at h; exact absurd h.1 Bool.false_ne_true), hn]
    have hden := denotes_decimalLoop n.isLt
    have hdec : longlongToString (n.setWidth 64) flag = decimalLoop n.toNat [] := by
      rw [longlongToString_eq, hmag, signText,
        if_neg (fun h => by rw [hsigned] at h; exact absurd h.1 Bool.false_ne_true), hshow]
      rfl
    rw [hdec]
    generalize decimalLoop n.toNat [] = dec at hden ⊢
    have hsecond := second_ne hden.value hden.nonempty hrest
    by_cases hzero : b = 0 ∧ (dec ++ rest).getD 0 0 = 48
    · -- only zero begins with a zero, and it is read in base 8
      obtain ⟨rfl, hfirst⟩ := hzero
      obtain ⟨c, dec', rfl⟩ := List.exists_cons_of_ne_nil hden.nonempty
      obtain rfl : c = 48 := hfirst
      obtain rfl : dec' = [] := List.length_eq_zero_iff.mp (Nat.succ.inj (hden.no_leading_zero rfl))
      have hvalue : n.toNat = 0 := (Option.some.inj hden.value).symm
      have hbase : simpleGuessBase ([48] ++ rest) = 8 := by
        have hhead : ([48] ++ rest).getD 0 0 = 48 := rfl
        rw [simpleGuessBase, if_pos hhead, if_neg fun h => hsecond h.1]
      have hloop : strtoulLoop 8 0 ([48] ++ rest) = (BitVec.ofNat 32 0, rest) :=
        strtoulLoop_numeral 8 rfl hrest
      unfold simpleStrtoul
      dsimp only
      rw [if_pos rfl, hbase, if_neg (fun hprefix => absurd hprefix.1 (by decide)),
        hloop, ← hvalue, hword]
    · have hbase : (if b = 0 then simpleGuessBase (dec ++ rest) else b) = 10 := by
        rcases hb with rfl | rfl
        · rw [if_pos rfl, simpleGuessBase, if_neg fun h => hzero ⟨rfl, h⟩]
        · exact if_neg (by decide)
      unfold simpleStrtoul
      dsimp only
      rw [hbase, if_neg (fun hprefix => absurd hprefix.1 (by decide)), strtoulLoop_numeral 10 hden.value hrest, hword]

end ReadingBack

/-- The address `0xc0100000`, with a blank behind it. -/
theorem strtoul_reads_back_address :
    simpleStrtoul (longlongToHexstring ((0xc0100000 : BitVec 32).setWidth 64) {} ++ [32]) 16 =
      (0xc0100000, [32]) ∧
    (∀ x b, x = 120 ∨ x = 88 → b = 0 ∨ b = 16 →
      simpleStrtoul (48 :: x :: (longlongToHexstring ((0xc0100000 : BitVec 32).setWidth 64) {} ++ [32])) b =
        (0xc0100000, [32])) ∧
    (({} : Flags).signed = false → ({} : Flags).showSign = false → ∀ b, b = 0 ∨ b = 10 →
      simpleStrtoul (longlongToString ((0xc0100000 : BitVec 32).setWidth 64) {} ++ [32]) b =
        (0xc0100000, [32])) :=
  strtoul_reads_back 0xc0100000 {} (by decide +kernel)

end YakOS
