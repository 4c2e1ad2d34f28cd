import YakOS.Kernel.Printf

/-!
# What a format says

The formats of `printk` as a language: a format is a list of texts and directives, a directive has its
flags, its width and the length of its argument, and says which text an argument becomes.  `vsnprintf` has
to read all of it out of the characters, one state of its switch after another.

Where it differs from the formats of C is part of what a directive says here: zeros are put in front of a
sign, the `0x` of a hexadecimal number does not count for its width, and a character has none.

## Main definitions

* `Directive`, `Piece`, `formatSource` — formats, and how they are written.
* `Directive.denote`, `denote` — what they say.
* `FormatOk` — a text has no `%` and no NUL, and a decimal `long long` fits a word.

## Main results

* `formatLoop_directive` — the loop on one directive.
* `formatLoop_eq` — the loop prints what the format says, whatever it prints to.
* `vsnprintf_denotes` — **`vsnprintf` leaves what the format says in its buffer**, cut to its length.
-/

namespace YakOS

open Bytes Numerals

/-! ### Formats -/

/-- The length of an argument. -/
inductive ArgLength
  | int
  /-- `hh` -/
  | char
  /-- `h` -/
  | short
  /-- `l` -/
  | long
  /-- `ll` -/
  | longLong
  /-- `z` -/
  | size
  deriving DecidableEq, Repr

/-- What an argument is converted to. -/
inductive Conversion
  | d
  | i
  /-- `D`: an `ld` -/
  | longD
  | u
  /-- `U`: an `lu` -/
  | longU
  | x
  | capsX
  | p
  | s
  | c
  | percent
  deriving DecidableEq, Repr

/-- A directive: the flags, the width, the length of the argument and the conversion. -/
structure Directive where
  left : Bool
  plus : Bool
  alt : Bool
  zero : Bool
  width : ℕ
  length : ArgLength
  conv : Conversion
  deriving DecidableEq, Repr

/-- A piece of a format. -/
inductive Piece
  | text (cs : List UInt8)
  | arg (d : Directive)
  deriving DecidableEq, Repr

/-- The letters of a length. -/
def ArgLength.source : ArgLength → List UInt8
  | .int => []
  | .char => [104, 104]
  | .short => [104]
  | .long => [108]
  | .longLong => [108, 108]
  | .size => [122]

/-- The letter of a conversion. -/
def Conversion.letter : Conversion → UInt8
  | .d => 100
  | .i => 105
  | .longD => 68
  | .u => 117
  | .longU => 85
  | .x => 120
  | .capsX => 88
  | .p => 112
  | .s => 115
  | .c => 99
  | .percent => 37

/-- How a width is written: none is no width. -/
def widthSource (width : ℕ) : List UInt8 := if width = 0 then [] else numeral false 10 width

/-- How a directive is written. -/
def Directive.source (d : Directive) : List UInt8 :=
  37 :: ((if d.left then [45] else []) ++ (if d.plus then [43] else []) ++ (if d.alt then [35] else []) ++
    (if d.zero then [48] else []) ++ widthSource d.width ++ d.length.source ++ [d.conv.letter])

/-- How a piece is written. -/
def Piece.source : Piece → List UInt8
  | .text cs => cs
  | .arg d => d.source

/-- How a format is written. -/
def formatSource (pieces : List Piece) : List UInt8 := pieces.flatMap Piece.source

/-! ### What they say -/

section Meaning

variable {σ : Type} (va : VaList σ)

/-- The next argument as a signed number, and the arguments left. -/
def signedArg (length : ArgLength) (ap : σ) : ℤ × σ :=
  match length with
  | .longLong => ((va.longLong ap).1.toInt, (va.longLong ap).2)
  | .char => (((va.word ap).1.setWidth 8).toInt, (va.word ap).2)
  | .short => (((va.word ap).1.setWidth 16).toInt, (va.word ap).2)
  | _ => ((va.word ap).1.toInt, (va.word ap).2)

/-- The next argument as an unsigned number. -/
def unsignedArg (length : ArgLength) (ap : σ) : ℕ × σ :=
  match length with
  | .longLong => ((va.longLong ap).1.toNat, (va.longLong ap).2)
  | .char => ((va.word ap).1.toNat % 2 ^ 8, (va.word ap).2)
  | .short => ((va.word ap).1.toNat % 2 ^ 16, (va.word ap).2)
  | _ => ((va.word ap).1.toNat, (va.word ap).2)

/-- The length of an argument that is a `long` unless it is a `long long`. -/
def ArgLength.orLong : ArgLength → ArgLength
  | .longLong => .longLong
  | _ => .long

namespace Directive

variable (d : Directive)

/-- A text in its width. -/
def padded (text : List UInt8) : List UInt8 :=
  if d.left then text ++ List.replicate (d.width - text.length) 32
  else List.replicate (d.width - text.length) (if d.zero then 48 else 32) ++ text

/-- The text of a signed number. -/
def signedText (n : ℤ) : List UInt8 :=
  d.padded ((if n < 0 then [45] else if d.plus then [43] else []) ++ numeral false 10 n.natAbs)

/-- The text of an unsigned number. -/
def unsignedText (n : ℕ) : List UInt8 :=
  d.padded ((if d.plus then [43] else []) ++ numeral false 10 n)

/-- The text of a hexadecimal number. -/
def hexText (alt caps : Bool) (n : ℕ) : List UInt8 :=
  (if alt then [48, if caps then 88 else 120] else []) ++ d.padded (numeral caps 16 n)

/-- What a directive says: a text, and the arguments left. -/
def denote (ap : σ) : List UInt8 × σ :=
  match d.conv with
  | .d | .i => (d.signedText (signedArg va d.length ap).1, (signedArg va d.length ap).2)
  | .longD => (d.signedText (signedArg va d.length.orLong ap).1, (signedArg va d.length.orLong ap).2)
  | .u => (d.unsignedText (unsignedArg va d.length ap).1, (unsignedArg va d.length ap).2)
  | .longU => (d.unsignedText (unsignedArg va d.length.orLong ap).1, (unsignedArg va d.length.orLong ap).2)
  | .x => (d.hexText d.alt false (unsignedArg va d.length ap).1, (unsignedArg va d.length ap).2)
  | .capsX => (d.hexText d.alt true (unsignedArg va d.length ap).1, (unsignedArg va d.length ap).2)
  | .p => (d.hexText true false (unsignedArg va d.length.orLong ap).1, (unsignedArg va d.length.orLong ap).2)
  | .s => (d.padded ((va.string ap).1.getD (chars "<null>")), (va.string ap).2)
  | .c => ([UInt8.ofNat (va.word ap).1.toNat], (va.word ap).2)
  | .percent => ([37], ap)

/-- The width fits a word, and so does the number of a decimal conversion. -/
def Ok (ap : σ) : Prop :=
  d.width < 2 ^ 32 ∧
    match d.conv with
    | .d | .i => (signedArg va d.length ap).1.natAbs < 2 ^ 32
    | .longD => (signedArg va d.length.orLong ap).1.natAbs < 2 ^ 32
    | .u => (unsignedArg va d.length ap).1 < 2 ^ 32
    | .longU => (unsignedArg va d.length.orLong ap).1 < 2 ^ 32
    | _ => True

end Directive

/-- What a format says. -/
def denote : List Piece → σ → List UInt8
  | [], _ => []
  | .text cs :: pieces, ap => cs ++ denote pieces ap
  | .arg d :: pieces, ap => (d.denote va ap).1 ++ denote pieces (d.denote va ap).2

/-- The condition on a format and its arguments. -/
def FormatOk : List Piece → σ → Prop
  | [], _ => True
  | .text cs :: pieces, ap => 37 ∉ cs ∧ 0 ∉ cs ∧ FormatOk pieces ap
  | .arg d :: pieces, ap => d.Ok va ap ∧ FormatOk pieces (d.denote va ap).2

end Meaning

/-! ### Numbers -/

section Numbers

variable {n u : ℕ} {text : List UInt8}

theorem hexDigit_eq (caps : Bool) (d : ℕ) : hexDigit caps d = digit caps d := rfl

/-- The loop of `longlong_to_string` writes the numeral of a word. -/
theorem decimalLoop_eq (caps : Bool) (h : n < 2 ^ 32) : decimalLoop n text = numeral caps 10 n ++ text := by
  induction n using Nat.strong_induction_on generalizing text with
  | _ n ih =>
    have hdigit : ∀ d < 10, digit caps d = UInt8.ofNat (d + 48) := fun d hd => if_pos hd
    by_cases hn : 10 ≤ n
    · have hlow : n % 2 ^ 32 = n := Nat.mod_eq_of_lt h
      rw [decimalLoop_of_le hn, hlow, ih _ (Nat.div_lt_self (by omega) (by decide)) (by omega),
        numeral_of_le caps (by decide) hn, hdigit _ (Nat.mod_lt _ (by decide)), List.append_assoc]
      rfl
    · rw [decimalLoop_of_lt (Nat.not_le.mp hn), numeral_of_lt caps (Nat.not_le.mp hn),
        hdigit _ (Nat.not_le.mp hn)]
      rfl

/-- The loop of `longlong_to_hexstring` writes the numeral. -/
theorem hexLoop_eq (caps : Bool) (u : ℕ) (text : List UInt8) :
    hexLoop caps u text = numeral caps 16 u ++ text := by
  induction u using Nat.strong_induction_on generalizing text with
  | _ u ih =>
    unfold hexLoop
    split
    · next h =>
      rw [ih _ (div_sixteen_lt h), numeral_of_le caps (n := u) (by decide) (by omega), List.append_assoc,
        hexDigit_eq]
      rfl
    · next h =>
      rw [numeral_of_lt caps (by omega), hexDigit_eq, Nat.mod_eq_of_lt (by omega)]
      rfl

end Numbers

/-! ### Conversions -/

section Conversions

variable {σ S : Type} (va : VaList σ) (pr : Printer S) (d : Directive) (ap : σ) (s : S)

namespace Directive

/-- The flags at the letter of the conversion. -/
def flags : Flags where
  long := d.length = .long ∨ d.length = .longLong
  longLong := d.length = .longLong
  half := d.length = .short ∨ d.length = .char
  halfHalf := d.length = .char
  sizeT := d.length = .size
  alt := d.alt
  showSign := d.plus
  leftFormat := d.left
  leadZero := d.zero

/-- Flags that put a text into its width as the directive does. -/
structure Shapes (flags : Flags) : Prop where
  showSign : flags.showSign = d.plus
  leftFormat : flags.leftFormat = d.left
  leadZero : flags.leadZero = d.zero

theorem shapes_flags : d.Shapes d.flags := ⟨rfl, rfl, rfl⟩

variable {d} {flags : Flags} (hshapes : d.Shapes flags) (hwidth : d.width < 2 ^ 32)

include hshapes hwidth

theorem Shapes.stringText_eq (text : List UInt8) :
    stringText flags (BitVec.ofNat 32 d.width) text = d.padded text := by
  unfold stringText padded
  rw [hshapes.leftFormat, hshapes.leadZero, BitVec.toNat_ofNat, Nat.mod_eq_of_lt hwidth]

theorem Shapes.convertSigned_eq (hn : (vaSigned va flags ap).1.toInt.natAbs < 2 ^ 32) :
    convertSigned va pr flags (BitVec.ofNat 32 d.width) ap s =
      (outputAll pr (d.signedText (vaSigned va flags ap).1.toInt) s, (vaSigned va flags ap).2) := by
  have hsigned : d.Shapes { flags with signed := true } := ⟨hshapes.1, hshapes.2, hshapes.3⟩
  have htext : longlongToString (vaSigned va flags ap).1 { flags with signed := true } =
      (if (vaSigned va flags ap).1.toInt < 0 then [45] else if d.plus then [43] else []) ++
        numeral false 10 (vaSigned va flags ap).1.toInt.natAbs := by
    have hmagnitude : magnitude (vaSigned va flags ap).1 { flags with signed := true } =
        (vaSigned va flags ap).1.toInt.natAbs := by
      unfold magnitude
      have hint := BitVec.toInt_eq_toNat_cond (vaSigned va flags ap).1
      split
      · rfl
      · next h =>
        simp only [true_and] at h
        split at hint <;> omega
    rw [longlongToString_eq, hmagnitude, decimalLoop_eq false hn, List.append_nil]
    unfold signText
    simp [hshapes.showSign]
  unfold convertSigned
  dsimp only
  rw [outputString_eq, hsigned.stringText_eq hwidth, htext]
  rfl

theorem Shapes.convertUnsigned_eq (hsigned : flags.signed = false)
    (hn : (vaUnsigned va flags ap).1.toNat < 2 ^ 32) :
    convertUnsigned va pr flags (BitVec.ofNat 32 d.width) ap s =
      (outputAll pr (d.unsignedText (vaUnsigned va flags ap).1.toNat) s, (vaUnsigned va flags ap).2) := by
  have htext : longlongToString (vaUnsigned va flags ap).1 flags =
      (if d.plus then [43] else []) ++ numeral false 10 (vaUnsigned va flags ap).1.toNat := by
    have hmagnitude : magnitude (vaUnsigned va flags ap).1 flags = (vaUnsigned va flags ap).1.toNat := by
      unfold magnitude
      rw [if_neg (by simp [hsigned])]
    rw [longlongToString_eq, hmagnitude, decimalLoop_eq false hn, List.append_nil]
    unfold signText
    simp [hshapes.showSign, hsigned]
  unfold convertUnsigned
  dsimp only
  rw [outputString_eq, hshapes.stringText_eq hwidth, htext]
  rfl

theorem Shapes.convertHex_eq :
    convertHex va pr flags (BitVec.ofNat 32 d.width) ap s =
      (outputAll pr (d.hexText flags.alt flags.caps (vaUnsigned va flags ap).1.toNat) s,
        (vaUnsigned va flags ap).2) := by
  unfold convertHex hexText
  dsimp only
  rw [outputAll_append, funext (outputString_eq flags _ _), hshapes.stringText_eq hwidth]
  unfold longlongToHexstring
  rw [hexLoop_eq, List.append_nil]
  split <;> rfl

end Directive

/-- The number that a signed conversion reads. -/
theorem vaSigned_eq :
    ((vaSigned va d.flags ap).1.toInt, (vaSigned va d.flags ap).2) = signedArg va d.length ap := by
  unfold vaSigned signedArg Directive.flags
  cases d.length <;> simp [BitVec.toInt_signExtend_of_le]

theorem vaSigned_long_eq : ((vaSigned va { d.flags with long := true } ap).1.toInt,
    (vaSigned va { d.flags with long := true } ap).2) = signedArg va d.length.orLong ap := by
  unfold vaSigned signedArg Directive.flags ArgLength.orLong
  cases d.length <;> simp [BitVec.toInt_signExtend_of_le]

/-- The number that an unsigned conversion reads. -/
theorem vaUnsigned_eq :
    ((vaUnsigned va d.flags ap).1.toNat, (vaUnsigned va d.flags ap).2) = unsignedArg va d.length ap := by
  have hword := (va.word ap).1.isLt
  unfold vaUnsigned unsignedArg Directive.flags
  cases d.length <;> simp <;> omega

theorem vaUnsigned_long_eq : ((vaUnsigned va { d.flags with long := true } ap).1.toNat,
    (vaUnsigned va { d.flags with long := true } ap).2) = unsignedArg va d.length.orLong ap := by
  have hword := (va.word ap).1.isLt
  unfold vaUnsigned unsignedArg Directive.flags ArgLength.orLong
  cases d.length <;> simp <;> omega

theorem modifier_letter (flags : Flags) (formatNum : BitVec 32) : modifier d.conv.letter flags formatNum = none := by
  cases d.conv <;> rfl

/-- The switch at the letter of the conversion. -/
theorem convert_letter (hok : d.Ok va ap) :
    convert va pr d.conv.letter d.flags (BitVec.ofNat 32 d.width) ap s =
      (outputAll pr (d.denote va ap).1 s, (d.denote va ap).2) := by
  obtain ⟨hwidth, hnumber⟩ := hok
  have hsigned := vaSigned_eq va d ap
  have hsignedLong := vaSigned_long_eq va d ap
  have hunsigned := vaUnsigned_eq va d ap
  have hunsignedLong := vaUnsigned_long_eq va d ap
  have hlong : d.Shapes { d.flags with long := true } := ⟨rfl, rfl, rfl⟩
  unfold Directive.denote
  cases hconv : d.conv with
  | d =>
    rw [hconv, ← hsigned] at hnumber
    rw [← hsigned]
    exact d.shapes_flags.convertSigned_eq va pr ap s hwidth hnumber
  | i =>
    rw [hconv, ← hsigned] at hnumber
    rw [← hsigned]
    exact d.shapes_flags.convertSigned_eq va pr ap s hwidth hnumber
  | longD =>
    rw [hconv, ← hsignedLong] at hnumber
    rw [← hsignedLong]
    exact hlong.convertSigned_eq va pr ap s hwidth hnumber
  | u =>
    rw [hconv, ← hunsigned] at hnumber
    rw [← hunsigned]
    exact d.shapes_flags.convertUnsigned_eq va pr ap s hwidth rfl hnumber
  | longU =>
    rw [hconv, ← hunsignedLong] at hnumber
    rw [← hunsignedLong]
    exact hlong.convertUnsigned_eq va pr ap s hwidth rfl hnumber
  | x =>
    rw [← hunsigned]
    exact d.shapes_flags.convertHex_eq va pr ap s hwidth
  | capsX =>
    have hshapes : d.Shapes { d.flags with caps := true } := ⟨rfl, rfl, rfl⟩
    rw [← hunsigned]
    exact hshapes.convertHex_eq va pr ap s hwidth
  | p =>
    have hshapes : d.Shapes { d.flags with long := true, alt := true } := ⟨rfl, rfl, rfl⟩
    rw [← hunsignedLong]
    exact hshapes.convertHex_eq va pr ap s hwidth
  | s =>
    refine congrArg (·, _) ?_
    rw [← d.shapes_flags.stringText_eq hwidth]
    exact outputString_eq _ _ _ s
  | c => exact congrArg (·, _) (outputAll_singleton _ s).symm
  | percent => exact congrArg (·, _) (outputAll_singleton _ s).symm

end Conversions

/-! ### Directives -/

section Directives

variable {σ S : Type} (va : VaList σ) (pr : Printer S) (ap : σ) (s : S) (fmt : List UInt8)

theorem formatLoop_modifier {c : UInt8} {flags flags' : Flags} {formatNum formatNum' : BitVec 32}
    (h : modifier c flags formatNum = some (flags', formatNum')) :
    formatLoop va pr (c :: fmt) (.conv flags formatNum) ap s =
      formatLoop va pr fmt (.conv flags' formatNum') ap s := by
  rw [formatLoop, h]

theorem modifier_digit (flags : Flags) (formatNum : BitVec 32) {k : ℕ} (hk : k < 10) :
    modifier (digit false k) flags formatNum =
      some (if k = 0 ∧ formatNum = 0 then { flags with leadZero := true } else flags,
        formatNum * 10 + BitVec.ofNat 32 k) := by
  have hdigit : digit false k = UInt8.ofNat (k + 48) := if_pos hk
  have hnat : (UInt8.ofNat (k + 48)).toNat = k + 48 := by
    rw [UInt8.toNat_ofNat']
    omega
  have hzero : UInt8.ofNat (k + 48) = 48 ↔ k = 0 := by
    rw [← UInt8.toNat_inj, hnat]
    exact Nat.add_eq_right
  have hrange : (48 : UInt8) ≤ UInt8.ofNat (k + 48) ∧ UInt8.ofNat (k + 48) ≤ 57 := by
    rw [UInt8.le_iff_toNat_le, UInt8.le_iff_toNat_le, hnat]
    exact ⟨Nat.le_add_left 48 k, Nat.add_le_add_right (Nat.le_of_lt_succ hk) 48⟩
  unfold modifier
  rw [hdigit, if_pos hrange, hnat, Nat.add_sub_cancel, if_congr (and_congr_left' hzero) rfl rfl]

/-- The digits of a width. -/
theorem formatLoop_numeral (flags : Flags) {width : ℕ} (hpos : 0 < width) (hlt : width < 2 ^ 32) :
    formatLoop va pr (numeral false 10 width ++ fmt) (.conv flags 0) ap s =
      formatLoop va pr fmt (.conv flags (BitVec.ofNat 32 width)) ap s := by
  induction width using Nat.strong_induction_on generalizing fmt with
  | _ width ih =>
    by_cases h : 10 ≤ width
    · have hfront : BitVec.ofNat 32 (width / 10) ≠ 0 := by
        intro heq
        have := congrArg BitVec.toNat heq
        rw [BitVec.toNat_ofNat, Nat.mod_eq_of_lt (by omega)] at this
        have h0 : (0 : BitVec 32).toNat = 0 := rfl
        omega
      have hnum : BitVec.ofNat 32 (width / 10) * 10 + BitVec.ofNat 32 (width % 10) = BitVec.ofNat 32 width := by
        rw [show (10 : BitVec 32) = BitVec.ofNat 32 10 from rfl, ← BitVec.ofNat_mul, ← BitVec.ofNat_add,
          Nat.div_add_mod']
      rw [numeral_of_le false (by decide) h, List.append_assoc,
        ih _ (Nat.div_lt_self hpos (by decide)) _ (by omega) (by omega), List.singleton_append]
      refine formatLoop_modifier va pr ap s fmt ?_
      rw [modifier_digit flags _ (Nat.mod_lt _ (by decide)), if_neg (fun h => hfront h.2), hnum]
    · rw [numeral_of_lt false (Nat.not_le.mp h), List.singleton_append]
      refine formatLoop_modifier va pr ap s fmt ?_
      rw [modifier_digit flags 0 (Nat.not_le.mp h), if_neg (fun h => hpos.ne' h.1)]
      exact congrArg (fun n => some (flags, n)) (by simp)

/-- The width of a directive. -/
theorem formatLoop_widthSource (flags : Flags) {width : ℕ} (hlt : width < 2 ^ 32) :
    formatLoop va pr (widthSource width ++ fmt) (.conv flags 0) ap s =
      formatLoop va pr fmt (.conv flags (BitVec.ofNat 32 width)) ap s := by
  unfold widthSource
  split
  · next h => rw [h, List.nil_append, BitVec.ofNat_eq_ofNat]
  · next h => exact formatLoop_numeral va pr ap s fmt flags (Nat.pos_of_ne_zero h) hlt

/-- The letters of a length. -/
theorem formatLoop_lengthSource (flags : Flags) (formatNum : BitVec 32) (length : ArgLength)
    (hlong : flags.long = false) (hhalf : flags.half = false) :
    formatLoop va pr (length.source ++ fmt) (.conv flags formatNum) ap s =
      formatLoop va pr fmt (.conv
        { flags with
          long := length = .long ∨ length = .longLong
          longLong := flags.longLong || decide (length = .longLong)
          half := length = .short ∨ length = .char
          halfHalf := flags.halfHalf || decide (length = .char)
          sizeT := flags.sizeT || decide (length = .size) } formatNum) ap s := by
  obtain ⟨long, longLong, half, halfHalf, sizeT, alt, caps, showSign, signed, leftFormat, leadZero⟩ := flags
  subst hlong hhalf
  have hh : ∀ flags : Flags, modifier 104 flags formatNum =
      some ({ flags with halfHalf := flags.halfHalf || flags.half, half := true }, formatNum) := fun _ => rfl
  have hl : ∀ flags : Flags, modifier 108 flags formatNum =
      some ({ flags with longLong := flags.longLong || flags.long, long := true }, formatNum) := fun _ => rfl
  have hz : ∀ flags : Flags, modifier 122 flags formatNum = some ({ flags with sizeT := true }, formatNum) :=
    fun _ => rfl
  cases length <;> simp [ArgLength.source, formatLoop, hh, hl, hz]

/-- The loop on one directive prints what it says and goes on behind it. -/
theorem formatLoop_directive (d : Directive) (hok : d.Ok va ap) :
    formatLoop va pr (d.source ++ fmt) .text ap s =
      (outputAll pr (d.denote va ap).1 s).bind (formatLoop va pr fmt .text (d.denote va ap).2) := by
  have hflags : ∀ fmt, formatLoop va pr ((if d.left then [45] else []) ++ ((if d.plus then [43] else []) ++
      ((if d.alt then [35] else []) ++ ((if d.zero then [48] else []) ++ fmt)))) (.conv {} 0) ap s =
      formatLoop va pr fmt (.conv { alt := d.alt, showSign := d.plus, leftFormat := d.left, leadZero := d.zero } 0)
        ap s := by
    intro fmt
    cases d.left <;> cases d.plus <;> cases d.alt <;> cases d.zero <;> rfl
  unfold Directive.source
  simp only [List.cons_append, List.append_assoc]
  rw [formatLoop, if_pos rfl, hflags, formatLoop_widthSource va pr ap s _ _ hok.1,
    formatLoop_lengthSource va pr ap s _ _ _ _ rfl rfl, List.nil_append, formatLoop, modifier_letter]
  exact congrArg (fun r => r.1.bind (formatLoop va pr fmt .text r.2)) (convert_letter va pr d ap s hok)

/-- A text without a `%` is printed as it is. -/
theorem formatLoop_text {cs : List UInt8} (hcs : 37 ∉ cs) :
    formatLoop va pr (cs ++ fmt) .text ap s = (outputAll pr cs s).bind (formatLoop va pr fmt .text ap) := by
  induction cs generalizing s with
  | nil => rfl
  | cons c cs ih =>
    simp only [List.mem_cons, not_or] at hcs
    rw [List.cons_append, formatLoop, if_neg (Ne.symm hcs.1), outputAll]
    cases pr.out s c with
    | error s' => rfl
    | ok s' => exact ih s' hcs.2

/-- The loop prints what the format says, whatever it prints to. -/
theorem formatLoop_eq {pieces : List Piece} (hok : FormatOk va pieces ap) :
    formatLoop va pr (formatSource pieces) .text ap s = outputAll pr (denote va pieces ap) s := by
  induction pieces generalizing ap s with
  | nil => rfl
  | cons piece pieces ih =>
    rw [formatSource, List.flatMap_cons]
    cases piece with
    | text cs =>
      rw [denote, outputAll_append]
      exact (formatLoop_text va pr ap s _ hok.1).trans
        (congrArg _ (funext fun s' => ih ap s' hok.2.2))
    | arg d =>
      rw [denote, outputAll_append]
      exact (formatLoop_directive va pr ap s _ d hok.1).trans
        (congrArg _ (funext fun s' => ih _ s' hok.2))

end Directives

/-- **`vsnprintf` leaves what its format says in its buffer**: the text that the format denotes, cut to the
length of the buffer, and a terminator; it changes nothing else, and it returns how long the text is. -/
theorem vsnprintf_denotes {σ : Type} (va : VaList σ) (mem : ℕ → UInt8) (str : ℕ) {len : BitVec 32}
    (hlen : 2 ≤ len.toNat) {pieces : List Piece} {ap : σ} (hok : FormatOk va pieces ap) :
    vsnprintf va mem str len (formatSource pieces) ap =
      (write mem str ((denote va pieces ap).take (len.toNat - 1) ++ [0]),
        (BitVec.ofNat 32 (min (len.toNat - 1) (denote va pieces ap).length)).toInt) :=
  vsnprintf_of_text mem str hlen fun s => formatLoop_eq va _ ap s hok

/-- An argument, as a caller passes it. -/
inductive Arg
  | word (w : BitVec 32)
  | longLong (w : BitVec 64)
  | string (str : Option (List UInt8))
  deriving DecidableEq, Repr

/-- The arguments of a call. -/
def argList : VaList (List Arg) where
  word
    | .word w :: ap => (w, ap)
    | ap => (0, ap.tail)
  longLong
    | .longLong w :: ap => (w, ap)
    | ap => (0, ap.tail)
  string
    | .string str :: ap => (str, ap)
    | ap => (none, ap.tail)

/-- `"%s: %-4d|%+05hd|%#08lX %%\n"` -/
def mixedFormat : List Piece :=
  [.arg ⟨false, false, false, false, 0, .int, .s⟩, .text (chars ": "),
    .arg ⟨true, false, false, false, 4, .int, .d⟩, .text (chars "|"),
    .arg ⟨false, true, false, true, 5, .short, .d⟩, .text (chars "|"),
    .arg ⟨false, false, true, true, 8, .long, .capsX⟩, .text (chars " "),
    .arg ⟨false, false, false, false, 0, .int, .percent⟩, .text [10]]

/-- `"irq", 42, -7, 0xbeef` -/
def mixedArgs : List Arg := [.string (some (chars "irq")), .word 42, .word (-7), .word 0xbeef]

example : formatSource mixedFormat = chars "%s: %-4d|%+05hd|%#08lX %%\n" := by decide +kernel

/-- `"irq: 42  |000-7|0X0000BEEF %\n"` in a buffer of sixteen bytes. -/
theorem vsnprintf_denotes_mixed :
    vsnprintf argList (fun _ => 1) 256 16 (formatSource mixedFormat) mixedArgs =
      (write (fun _ => 1) 256 ((denote argList mixedFormat mixedArgs).take (16 - 1) ++ [0]),
        (BitVec.ofNat 32 (min (16 - 1) (denote argList mixedFormat mixedArgs).length)).toInt) ∧
    denote argList mixedFormat mixedArgs = chars "irq: 42  |000-7|0X0000BEEF %\n" :=
  ⟨vsnprintf_denotes argList _ _ (by decide) (by
    simp only [mixedFormat, FormatOk, Directive.Ok]
    decide), by decide +kernel⟩

end YakOS
