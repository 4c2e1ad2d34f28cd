import YakOS.Kernel.Digits
import YakOS.Kernel.Log

/-!
# Formatted output

`vsnprintf` and `_dvprintf` of `kernel/printk.c`.  The formatting loop writes through
`OUTPUT_CHAR`, which leaves it as soon as only the terminator fits the buffer.  The loop
is modelled over a `Printer`, the two things it does to the buffer, so that the same
loop runs on a buffer of `len` bytes and on one without an end.

`va_arg` is a parameter: the words, the `long long`s and the strings that it reads from
the list of arguments.  A string is the characters before its NUL, so it does not lie in
the buffer that is written.

## Main definitions

* `VaList` — reading the arguments.
* `Printer`, `bounded`, `unlimited` — the output of the loop.
* `formatLoop`, `vsnprintf`, `dvprintf` — the code.
* `hasCount` — a format has a `%n` conversion.

## Main results

* `exists_formatLoop_eq` — what the loop prints does not depend on the printer.
* `outputAll_bounded` — where a bounded buffer stops.
* `vsnprintf_truncates` — `vsnprintf` is the unlimited loop, cut to the buffer.
* `dvprintf_eq` — the message that reaches the log and the console.
-/

namespace YakOS

open Bytes

/-- `va_arg` for the types the formats use; `none` is a null pointer. -/
structure VaList (σ : Type) where
  word : σ → BitVec 32 × σ
  longLong : σ → BitVec 64 × σ
  string : σ → Option (List UInt8) × σ

/-- What the formatting loop does to its output; `Except.error` is `goto done`. -/
structure Printer (S : Type) where
  /-- `OUTPUT_CHAR` -/
  out : S → UInt8 → Except S S
  /-- The store of a `%n` conversion. -/
  store : Flags → BitVec 32 → S → S

/-- Where the loop is in the format. -/
inductive Mode
  | text
  /-- Behind a `%`, with `flags` and `format_num`. -/
  | conv (flags : Flags) (formatNum : BitVec 32)

section Loop

variable {σ S : Type} (va : VaList σ) (pr : Printer S)

/-- `while (*s != 0) OUTPUT_CHAR(*s++);` -/
def outputAll : List UInt8 → S → Except S S
  | [], s => .ok s
  | c :: cs, s => (pr.out s c).bind (outputAll cs)

/-- `for (; format_num > count; format_num--) OUTPUT_CHAR(c);` -/
def pad (c : UInt8) (count : ℕ) : ℕ → S → Except S S
  | 0, s => .ok s
  | formatNum + 1, s =>
    if count < formatNum + 1 then (pr.out s c).bind (pad c count formatNum) else .ok s

/-- `_output_string` -/
def outputString (flags : Flags) (formatNum : BitVec 32) (str : List UInt8) (s : S) : Except S S :=
  if flags.leftFormat then (outputAll pr str s).bind (pad pr 32 str.length formatNum.toNat)
  else
    (pad pr (if flags.leadZero then 48 else 32) str.length formatNum.toNat s).bind (outputAll pr str)

/-- The number of a signed conversion; a `long` and an `ssize_t` are words. -/
def vaSigned (flags : Flags) (ap : σ) : BitVec 64 × σ :=
  if flags.longLong then va.longLong ap
  else
    let w := (va.word ap).1
    (if flags.long then w.signExtend 64
      else if flags.halfHalf then (w.setWidth 8).signExtend 64
      else if flags.half then (w.setWidth 16).signExtend 64
      else w.signExtend 64, (va.word ap).2)

/-- The number of an unsigned conversion. -/
def vaUnsigned (flags : Flags) (ap : σ) : BitVec 64 × σ :=
  if flags.longLong then va.longLong ap
  else
    let w := (va.word ap).1
    (if flags.long then w.setWidth 64
      else if flags.halfHalf then (w.setWidth 8).setWidth 64
      else if flags.half then (w.setWidth 16).setWidth 64
      else w.setWidth 64, (va.word ap).2)

/-- `case 'd'` -/
def convertSigned (flags : Flags) (formatNum : BitVec 32) (ap : σ) (s : S) : Except S S × σ :=
  let n := vaSigned va flags ap
  let flags := { flags with signed := true }
  (outputString pr flags formatNum (longlongToString n.1 flags) s, n.2)

/-- `case 'u'` -/
def convertUnsigned (flags : Flags) (formatNum : BitVec 32) (ap : σ) (s : S) : Except S S × σ :=
  let n := vaUnsigned va flags ap
  (outputString pr flags formatNum (longlongToString n.1 flags) s, n.2)

/-- `hex` -/
def convertHex (flags : Flags) (formatNum : BitVec 32) (ap : σ) (s : S) : Except S S × σ :=
  let n := vaUnsigned va flags ap
  let str := longlongToHexstring n.1 flags
  let s' := if flags.alt then outputAll pr [48, if flags.caps then 88 else 120] s else .ok s
  (s'.bind (outputString pr flags formatNum str), n.2)

/-- The cases of the switch that go to `next_format`. -/
def modifier (c : UInt8) (flags : Flags) (formatNum : BitVec 32) : Option (Flags × BitVec 32) :=
  if 48 ≤ c ∧ c ≤ 57 then
    some (if c = 48 ∧ formatNum = 0 then { flags with leadZero := true } else flags,
      formatNum * 10 + BitVec.ofNat 32 (c.toNat - 48))
  else
    match Char.ofNat c.toNat with
    | '.' => some (flags, formatNum)
    | '-' => some ({ flags with leftFormat := true }, formatNum)
    | '+' => some ({ flags with showSign := true }, formatNum)
    | '#' => some ({ flags with alt := true }, formatNum)
    | 'l' => some ({ flags with longLong := flags.longLong || flags.long, long := true }, formatNum)
    | 'h' => some ({ flags with halfHalf := flags.halfHalf || flags.half, half := true }, formatNum)
    | 'z' => some ({ flags with sizeT := true }, formatNum)
    | _ => none

/-- The other cases of the switch: the output and the arguments left. -/
def convert (c : UInt8) (flags : Flags) (formatNum : BitVec 32) (ap : σ) (s : S) : Except S S × σ :=
  match Char.ofNat c.toNat with
  | '%' => (pr.out s 37, ap)
  | 'c' => (pr.out s (UInt8.ofNat (va.word ap).1.toNat), (va.word ap).2)
  | 's' =>
    (outputString pr flags formatNum ((va.string ap).1.getD (chars "<null>")) s, (va.string ap).2)
  | 'D' => convertSigned va pr { flags with long := true } formatNum ap s
  | 'i' => convertSigned va pr flags formatNum ap s
  | 'd' => convertSigned va pr flags formatNum ap s
  | 'U' => convertUnsigned va pr { flags with long := true } formatNum ap s
  | 'u' => convertUnsigned va pr flags formatNum ap s
  | 'p' => convertHex va pr { flags with long := true, alt := true } formatNum ap s
  | 'X' => convertHex va pr { flags with caps := true } formatNum ap s
  | 'x' => convertHex va pr flags formatNum ap s
  | 'n' => (.ok (pr.store flags (va.word ap).1 s), (va.word ap).2)
  | _ => (outputAll pr [37, c] s, ap)

/-- The loop of `vsnprintf` over the characters of the format. -/
def formatLoop : List UInt8 → Mode → σ → S → Except S S
  | [], _, _, s => .ok s
  | c :: fmt, .text, ap, s =>
    if c = 37 then formatLoop fmt (.conv {} 0) ap s
    else (pr.out s c).bind (formatLoop fmt .text ap)
  | c :: fmt, .conv flags formatNum, ap, s =>
    match modifier c flags formatNum with
    | some m => formatLoop fmt (.conv m.1 m.2) ap s
    | none =>
      let r := convert va pr c flags formatNum ap s
      r.1.bind (formatLoop fmt .text r.2)

end Loop

/-- A format has a `%n` conversion from a place on. -/
def hasCount : Mode → List UInt8 → Bool
  | _, [] => false
  | .text, c :: fmt => if c = 37 then hasCount (.conv {} 0) fmt else hasCount .text fmt
  | .conv flags formatNum, c :: fmt =>
    match modifier c flags formatNum with
    | some m => hasCount (.conv m.1 m.2) fmt
    | none => decide (c = 110) || hasCount .text fmt

/-! ### The two outputs -/

/-- The buffer, the position in it and `chars_written`. -/
structure Sink where
  mem : ℕ → UInt8
  str : ℕ
  charsWritten : BitVec 32

/-- `OUTPUT_CHAR_NOLENCHECK` -/
def Sink.put (s : Sink) (c : UInt8) : Sink where
  mem := write s.mem s.str [c]
  str := s.str + 1
  charsWritten := s.charsWritten + 1

/-- The bytes that a `%n` conversion stores. -/
def countBytes (flags : Flags) (charsWritten : ℕ) : List UInt8 :=
  if flags.longLong then le32 charsWritten ++ [0, 0, 0, 0]
  else if flags.long then le32 charsWritten
  else if flags.halfHalf then [UInt8.ofNat charsWritten]
  else if flags.half then le16 charsWritten
  else le32 charsWritten

/-- The output to a buffer of `len` bytes. -/
def bounded (len : BitVec 32) : Printer Sink where
  out s c := if (s.put c).charsWritten + 1 = len then .error (s.put c) else .ok (s.put c)
  store flags ptr s :=
    { s with mem := write s.mem ptr.toNat (countBytes flags s.charsWritten.toNat) }

/-- The output to a buffer without an end, as the text in it. -/
def unlimited : Printer (List UInt8) where
  out s c := .ok (s ++ [c])
  store _ _ s := s

/-- `vsnprintf`: the memory it leaves and the value it returns. -/
def vsnprintf {σ : Type} (va : VaList σ) (mem : ℕ → UInt8) (str : ℕ) (len : BitVec 32)
    (fmt : List UInt8) (ap : σ) : (ℕ → UInt8) × ℤ :=
  let s :=
    match formatLoop va (bounded len) fmt .text ap ⟨mem, str, 0⟩ with
    | .ok s => s
    | .error s => s
  -- `done`: the terminator does not count
  ((s.put 0).mem, ((s.put 0).charsWritten - 1).toInt)

/-- The size of the buffer of `_dvprintf`. -/
def dvprintfSize : BitVec 32 := 256

/-- `_dvprintf` with its buffer at `buf`: the log it leaves, what `puts` prints and the value it
returns. -/
def dvprintf {σ : Type} (va : VaList σ) (mem : ℕ → UInt8) (buf : ℕ) (log : LogState)
    (fmt : List UInt8) (ap : σ) : Option (LogState × List UInt8 × ℤ) :=
  let r := vsnprintf va mem buf dvprintfSize fmt ap
  if 0 < r.2 then
    (logStore log 0 (read r.1 buf (r.2.toNat + 1))).map fun log =>
      (log, cString (read r.1 buf dvprintfSize.toNat), r.2)
  else some (log, [], r.2)

/-! ### The text does not depend on the output -/

section Text

variable {σ S : Type} {va : VaList σ} {pr : Printer S}

theorem outputAll_append (cs ds : List UInt8) (s : S) :
    outputAll pr (cs ++ ds) s = (outputAll pr cs s).bind (outputAll pr ds) := by
  induction cs generalizing s with
  | nil => rfl
  | cons c cs ih =>
    rw [List.cons_append, outputAll, outputAll]
    cases pr.out s c with
    | error s' => rfl
    | ok s' => exact ih s'

theorem outputAll_singleton (c : UInt8) (s : S) : outputAll pr [c] s = pr.out s c := by
  rw [outputAll]
  cases pr.out s c <;> rfl

theorem pad_eq (c : UInt8) (count formatNum : ℕ) (s : S) :
    pad pr c count formatNum s = outputAll pr (List.replicate (formatNum - count) c) s := by
  induction formatNum generalizing s with
  | zero =>
    rw [Nat.zero_sub]
    rfl
  | succ formatNum ih =>
    rw [pad]
    split
    · next h =>
      rw [show formatNum + 1 - count = formatNum - count + 1 by omega, List.replicate_succ, outputAll]
      exact congrArg _ (funext ih)
    · next h =>
      rw [Nat.sub_eq_zero_of_le (Nat.le_of_not_lt h)]
      rfl

/-- What `_output_string` prints. -/
def stringText (flags : Flags) (formatNum : BitVec 32) (str : List UInt8) : List UInt8 :=
  if flags.leftFormat then str ++ List.replicate (formatNum.toNat - str.length) 32
  else List.replicate (formatNum.toNat - str.length) (if flags.leadZero then 48 else 32) ++ str

theorem outputString_eq (flags : Flags) (formatNum : BitVec 32) (str : List UInt8) (s : S) :
    outputString pr flags formatNum str s = outputAll pr (stringText flags formatNum str) s := by
  unfold outputString stringText
  split
  · rw [outputAll_append]
    exact congrArg _ (funext (pad_eq 32 str.length formatNum.toNat))
  · rw [outputAll_append, pad_eq]

theorem eq_of_char_eq_n {c : UInt8} (h : Char.ofNat c.toNat = 'n') : c = 110 := by
  have hvalid : c.toNat.isValidChar := Or.inl (lt_trans c.toNat_lt (by decide))
  have hnat : (Char.ofNat c.toNat).toNat = c.toNat := by
    unfold Char.ofNat
    rw [dif_pos hvalid]
    rfl
  rw [h] at hnat
  exact UInt8.toNat_inj.mp hnat.symm

/-- A conversion other than `%n` prints a text and goes on with the arguments left, whatever it prints
to. -/
theorem exists_convert_eq (va : VaList σ) {c : UInt8} (hc : c ≠ 110) (flags : Flags)
    (formatNum : BitVec 32) (ap : σ) : ∃ cs ap', ∀ (S : Type) (pr : Printer S) s,
      convert va pr c flags formatNum ap s = (outputAll pr cs s, ap') := by
  have hsigned : ∀ flags : Flags, ∃ cs ap', ∀ (S : Type) (pr : Printer S) s,
      convertSigned va pr flags formatNum ap s = (outputAll pr cs s, ap') := fun flags =>
    ⟨_, _, fun S pr s => congrArg (·, _) (outputString_eq _ formatNum _ s)⟩
  have hunsigned : ∀ flags : Flags, ∃ cs ap', ∀ (S : Type) (pr : Printer S) s,
      convertUnsigned va pr flags formatNum ap s = (outputAll pr cs s, ap') := fun flags =>
    ⟨_, _, fun S pr s => congrArg (·, _) (outputString_eq _ formatNum _ s)⟩
  have hhex : ∀ flags : Flags, ∃ cs ap', ∀ (S : Type) (pr : Printer S) s,
      convertHex va pr flags formatNum ap s = (outputAll pr cs s, ap') := by
    intro flags
    refine ⟨(if flags.alt then [48, if flags.caps then 88 else 120] else []) ++
      stringText flags formatNum (longlongToHexstring (vaUnsigned va flags ap).1 flags),
      (vaUnsigned va flags ap).2, fun S pr s => ?_⟩
    unfold convertHex
    rw [outputAll_append]
    refine congrArg (·, _) ?_
    rw [funext (outputString_eq flags formatNum _)]
    split <;> rfl
  unfold convert
  split
  · exact ⟨[37], ap, fun S pr s => by rw [outputAll_singleton]⟩
  · exact ⟨[_], _, fun S pr s => by rw [outputAll_singleton]⟩
  · exact ⟨_, _, fun S pr s => by rw [outputString_eq]⟩
  · exact hsigned _
  · exact hsigned _
  · exact hsigned _
  · exact hunsigned _
  · exact hunsigned _
  · exact hhex _
  · exact hhex _
  · exact hhex _
  · next h => exact absurd (eq_of_char_eq_n h) hc
  · exact ⟨[37, c], ap, fun S pr s => rfl⟩

/-- What the loop prints to any output, as long as it does not ask how much it has printed. -/
theorem exists_formatLoop_eq (va : VaList σ) {fmt : List UInt8} {mode : Mode} (h : hasCount mode fmt = false)
    (ap : σ) : ∃ text, ∀ (S : Type) (pr : Printer S) s,
      formatLoop va pr fmt mode ap s = outputAll pr text s := by
  induction fmt generalizing mode ap with
  | nil => exact ⟨[], fun S pr s => by cases mode <;> rfl⟩
  | cons c fmt ih =>
    cases mode with
    | text =>
      rw [hasCount] at h
      by_cases hc : c = 37
      · rw [if_pos hc] at h
        obtain ⟨text, htext⟩ := ih h ap
        refine ⟨text, fun S pr s => ?_⟩
        rw [formatLoop, if_pos hc, htext]
      · rw [if_neg hc] at h
        obtain ⟨text, htext⟩ := ih h ap
        refine ⟨c :: text, fun S pr s => ?_⟩
        rw [formatLoop, if_neg hc, outputAll, funext (htext S pr)]
    | conv flags formatNum =>
      rw [hasCount] at h
      cases hm : modifier c flags formatNum with
      | some m =>
        rw [hm] at h
        obtain ⟨text, htext⟩ := ih h ap
        refine ⟨text, fun S pr s => ?_⟩
        rw [formatLoop, hm]
        exact htext S pr s
      | none =>
        rw [hm] at h
        simp only [Bool.or_eq_false_iff, decide_eq_false_iff_not] at h
        obtain ⟨cs, ap', hconvert⟩ := exists_convert_eq va h.1 flags formatNum ap
        obtain ⟨text, htext⟩ := ih h.2 ap'
        refine ⟨cs ++ text, fun S pr s => ?_⟩
        rw [formatLoop, hm, outputAll_append]
        dsimp only
        rw [hconvert, funext (htext S pr)]

end Text

/-! ### The bounded buffer -/

section Bounded

variable (mem : ℕ → UInt8) (str : ℕ) {len : BitVec 32} {text : List UInt8}

/-- The output after a text was written to the buffer. -/
def sinkAt (text : List UInt8) : Sink where
  mem := write mem str text
  str := str + text.length
  charsWritten := BitVec.ofNat 32 text.length

theorem sinkAt_put (text : List UInt8) (c : UInt8) :
    (sinkAt mem str text).put c = sinkAt mem str (text ++ [c]) := by
  unfold sinkAt Sink.put
  rw [write_append, List.length_append, List.length_singleton, BitVec.ofNat_add, Nat.add_assoc]
  rfl

/-- One character: the loop is left when only the terminator fits. -/
theorem bounded_out (hlen : text.length + 1 < len.toNat) (c : UInt8) :
    (bounded len).out (sinkAt mem str text) c =
      if text.length + 2 = len.toNat then .error (sinkAt mem str (text ++ [c]))
      else .ok (sinkAt mem str (text ++ [c])) := by
  have hcount : (sinkAt mem str (text ++ [c])).charsWritten + 1 = len ↔
      text.length + 2 = len.toNat := by
    have hlt := len.isLt
    unfold sinkAt
    have hone : (1 : BitVec 32).toNat = 1 := rfl
    rw [← BitVec.toNat_inj, List.length_append, List.length_singleton, BitVec.toNat_add,
      BitVec.toNat_ofNat, hone]
    omega
  unfold bounded
  dsimp only
  rw [sinkAt_put, if_congr hcount rfl rfl]

/-- A text written behind another one: it is cut where the buffer ends. -/
theorem outputAll_bounded (text : List UInt8) (hlen : text.length + 1 < len.toNat)
    (cs : List UInt8) :
    outputAll (bounded len) cs (sinkAt mem str text) =
      if (text ++ cs).length + 1 < len.toNat then .ok (sinkAt mem str (text ++ cs))
      else .error (sinkAt mem str ((text ++ cs).take (len.toNat - 1))) := by
  induction cs generalizing text with
  | nil => rw [List.append_nil, if_pos hlen, outputAll]
  | cons c cs ih =>
    have happend : text ++ c :: cs = text ++ [c] ++ cs := by simp
    have hc : (text ++ [c]).length = text.length + 1 := by simp
    rw [outputAll, bounded_out mem str hlen, happend]
    by_cases hfull : text.length + 2 = len.toNat
    · rw [if_pos hfull, if_neg (by rw [List.length_append, hc]; omega),
        List.take_left' (by rw [hc]; omega)]
      rfl
    · rw [if_neg hfull]
      exact ih _ (by rw [hc]; omega)

theorem outputAll_unlimited (cs s : List UInt8) : outputAll unlimited cs s = .ok (s ++ cs) := by
  induction cs generalizing s with
  | nil => rw [outputAll, List.append_nil]
  | cons c cs ih =>
    rw [outputAll]
    show outputAll unlimited cs (s ++ [c]) = _
    rw [ih, List.append_assoc, List.singleton_append]

variable {σ : Type} {va : VaList σ} {fmt : List UInt8} {ap : σ}

/-- `vsnprintf` writes the text that its loop prints, cut to leave room for the terminator. -/
theorem vsnprintf_of_text (hlen : 2 ≤ len.toNat)
    (htext : ∀ s, formatLoop va (bounded len) fmt .text ap s = outputAll (bounded len) text s) :
    vsnprintf va mem str len fmt ap =
      (write mem str (text.take (len.toNat - 1) ++ [0]),
        (BitVec.ofNat 32 (min (len.toNat - 1) text.length)).toInt) := by
  have hstart : (⟨mem, str, 0⟩ : Sink) = sinkAt mem str [] := by
    unfold sinkAt
    rw [write_nil]
    rfl
  have hrun := outputAll_bounded mem str [] hlen text
  have hend : (match formatLoop va (bounded len) fmt .text ap ⟨mem, str, 0⟩ with
      | .ok s => s
      | .error s => s) = sinkAt mem str (text.take (len.toNat - 1)) := by
    rw [htext, hstart, hrun, List.nil_append]
    by_cases hfit : text.length + 1 < len.toNat
    · rw [if_pos hfit, List.take_of_length_le (by omega)]
    · rw [if_neg hfit]
  have hcount : (BitVec.ofNat 32 (text.take (len.toNat - 1) ++ [0]).length) - 1
      = BitVec.ofNat 32 (min (len.toNat - 1) text.length) := by
    rw [List.length_append, List.length_take, List.length_singleton, BitVec.ofNat_add]
    exact BitVec.add_sub_cancel _ _
  unfold vsnprintf
  rw [hend]
  dsimp only
  rw [sinkAt_put]
  exact congrArg (write mem str _, BitVec.toInt ·) hcount

/-- `vsnprintf` writes what the unlimited loop prints. -/
theorem vsnprintf_eq (va : VaList σ) (ap : σ) (hlen : 2 ≤ len.toNat)
    (hfmt : hasCount .text fmt = false) :
    ∃ f, formatLoop va unlimited fmt .text ap [] = .ok f ∧
      vsnprintf va mem str len fmt ap =
        (write mem str (f.take (len.toNat - 1) ++ [0]),
          (BitVec.ofNat 32 (min (len.toNat - 1) f.length)).toInt) := by
  obtain ⟨text, htext⟩ := exists_formatLoop_eq va hfmt ap
  refine ⟨text, ?_, vsnprintf_of_text mem str hlen (htext _ _)⟩
  rw [htext, outputAll_unlimited, List.nil_append]

end Bounded

/-- For a buffer of at least two bytes and a format without `%n`, `vsnprintf` leaves the text of the
unlimited loop in the buffer, cut to `len - 1` characters, with a NUL behind it, and changes nothing
else.  It returns the number of characters in front of the NUL as an `int`: the number itself below
`2 ^ 31`. -/
theorem vsnprintf_truncates {σ : Type} (va : VaList σ) (mem : ℕ → UInt8) (str : ℕ) {len : BitVec 32}
    (hlen : 2 ≤ len.toNat) {fmt : List UInt8} (hfmt : hasCount .text fmt = false) (ap : σ) :
    ∃ f, formatLoop va unlimited fmt .text ap [] = .ok f ∧
      (vsnprintf va mem str len fmt ap).1 = write mem str (f.take (min (len.toNat - 1) f.length) ++ [0]) ∧
      (f.take (min (len.toNat - 1) f.length) ++ [0]).length ≤ len.toNat ∧
      (vsnprintf va mem str len fmt ap).2 = (BitVec.ofNat 32 (min (len.toNat - 1) f.length)).toInt ∧
      (min (len.toNat - 1) f.length < 2 ^ 31 →
        (vsnprintf va mem str len fmt ap).2 = (min (len.toNat - 1) f.length : ℕ)) := by
  obtain ⟨f, hf, heq⟩ := vsnprintf_eq mem str va ap hlen hfmt
  refine ⟨f, hf, ?_, ?_, ?_, ?_⟩
  · rw [heq, List.take_eq_take_min]
  · rw [List.length_append, List.length_take, List.length_singleton]
    omega
  · rw [heq]
  · intro hlt
    rw [heq, BitVec.toInt_eq_toNat_cond, BitVec.toNat_ofNat, Nat.mod_eq_of_lt (by omega),
      if_pos (by omega)]

/-- `"%5d|"` with the number 42, in a buffer of four bytes. -/
theorem vsnprintf_truncates_four :
    let va : VaList Unit := ⟨fun _ => (42, ()), fun _ => (42, ()), fun _ => (none, ())⟩
    ∃ f, formatLoop va unlimited (chars "%5d|") .text () [] = .ok f ∧
      (vsnprintf va (fun _ => 1) 8 4 (chars "%5d|") ()).1
        = write (fun _ => 1) 8 (f.take (min (4 - 1) f.length) ++ [0]) ∧
      (f.take (min (4 - 1) f.length) ++ [0]).length ≤ 4 ∧
      (vsnprintf va (fun _ => 1) 8 4 (chars "%5d|") ()).2 = (BitVec.ofNat 32 (min (4 - 1) f.length)).toInt ∧
      (min (4 - 1) f.length < 2 ^ 31 →
        (vsnprintf va (fun _ => 1) 8 4 (chars "%5d|") ()).2 = (min (4 - 1) f.length : ℕ)) :=
  vsnprintf_truncates _ _ _ (by decide) (by decide) ()

/-! ### A count that does not fit an `int` -/

/-- Arguments that are all empty strings. -/
def emptyStrings : VaList Unit where
  word _ := (0, ())
  longLong _ := (0, ())
  string _ := (some [], ())

/-- `"%2147483648s"` -/
def wideFormat : List UInt8 := [37, 50, 49, 52, 55, 52, 56, 51, 54, 52, 56, 115]

/-- An empty string is padded to the width. -/
theorem formatLoop_emptyString {S : Type} (pr : Printer S) (width : BitVec 32) (s : S) :
    formatLoop emptyStrings pr [115] (.conv {} width) () s
      = outputAll pr (List.replicate width.toNat 32) s := by
  have hm : modifier 115 {} width = none := by
    unfold modifier
    rfl
  have hconvert : convert emptyStrings pr 115 {} width () s
      = (outputString pr {} width [] s, ()) := by
    unfold convert
    rfl
  rw [formatLoop, hm]
  dsimp only
  rw [hconvert, outputString_eq]
  unfold stringText
  rw [if_neg (by decide), if_neg (by decide), List.append_nil, List.length_nil, Nat.sub_zero]
  cases outputAll pr (List.replicate width.toNat 32) s <;> rfl

theorem formatLoop_wideFormat {S : Type} (pr : Printer S) (s : S) :
    formatLoop emptyStrings pr wideFormat .text () s
      = outputAll pr (List.replicate (2 ^ 31 : BitVec 32).toNat 32) s := by
  rw [← formatLoop_emptyString]
  rfl

/-- `2 ^ 31` spaces fit a buffer of `2 ^ 31 + 1` bytes, and the value returned is negative. -/
theorem vsnprintf_count_wraps : ¬ ∀ (len : BitVec 32) (fmt : List UInt8), 2 ≤ len.toNat →
    hasCount .text fmt = false → ∀ f, formatLoop emptyStrings unlimited fmt .text () [] = .ok f →
      (vsnprintf emptyStrings (fun _ => 0) 0 len fmt ()).2 = (min (len.toNat - 1) f.length : ℕ) := by
  intro hall
  have hlen : (2 ^ 31 + 1 : BitVec 32).toNat = 2 ^ 31 + 1 := by decide
  have hfmt : hasCount .text wideFormat = false := by decide
  obtain ⟨f, hf, heq⟩ := vsnprintf_eq (fun _ => 0) 0 emptyStrings ()
    (by rw [hlen]; omega : 2 ≤ (2 ^ 31 + 1 : BitVec 32).toNat) hfmt
  have hcount : f.length = 2 ^ 31 := by
    rw [formatLoop_wideFormat, outputAll_unlimited] at hf
    cases hf
    rw [List.nil_append, List.length_replicate]
    decide
  have hret := hall _ _ (by rw [hlen]; omega) hfmt f hf
  have hwrap : (BitVec.ofNat 32 (2 ^ 31)).toInt = -2 ^ 31 := by decide
  rw [heq, hcount, hlen, Nat.add_sub_cancel, Nat.min_self, hwrap] at hret
  omega

/-! ### Messages -/

section Dvprintf

variable {σ : Type} (va : VaList σ) (mem : ℕ → UInt8) (buf : ℕ) (log : LogState) {fmt : List UInt8}
  (ap : σ)

/-- `_dvprintf` stores and prints the first 255 characters of the text that its loop prints, if there are
any: the record takes at most 256 bytes, its terminator included. -/
theorem dvprintf_of_text {f : List UInt8}
    (hf : ∀ s, formatLoop va (bounded dvprintfSize) fmt .text ap s = outputAll (bounded dvprintfSize) f s) :
    dvprintf va mem buf log fmt ap =
      if f = [] then some (log, [], 0)
      else (logStore log 0 (f.take 255 ++ [0])).map fun log =>
        (log, cString (f.take 255), ((min 255 f.length : ℕ) : ℤ)) := by
  have hsize : dvprintfSize.toNat = 256 := rfl
  have heq := vsnprintf_of_text mem buf (by rw [hsize]; omega) hf
  rw [hsize, Nat.add_one_sub_one] at heq
  have hcount : (BitVec.ofNat 32 (min 255 f.length)).toInt = (min 255 f.length : ℕ) := by
    rw [BitVec.toInt_eq_toNat_cond, BitVec.toNat_ofNat, Nat.mod_eq_of_lt (by omega), if_pos (by omega)]
  unfold dvprintf
  rw [heq, hcount, hsize]
  dsimp only
  by_cases hnil : f = []
  · rw [if_pos hnil, hnil]
    rfl
  · have hpos := List.length_pos_iff.mpr hnil
    have hlen : (f.take 255 ++ [0]).length = min 255 f.length + 1 := by simp
    have hstored : read (write mem buf (f.take 255 ++ [0])) buf (min 255 f.length + 1)
        = f.take 255 ++ [0] := by
      rw [← hlen, read_write_self]
    have hprinted : cString (read (write mem buf (f.take 255 ++ [0])) buf 256) = cString (f.take 255) := by
      rw [show 256 = min 255 f.length + 1 + (255 - min 255 f.length) by omega, read_append, hstored,
        List.append_assoc, List.singleton_append, cString_append_zero]
    rw [if_pos (by omega), if_neg hnil, Int.toNat_natCast, hstored, hprinted]

theorem dvprintf_eq (hfmt : hasCount .text fmt = false) :
    ∃ f, formatLoop va unlimited fmt .text ap [] = .ok f ∧
      dvprintf va mem buf log fmt ap =
        if f = [] then some (log, [], 0)
        else (logStore log 0 (f.take 255 ++ [0])).map fun log =>
          (log, cString (f.take 255), ((min 255 f.length : ℕ) : ℤ)) := by
  obtain ⟨f, hf⟩ := exists_formatLoop_eq va hfmt ap
  refine ⟨f, ?_, dvprintf_of_text va mem buf log ap (hf _ _)⟩
  rw [hf, outputAll_unlimited, List.nil_append]

end Dvprintf

end YakOS
