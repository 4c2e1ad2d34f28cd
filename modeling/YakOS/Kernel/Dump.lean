import Mathlib.Data.List.TakeWhile
import YakOS.Kernel.Messages
import YakOS.Lib.Arm

/-!
# Memory dumps

`hexdump` and `hexdump8` of `kernel/debug.c`, as the messages they print, and what can be read off a dump.
A row has an address and sixteen bytes, as words or one by one; all its fields have a fixed width, so that a
dump tells the memory that it shows.

`count` goes up by sixteen and wraps, so that a dump of the last sixteen bytes of the lengths does not end.
The words are loaded from aligned addresses.

## Main definitions

* `Message`, `Message.text` — a format with its arguments, and what it says.
* `hexdump`, `hexdump8` — the code.

## Main results

* `denote_words_inj` — a format with words of a fixed width tells its arguments.
* `dump_returns_iff` — when a dump ends, and what its rows are.
* `hexdump_tells` — **equal dumps show equal memories**.
-/

namespace YakOS

open Bytes Numerals

/-! ### Fields of a fixed width -/

/-- A format with its arguments. -/
abbrev Message := List Piece × List Arg

/-- What a message says. -/
def Message.text (m : Message) : List UInt8 := denote argList m.1 m.2

/-- `%0<width>x`, with the length of the argument. -/
def hexField (width : ℕ) (length : ArgLength) : Piece := .arg ⟨false, false, false, true, width, length, .x⟩

/-- The text of a field. -/
def hexDigits (width n : ℕ) : List UInt8 :=
  List.replicate (width - (numeral false 16 n).length) 48 ++ numeral false 16 n

section Fields

variable {width n n' : ℕ}

theorem length_hexDigits (h : n < 16 ^ (width + 1)) : (hexDigits (width + 1) n).length = width + 1 := by
  have hle := length_hexLoop_le false [] h
  rw [hexLoop_eq, List.append_nil, List.length_nil, Nat.zero_add] at hle
  rw [hexDigits, List.length_append, List.length_replicate]
  omega

theorem readFrom_replicate_zero (k : ℕ) (cs : List UInt8) :
    readFrom 16 0 (List.replicate k 48 ++ cs) = readFrom 16 0 cs := by
  induction k with
  | zero => rfl
  | succ k ih =>
    rw [List.replicate_succ, List.cons_append, readFrom_cons (by decide : digitValue 48 = some 0) (by decide)]
    exact ih

theorem readFrom_hexDigits (width n : ℕ) : readFrom 16 0 (hexDigits width n) = some n := by
  have hread := readFrom_hexLoop false n []
  rw [hexLoop_eq, List.append_nil] at hread
  rw [hexDigits, readFrom_replicate_zero, hread]
  rfl

theorem hexDigits_inj (h : hexDigits width n = hexDigits width n') : n = n' := by
  have := congrArg (readFrom 16 0) h
  rwa [readFrom_hexDigits, readFrom_hexDigits, Option.some_inj] at this

end Fields

/-- Formats with `n` words in eight digits. -/
def TellsWords : List Piece → ℕ → Prop
  | [], n => n = 0
  | .text _ :: pieces, n => TellsWords pieces n
  | .arg _ :: _, 0 => False
  | .arg d :: pieces, n + 1 => (.arg d = hexField 8 .int ∨ .arg d = hexField 8 .long) ∧ TellsWords pieces n

section Words

variable {pieces : List Piece} {n : ℕ} (ws ws' : List (BitVec 32)) {rest rest' : List UInt8}

theorem toNat_lt_sixteen_pow (w : BitVec 32) : w.toNat < 16 ^ (7 + 1) := w.isLt

/-- A word in eight digits. -/
theorem denote_hexField {length : ArgLength} (h : length = .int ∨ length = .long) (w : BitVec 32)
    (ap : List Arg) : denote argList (hexField 8 length :: pieces) (.word w :: ap) =
      hexDigits 8 w.toNat ++ denote argList pieces ap := by
  rcases h with rfl | rfl <;> rfl

theorem exists_length_of_tellsWords {d : Directive} (h : TellsWords (.arg d :: pieces) (n + 1)) :
    ∃ length, (length = .int ∨ length = .long) ∧ Piece.arg d = hexField 8 length :=
  h.1.elim (fun hd => ⟨_, .inl rfl, hd⟩) fun hd => ⟨_, .inr rfl, hd⟩

/-- Texts with words in eight digits tell the words. -/
theorem denote_words_inj (h : TellsWords pieces n) (hws : ws.length = n) (hws' : ws'.length = n)
    (heq : denote argList pieces (ws.map .word) ++ rest = denote argList pieces (ws'.map .word) ++ rest') :
    ws = ws' ∧ rest = rest' := by
  induction pieces generalizing n ws ws' with
  | nil =>
    obtain rfl : n = 0 := h
    rw [List.length_eq_zero_iff.mp hws, List.length_eq_zero_iff.mp hws'] at *
    exact ⟨rfl, heq⟩
  | cons piece pieces ih =>
    cases piece with
    | text cs =>
      rw [denote, denote, List.append_assoc, List.append_assoc] at heq
      exact ih ws ws' h hws hws' (List.append_cancel_left heq)
    | arg d =>
      cases n with
      | zero => exact absurd h id
      | succ n =>
        obtain ⟨w, ws, rfl⟩ := List.exists_of_length_succ ws hws
        obtain ⟨w', ws', rfl⟩ := List.exists_of_length_succ ws' hws'
        obtain ⟨length, hlength, hfield⟩ := exists_length_of_tellsWords h
        rw [hfield, List.map_cons, List.map_cons, denote_hexField hlength, denote_hexField hlength,
          List.append_assoc, List.append_assoc] at heq
        obtain ⟨hdigits, heq⟩ := List.append_inj heq (by
          rw [length_hexDigits (toNat_lt_sixteen_pow w), length_hexDigits (toNat_lt_sixteen_pow w')])
        obtain ⟨hws, hrest⟩ := ih ws ws' h.2 (Nat.succ.inj hws) (Nat.succ.inj hws') heq
        rw [BitVec.eq_of_toNat_eq (hexDigits_inj hdigits), hws]
        exact ⟨rfl, hrest⟩

end Words

/-! ### The code -/

/-- `isalpha`, with `isupper` and `islower`. -/
def isalpha (c : UInt8) : Bool := (decide (65 ≤ c) && decide (c ≤ 90)) || (decide (97 ≤ c) && decide (c ≤ 122))

section Code

variable (m : ℕ → UInt8)

/-- The address in front of a row. -/
def addressMessage (address : BitVec 32) : Message :=
  ([.text (chars "0x"), hexField 8 .long, .text (chars ": ")], [.word address])

/-- A character in a row of `hexdump`. -/
def charMessage (c : UInt8) : Message :=
  if isalpha c then ([.arg ⟨false, false, false, false, 0, .int, .c⟩], [.word (BitVec.ofNat 32 c.toNat)])
  else ([.text (chars ".")], [])

/-- `"%08x %08x %08x %08x |"` -/
def fourWords : List Piece :=
  [hexField 8 .int, .text (chars " "), hexField 8 .int, .text (chars " "), hexField 8 .int, .text (chars " "),
    hexField 8 .int, .text (chars " |")]

/-- A row of `hexdump`. -/
def hexdumpRow (address : BitVec 32) : List Message :=
  addressMessage address ::
    (fourWords, (Arm.words m address 4).map .word) ::
    (List.range 16).map (fun i => charMessage (m (address + BitVec.ofNat 32 i).toNat)) ++
    [([.text (chars "|\n")], [])]

/-- A byte in a row of `hexdump8`. -/
def byteMessage (b : UInt8) : Message :=
  ([.text (chars "0x"), hexField 2 .char, .text (chars " ")], [.word (BitVec.ofNat 32 b.toNat)])

/-- A row of `hexdump8`. -/
def hexdump8Row (address : BitVec 32) : List Message :=
  addressMessage address ::
    (List.range 16).map (fun i => byteMessage (m (address + BitVec.ofNat 32 i).toNat)) ++
    [([.text (chars "\n")], [])]

/-- The loop over the rows; `none` if it has not ended yet. -/
def hexdumpLoop (row : BitVec 32 → List Message) : ℕ → BitVec 32 → BitVec 32 → BitVec 32 → Option (List Message)
  | 0, _, _, _ => none
  | fuel + 1, address, count, len =>
    if count < len then (hexdumpLoop row fuel (address + 16) (count + 16) len).map (row address ++ ·)
    else some []

/-- `hexdump` -/
def hexdump (fuel : ℕ) (ptr len : BitVec 32) : Option (List Message) := hexdumpLoop (hexdumpRow m) fuel ptr 0 len

/-- `hexdump8` -/
def hexdump8 (fuel : ℕ) (ptr len : BitVec 32) : Option (List Message) := hexdumpLoop (hexdump8Row m) fuel ptr 0 len

end Code

/-! ### Rows -/

/-- `k` rows. -/
def dumpRows (row : BitVec 32 → List Message) (address : BitVec 32) : ℕ → List Message
  | 0 => []
  | k + 1 => row address ++ dumpRows row (address + 16) k

/-- The number of rows. -/
def rowsOf (len : BitVec 32) : ℕ := (len.toNat + 15) / 16

section Rows

variable {row : BitVec 32 → List Message} {len : BitVec 32}

/-- A loop that ends has printed all the rows. -/
theorem hexdumpLoop_some {fuel : ℕ} {address count : BitVec 32} {ms : List Message}
    (h : hexdumpLoop row fuel address count len = some ms) (hcount : count.toNat % 16 = 0)
    (hle : count.toNat ≤ len.toNat + 15) :
    len.toNat ≤ 2 ^ 32 - 16 ∧ ms = dumpRows row address (rowsOf len - count.toNat / 16) := by
  induction fuel generalizing address count ms with
  | zero => cases h
  | succ fuel ih =>
    have hlen := len.isLt
    have hlt := count.isLt
    have hnext : (count + 16).toNat = (count.toNat + 16) % 2 ^ 32 := BitVec.toNat_add ..
    unfold rowsOf at *
    rw [hexdumpLoop] at h
    split at h
    · next hmore =>
      have hmore' : count.toNat < len.toNat := hmore
      obtain ⟨ms', hms', rfl⟩ := Option.map_eq_some_iff.mp h
      obtain ⟨hend, rfl⟩ := ih hms' (by omega) (by omega)
      refine ⟨hend, ?_⟩
      have hrows : (len.toNat + 15) / 16 - count.toNat / 16 =
          ((len.toNat + 15) / 16 - (count + 16).toNat / 16) + 1 := by omega
      rw [hrows, dumpRows]
    · next hdone =>
      have hdone' : ¬ count.toNat < len.toNat := hdone
      have hrows : (len.toNat + 15) / 16 - count.toNat / 16 = 0 := by omega
      rw [hrows]
      exact ⟨by omega, (Option.some.inj h).symm⟩

/-- A loop that the counter does not run around in ends. -/
theorem exists_hexdumpLoop (hend : len.toNat ≤ 2 ^ 32 - 16) {k : ℕ} (address count : BitVec 32)
    (hk : rowsOf len ≤ count.toNat / 16 + k) (hcount : count.toNat % 16 = 0)
    (hle : count.toNat ≤ len.toNat + 15) : ∃ ms, hexdumpLoop row (k + 1) address count len = some ms := by
  unfold rowsOf at hk
  have hnext : (count + 16).toNat = (count.toNat + 16) % 2 ^ 32 := BitVec.toNat_add ..
  induction k generalizing address count with
  | zero =>
    have hdone : ¬ count.toNat < len.toNat := by omega
    exact ⟨[], if_neg hdone⟩
  | succ k ih =>
    rw [hexdumpLoop]
    split
    · next hmore =>
      have hmore' : count.toNat < len.toNat := hmore
      obtain ⟨ms, hms⟩ := ih (address + 16) (count + 16) (by omega) (by omega) (by omega)
        (BitVec.toNat_add ..)
      exact ⟨_, by rw [hms, Option.map_some]⟩
    · exact ⟨[], rfl⟩

/-- **A dump ends** exactly when its counter does not run around, and it prints the rows. -/
theorem dump_returns_iff (row : BitVec 32 → List Message) (ptr len : BitVec 32) :
    ((∃ fuel ms, hexdumpLoop row fuel ptr 0 len = some ms) ↔ len.toNat ≤ 2 ^ 32 - 16) ∧
      ∀ fuel ms, hexdumpLoop row fuel ptr 0 len = some ms → ms = dumpRows row ptr (rowsOf len) := by
  refine ⟨⟨fun ⟨fuel, ms, h⟩ => (hexdumpLoop_some h rfl (Nat.zero_le _)).1, fun hend => ?_⟩, fun fuel ms h => ?_⟩
  · exact ⟨rowsOf len + 1, exists_hexdumpLoop hend ptr 0 (by simp) rfl (Nat.zero_le _)⟩
  · exact (hexdumpLoop_some h rfl (Nat.zero_le _)).2

end Rows

/-! ### What a dump tells -/

/-- What messages say. -/
def textOf (ms : List Message) : List UInt8 := ms.flatMap Message.text

/-- The sixteen bytes of a row. -/
def rowBytes (m : ℕ → UInt8) (address : BitVec 32) : List UInt8 :=
  (List.range 16).map fun i => m (address + BitVec.ofNat 32 i).toNat

/-- A row tells its address and its bytes, whatever comes behind it. -/
structure RowTells (ok : BitVec 32 → Prop) (row : (ℕ → UInt8) → BitVec 32 → List Message) : Prop where
  ne_nil : ∀ m address, textOf (row m address) ≠ []
  inj : ∀ {m m' address address' rest rest'}, ok address → ok address' →
    textOf (row m address) ++ rest = textOf (row m' address') ++ rest' →
    address = address' ∧ rowBytes m address = rowBytes m' address' ∧ rest = rest'
  next : ∀ {address}, ok address → ok (address + 16)

section Telling

variable {m m' : ℕ → UInt8} {address address' : BitVec 32} {rest rest' : List UInt8}

@[simp] theorem textOf_cons (msg : Message) (ms : List Message) : textOf (msg :: ms) = msg.text ++ textOf ms := rfl

@[simp] theorem textOf_nil : textOf [] = [] := rfl

@[simp] theorem textOf_append (ms ms' : List Message) : textOf (ms ++ ms') = textOf ms ++ textOf ms' :=
  List.flatMap_append

theorem tellsWords_addressMessage (address : BitVec 32) : TellsWords (addressMessage address).1 1 :=
  ⟨.inr rfl, rfl⟩

theorem tellsWords_fourWords : TellsWords fourWords 4 := ⟨.inl rfl, .inl rfl, .inl rfl, .inl rfl, rfl⟩

theorem addressMessage_inj
    (h : (addressMessage address).text ++ rest = (addressMessage address').text ++ rest') :
    address = address' ∧ rest = rest' := by
  obtain ⟨heq, hrest⟩ :=
    denote_words_inj [address] [address'] (tellsWords_addressMessage address) rfl rfl h
  exact ⟨List.singleton_inj.mp heq, hrest⟩

theorem charMessage_text (c : UInt8) : ∃ x, (charMessage c).text = [x] := by
  unfold charMessage
  split <;> exact ⟨_, rfl⟩

theorem length_textOf_charMessages (cs : List UInt8) : (textOf (cs.map charMessage)).length = cs.length := by
  induction cs with
  | nil => rfl
  | cons c cs ih =>
    obtain ⟨x, hx⟩ := charMessage_text c
    rw [List.map_cons, textOf_cons, hx, List.length_append, ih, List.length_singleton, List.length_cons,
      Nat.add_comm]

theorem byteMessage_text (b : UInt8) : (byteMessage b).text = chars "0x" ++ (hexDigits 2 b.toNat ++ chars " ") := by
  have hb : (BitVec.ofNat 32 b.toNat).toNat % 2 ^ 8 = b.toNat := by
    have := b.toNat_lt
    rw [BitVec.toNat_ofNat]
    omega
  have htext : (byteMessage b).text =
      chars "0x" ++ (hexDigits 2 ((BitVec.ofNat 32 b.toNat).toNat % 2 ^ 8) ++ chars " ") := rfl
  rw [htext, hb]

theorem byteMessages_inj {bs bs' : List UInt8} (hlen : bs.length = bs'.length)
    (h : textOf (bs.map byteMessage) ++ rest = textOf (bs'.map byteMessage) ++ rest') : bs = bs' ∧ rest = rest' := by
  induction bs generalizing bs' with
  | nil =>
    obtain rfl := List.length_eq_zero_iff.mp hlen.symm
    exact ⟨rfl, h⟩
  | cons b bs ih =>
    obtain ⟨b', bs', rfl⟩ := List.exists_of_length_succ bs' hlen.symm
    have hdigits : ∀ b : UInt8, (hexDigits 2 b.toNat).length = 2 := fun b => length_hexDigits b.toNat_lt
    simp only [List.map_cons, textOf_cons, byteMessage_text, List.append_assoc] at h
    obtain ⟨hb, htail⟩ := List.append_inj (List.append_cancel_left h) (by rw [hdigits, hdigits])
    obtain ⟨hbs, hrest⟩ := ih (Nat.succ.inj hlen) (List.append_cancel_left htail)
    rw [UInt8.toNat_inj.mp (hexDigits_inj hb), hbs]
    exact ⟨rfl, hrest⟩

theorem rowTells_hexdump8 : RowTells (fun _ => True) hexdump8Row where
  ne_nil m address := by
    rw [hexdump8Row, List.cons_append, textOf_cons]
    exact List.append_ne_nil_of_left_ne_nil (List.cons_ne_nil _ _) _
  inj {m m' address address' rest rest'} _ _ h := by
    have hrow : ∀ m address, hexdump8Row m address =
        addressMessage address :: ((rowBytes m address).map byteMessage ++ [([.text (chars "\n")], [])]) := by
      intro m address
      rw [rowBytes, List.map_map]
      rfl
    simp only [hrow, textOf_cons, textOf_append, List.append_assoc] at h
    obtain ⟨haddress, h⟩ := addressMessage_inj h
    obtain ⟨hbytes, h⟩ := byteMessages_inj (by simp [rowBytes]) h
    exact ⟨haddress, hbytes, List.append_cancel_left h⟩
  next _ := trivial

/-- The words of a row are its bytes. -/
theorem rowBytes_of_words (ha : Arm.Aligned address) (ha' : Arm.Aligned address')
    (h : Arm.words m address 4 = Arm.words m' address' 4) : rowBytes m address = rowBytes m' address' := by
  have hword : ∀ j < 4, u32 m (address + BitVec.ofNat 32 (4 * j)).toNat =
      u32 m' (address' + BitVec.ofNat 32 (4 * j)).toNat := by
    intro j hj
    have hget : ∀ (m : ℕ → UInt8) (a : BitVec 32), (Arm.words m a 4)[j]? =
        some (Arm.word m (a + BitVec.ofNat 32 (4 * j))) := by
      intro m a
      have h8 : a + 4#32 + 4#32 = a + 8#32 := by bv_omega
      have h12 : a + 8#32 + 4#32 = a + 12#32 := by bv_omega
      rcases (by omega : j = 0 ∨ j = 1 ∨ j = 2 ∨ j = 3) with rfl | rfl | rfl | rfl <;>
        simp [Arm.words, h8, h12]
    have heq := (hget m address).symm.trans ((congrArg (·[j]?) h).trans (hget m' address'))
    have := congrArg BitVec.toNat (Option.some.inj heq)
    rwa [Arm.word, Arm.word, BitVec.toNat_ofNat, BitVec.toNat_ofNat, Nat.mod_eq_of_lt (u32_lt _ _),
      Nat.mod_eq_of_lt (u32_lt _ _)] at this
  have hbyte : ∀ {a : BitVec 32} {j r : ℕ}, Arm.Aligned a → r < 4 →
      (a + BitVec.ofNat 32 (4 * j + r)).toNat = (a + BitVec.ofNat 32 (4 * j)).toNat + r := by
    intro a j r ha hr
    have ha' : a.toNat % 4 = 0 := ha
    rw [BitVec.toNat_add, BitVec.toNat_add, BitVec.toNat_ofNat, BitVec.toNat_ofNat]
    omega
  refine List.map_congr_left ?_
  intro i hi
  have hi' : i < 16 := List.mem_range.mp hi
  have hr := Nat.mod_lt i (by decide : 0 < 4)
  rw [← Nat.div_add_mod i 4, hbyte ha hr, hbyte ha' hr]
  exact u32_inj (hword (i / 4) (by omega)) hr

theorem rowTells_hexdump : RowTells Arm.Aligned hexdumpRow where
  ne_nil m address := by
    rw [hexdumpRow, List.cons_append, textOf_cons]
    exact List.append_ne_nil_of_left_ne_nil (List.cons_ne_nil _ _) _
  inj {m m' address address' rest rest'} ha ha' h := by
    have hrow : ∀ m address, hexdumpRow m address = addressMessage address ::
        (fourWords, (Arm.words m address 4).map .word) ::
        ((rowBytes m address).map charMessage ++ [([.text (chars "|\n")], [])]) := by
      intro m address
      rw [rowBytes, List.map_map]
      rfl
    simp only [hrow, textOf_cons, textOf_append, List.append_assoc] at h
    obtain ⟨haddress, h⟩ := addressMessage_inj h
    obtain ⟨hwords, h⟩ := denote_words_inj (Arm.words m address 4) (Arm.words m' address' 4)
      tellsWords_fourWords rfl rfl h
    obtain ⟨-, h⟩ := List.append_inj h (by
      rw [length_textOf_charMessages, length_textOf_charMessages]
      simp [rowBytes])
    exact ⟨haddress, rowBytes_of_words ha ha' hwords, List.append_cancel_left h⟩
  next ha := ha.add_bytes 4

/-- Rows with the same text show the same bytes. -/
theorem RowTells.dumpRows {ok : BitVec 32 → Prop} {row : (ℕ → UInt8) → BitVec 32 → List Message}
    (hrow : RowTells ok row) (k k' : ℕ) (ha : ok address) (ha' : ok address')
    (h : textOf (dumpRows (row m) address k) = textOf (dumpRows (row m') address' k')) :
    k = k' ∧ (0 < k → address = address') ∧
      ∀ i < 16 * k, m (address + BitVec.ofNat 32 i).toNat = m' (address' + BitVec.ofNat 32 i).toNat := by
  induction k generalizing address address' k' with
  | zero =>
    cases k' with
    | zero => exact ⟨rfl, fun h0 => absurd h0 (Nat.lt_irrefl 0), fun i hi => absurd hi (Nat.not_lt_zero i)⟩
    | succ k' =>
      rw [YakOS.dumpRows, YakOS.dumpRows, textOf_append] at h
      exact absurd (List.append_eq_nil_iff.mp h.symm).1 (hrow.ne_nil m' address')
  | succ k ih =>
    cases k' with
    | zero =>
      rw [YakOS.dumpRows, YakOS.dumpRows, textOf_append] at h
      exact absurd (List.append_eq_nil_iff.mp h).1 (hrow.ne_nil m address)
    | succ k' =>
      rw [YakOS.dumpRows, YakOS.dumpRows, textOf_append, textOf_append] at h
      obtain ⟨heq, hbytes, hrest⟩ := hrow.inj ha ha' h
      obtain ⟨hk, -, hnext⟩ := ih k' (hrow.next ha) (hrow.next ha') hrest
      refine ⟨congrArg _ hk, fun _ => heq, fun i hi => ?_⟩
      by_cases hfirst : i < 16
      · exact List.map_inj_left.mp hbytes i (List.mem_range.mpr hfirst)
      · have hshift : ∀ a : BitVec 32, a + 16 + BitVec.ofNat 32 (i - 16) = a + BitVec.ofNat 32 i := by
          intro a
          rw [BitVec.add_assoc, show (16 : BitVec 32) = BitVec.ofNat 32 16 from rfl, ← BitVec.ofNat_add,
            Nat.add_sub_cancel' (Nat.not_lt.mp hfirst)]
        have := hnext (i - 16) (by omega)
        rwa [hshift, hshift] at this

end Telling

/-! ### On the console -/

/-- Messages that fit the buffer of `_dvprintf`, without a NUL. -/
def PlainMessage (msg : Message) : Prop := FormatOk argList msg.1 msg.2 ∧ msg.text.length ≤ 255 ∧ 0 ∉ msg.text

/-- The calls of `printk` print the messages. -/
def Prints (ms : List Message) (out : List UInt8) : Prop :=
  ∃ calls log log', calls.map (fun c => (c.pieces, c.ap)) = ms ∧ printkAll argList log calls = some (log', out)

/-- PlainMessage messages are printed as they are. -/
theorem prints_iff {ms : List Message} (hms : ∀ msg ∈ ms, PlainMessage msg) {out : List UInt8} :
    Prints ms out ↔ out = textOf ms := by
  have hout : ∀ calls : List (PrintkCall (List Arg)), calls.map (fun c => (c.pieces, c.ap)) = ms →
      (calls.flatMap fun c => cString (c.said argList)) = textOf ms := by
    rintro calls rfl
    rw [textOf, List.flatMap_map]
    refine List.flatMap_congr ?_
    intro c hc
    obtain ⟨-, hlen, hnul⟩ := hms _ (List.mem_map_of_mem hc)
    have hsaid : c.said argList = Message.text (c.pieces, c.ap) := List.take_of_length_le hlen
    rw [hsaid, cString, List.takeWhile_eq_self_iff]
    exact fun x hx => by
      have hne : x ≠ 0 := fun h0 => hnul (h0 ▸ hx)
      simpa using hne
  have hok : ∀ calls : List (PrintkCall (List Arg)), calls.map (fun c => (c.pieces, c.ap)) = ms →
      ∀ c ∈ calls, FormatOk argList c.pieces c.ap := by
    rintro calls rfl c hc
    exact (hms _ (List.mem_map_of_mem hc)).1
  constructor
  · rintro ⟨calls, log, log', hcalls, hrun⟩
    rw [printkAll_eq (hok calls hcalls)] at hrun
    obtain ⟨log₁, -, heq⟩ := Option.map_eq_some_iff.mp hrun
    rw [← hout calls hcalls, (Prod.mk.inj heq).2]
  · rintro rfl
    have hcalls : (ms.map fun msg => (⟨fun _ => 0, 0, msg.1, msg.2⟩ : PrintkCall (List Arg))).map
        (fun c => (c.pieces, c.ap)) = ms := by
      rw [List.map_map]
      exact List.map_id ms
    generalize ms.map (fun msg => (⟨fun _ => 0, 0, msg.1, msg.2⟩ : PrintkCall (List Arg))) = calls at hcalls
    obtain ⟨log, k, hlog, -⟩ := logInv_logStoreAll (messages argList calls) logInit [] 0
      (fun m hm => (printed_of_mem_messages argList hm).1) logInv_init
    refine ⟨calls, logInit, log, hcalls, ?_⟩
    rw [printkAll_eq (hok calls hcalls), hlog, Option.map_some, hout calls hcalls]

/-- A text without `%` and NUL. -/
def Piece.Clean : Piece → Bool
  | .text cs => decide (37 ∉ cs) && decide (0 ∉ cs)
  | .arg _ => true

/-- The length of a text with words in eight digits. -/
def textLength : List Piece → ℕ
  | [] => 0
  | .text cs :: pieces => cs.length + textLength pieces
  | .arg _ :: pieces => 8 + textLength pieces

theorem zero_not_mem_hexDigits (width n : ℕ) : 0 ∉ hexDigits width n := by
  have hdigit : ∀ d < 16, digit false d ≠ 0 := by decide
  unfold hexDigits numeral
  intro h
  rcases List.mem_append.mp h with h | h
  · exact absurd (List.eq_of_mem_replicate h) (by decide)
  · split at h
    · exact hdigit 0 (by decide) (List.mem_singleton.mp h).symm
    · obtain ⟨d, hd, heq⟩ := List.mem_map.mp h
      exact hdigit d (Nat.digits_lt_base (by decide) (List.mem_reverse.mp hd)) heq

/-- Texts with words in eight digits. -/
theorem denote_words {pieces : List Piece} {n : ℕ} (ws : List (BitVec 32)) (h : TellsWords pieces n)
    (hws : ws.length = n) (hclean : ∀ p ∈ pieces, p.Clean) :
    FormatOk argList pieces (ws.map .word) ∧
      (denote argList pieces (ws.map .word)).length = textLength pieces ∧
      0 ∉ denote argList pieces (ws.map .word) := by
  induction pieces generalizing n ws with
  | nil => exact ⟨trivial, rfl, List.not_mem_nil⟩
  | cons piece pieces ih =>
    have htail : ∀ p ∈ pieces, p.Clean := fun p hp => hclean p (List.mem_cons_of_mem _ hp)
    cases piece with
    | text cs =>
      obtain ⟨hok, hlen, hnul⟩ := ih ws h hws htail
      have hcs : 37 ∉ cs ∧ 0 ∉ cs := by simpa [Piece.Clean] using hclean _ List.mem_cons_self
      rw [denote, List.length_append, hlen, List.mem_append]
      exact ⟨⟨hcs.1, hcs.2, hok⟩, rfl, not_or.mpr ⟨hcs.2, hnul⟩⟩
    | arg d =>
      cases n with
      | zero => exact absurd h id
      | succ n =>
        obtain ⟨w, ws, rfl⟩ := List.exists_of_length_succ ws hws
        obtain ⟨hok, hlen, hnul⟩ := ih ws h.2 (Nat.succ.inj hws) htail
        obtain ⟨length, hlength, hfield⟩ := exists_length_of_tellsWords h
        rw [hfield, List.map_cons, denote_hexField hlength, List.length_append, hlen,
          length_hexDigits (toNat_lt_sixteen_pow w), List.mem_append]
        refine ⟨⟨⟨(by decide : 8 < 2 ^ 32), trivial⟩, ?_⟩, rfl,
          not_or.mpr ⟨zero_not_mem_hexDigits _ _, hnul⟩⟩
        rcases hlength with rfl | rfl <;> exact hok

/-- Messages with words in eight digits are plain. -/
theorem plain_words {pieces : List Piece} {n : ℕ} (ws : List (BitVec 32)) (h : TellsWords pieces n)
    (hws : ws.length = n) (hclean : ∀ p ∈ pieces, p.Clean) (hlen : textLength pieces ≤ 255) :
    PlainMessage (pieces, ws.map .word) := by
  obtain ⟨hok, hlength, hnul⟩ := denote_words ws h hws hclean
  exact ⟨hok, hlength.trans_le hlen, hnul⟩

theorem plain_addressMessage (address : BitVec 32) : PlainMessage (addressMessage address) :=
  plain_words [address] (tellsWords_addressMessage address) rfl (by decide) (by decide)

theorem plain_charMessage (c : UInt8) : PlainMessage (charMessage c) := by
  unfold charMessage
  split
  · next h =>
    have hc : UInt8.ofNat (BitVec.ofNat 32 c.toNat).toNat = c := by
      have := c.toNat_lt
      rw [BitVec.toNat_ofNat, Nat.mod_eq_of_lt (by omega), UInt8.ofNat_toNat]
    have htext : Message.text ([.arg ⟨false, false, false, false, 0, .int, .c⟩],
        [.word (BitVec.ofNat 32 c.toNat)]) = [c] := congrArg (fun x => [x]) hc
    have hne : c ≠ 0 := by
      rintro rfl
      exact absurd h (by decide)
    refine ⟨⟨⟨by decide, trivial⟩, trivial⟩, ?_, ?_⟩
    · rw [htext, List.length_singleton]
      decide
    · rw [htext, List.mem_singleton]
      exact hne.symm
  · exact ⟨⟨by decide, by decide, trivial⟩, by decide, by decide⟩

theorem plain_byteMessage (b : UInt8) : PlainMessage (byteMessage b) := by
  refine ⟨⟨by decide, by decide, ⟨by decide, trivial⟩, by decide, by decide, trivial⟩, ?_, ?_⟩
  · rw [byteMessage_text, List.length_append, List.length_append, length_hexDigits b.toNat_lt]
    decide
  · rw [byteMessage_text, List.mem_append, List.mem_append]
    exact not_or.mpr ⟨by decide, not_or.mpr ⟨zero_not_mem_hexDigits _ _, by decide⟩⟩

theorem plain_hexdumpRow (m : ℕ → UInt8) (address : BitVec 32) : ∀ msg ∈ hexdumpRow m address, PlainMessage msg := by
  intro msg hmsg
  have hwords : PlainMessage (fourWords, (Arm.words m address 4).map .word) :=
    plain_words _ tellsWords_fourWords rfl (by decide) (by decide)
  simp only [hexdumpRow, List.mem_append, List.mem_cons, List.mem_map, List.not_mem_nil, or_false] at hmsg
  rcases hmsg with (rfl | rfl | ⟨i, -, rfl⟩) | rfl
  · exact plain_addressMessage address
  · exact hwords
  · exact plain_charMessage _
  · exact ⟨⟨by decide, by decide, trivial⟩, by decide, by decide⟩

theorem plain_hexdump8Row (m : ℕ → UInt8) (address : BitVec 32) :
    ∀ msg ∈ hexdump8Row m address, PlainMessage msg := by
  intro msg hmsg
  simp only [hexdump8Row, List.mem_append, List.mem_cons, List.mem_map, List.not_mem_nil, or_false] at hmsg
  rcases hmsg with (rfl | ⟨i, -, rfl⟩) | rfl
  · exact plain_addressMessage address
  · exact plain_byteMessage _
  · exact ⟨⟨by decide, by decide, trivial⟩, by decide, by decide⟩

theorem plain_dumpRows {row : BitVec 32 → List Message} (hrow : ∀ a, ∀ msg ∈ row a, PlainMessage msg)
    (address : BitVec 32) (k : ℕ) : ∀ msg ∈ dumpRows row address k, PlainMessage msg := by
  induction k generalizing address with
  | zero => exact fun msg h => absurd h List.not_mem_nil
  | succ k ih =>
    intro msg h
    rcases List.mem_append.mp h with h | h
    · exact hrow _ msg h
    · exact ih _ msg h

/-- The same memory: the dumps begin at the same address, have as many rows, and the bytes in them are the
same. -/
def SameMemory (m m' : ℕ → UInt8) (ptr ptr' len len' : BitVec 32) : Prop :=
  rowsOf len = rowsOf len' ∧ (0 < rowsOf len → ptr = ptr') ∧
    ∀ i < 16 * rowsOf len, m (ptr + BitVec.ofNat 32 i).toNat = m' (ptr' + BitVec.ofNat 32 i).toNat

theorem RowTells.sameMemory {ok : BitVec 32 → Prop} {row : (ℕ → UInt8) → BitVec 32 → List Message}
    (hrow : RowTells ok row) (hplain : ∀ m a, ∀ msg ∈ row m a, PlainMessage msg) {m m' : ℕ → UInt8}
    {ptr ptr' len len' : BitVec 32} (hok : ok ptr) (hok' : ok ptr') {fuel fuel' : ℕ} {ms ms' : List Message}
    (h : hexdumpLoop (row m) fuel ptr 0 len = some ms) (h' : hexdumpLoop (row m') fuel' ptr' 0 len' = some ms')
    {out : List UInt8} (hout : Prints ms out) (hout' : Prints ms' out) : SameMemory m m' ptr ptr' len len' := by
  rw [(dump_returns_iff _ _ _).2 _ _ h] at hout
  rw [(dump_returns_iff _ _ _).2 _ _ h'] at hout'
  refine hrow.dumpRows _ _ hok hok' ?_
  exact ((prints_iff (plain_dumpRows (hplain m) _ _)).mp hout).symm.trans
    ((prints_iff (plain_dumpRows (hplain m') _ _)).mp hout')

/-- **A dump tells the memory it shows**: if two dumps print the same to the console, they begin at the same
address and show the same bytes; of `hexdump` this is said for addresses at which it can load its words. -/
theorem hexdump_tells (m m' : ℕ → UInt8) (ptr ptr' len len' : BitVec 32) (fuel fuel' : ℕ) (ms ms' : List Message)
    (out : List UInt8) (hout : Prints ms out) (hout' : Prints ms' out) :
    (Arm.Aligned ptr → Arm.Aligned ptr' → hexdump m fuel ptr len = some ms →
      hexdump m' fuel' ptr' len' = some ms' → SameMemory m m' ptr ptr' len len') ∧
    (hexdump8 m fuel ptr len = some ms → hexdump8 m' fuel' ptr' len' = some ms' →
      SameMemory m m' ptr ptr' len len') :=
  ⟨fun ha ha' h h' => rowTells_hexdump.sameMemory plain_hexdumpRow ha ha' h h' hout hout',
    fun h h' => rowTells_hexdump8.sameMemory plain_hexdump8Row trivial trivial h h' hout hout'⟩

/-- One row. -/
theorem hexdump_tells_row : SameMemory (fun i => UInt8.ofNat i) (fun i => UInt8.ofNat i) 256 256 16 16 :=
  (hexdump_tells (fun i => UInt8.ofNat i) (fun i => UInt8.ofNat i) 256 256 16 16 2 2
    (dumpRows (hexdumpRow fun i => UInt8.ofNat i) 256 1) (dumpRows (hexdumpRow fun i => UInt8.ofNat i) 256 1) _
    ((prints_iff (plain_dumpRows (plain_hexdumpRow _) _ _)).mpr rfl)
    ((prints_iff (plain_dumpRows (plain_hexdumpRow _) _ _)).mpr rfl)).1 (by decide) (by decide) rfl rfl

end YakOS
