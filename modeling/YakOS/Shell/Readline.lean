import Mathlib.Data.UInt
import Mathlib.Data.List.Basic
import Mathlib.Order.Lattice

/-!
# The line editor

`readline` of `init/init_shell.c` with its `delete_char`.  The position `p` in the
console buffer, the count `n` and the screen column `col` are kept by hand through
every key.  The echo on the console is left out.

## Main definitions

* `Line` — the buffer and the three counters.
* `deleteChar`, `eraseWord`, `readlineStep`, `readline` — the code.
* `countedColumn` — the column that the editor counts behind a text.
* `LineOk` — what the counters have to do with the buffer.

## Main results

* `LineOk.deleteChar`, `LineOk.typed` — deleting and typing a character.
* `lineOk_readlineStep` — every key keeps the counters right.
* `turnOk_foldl` — so do all keys, and the terminator is in the buffer.
-/

namespace YakOS

/-- `CONSOLE_BUFFER_SIZE`, an `int` of the editor -/
def consoleBufferBytes : ℤ := 256

/-- `console_buffer` and the local variables of `readline`; `p` is the index of the place that it
points to. -/
structure Line where
  buf : ℤ → UInt8
  p : ℤ
  n : ℤ
  col : ℤ

/-- The column that is counted behind a character: one more, but for a tab, which goes to the next multiple
of eight. -/
def advance (col : ℤ) (c : UInt8) : ℤ := if c = 9 then col + (8 - col % 8) else col + 1

/-- The column that is counted behind a text that begins at column `start`. -/
def countedColumn (start : ℤ) (text : List UInt8) : ℤ := text.foldl advance start

/-- The first characters of the buffer. -/
def typedText (buf : ℤ → UInt8) (n : ℤ) : List UInt8 := (List.range n.toNat).map fun i : ℕ => buf (i : ℤ)

/-- `while (col > plen) --col;` with as many rounds as the columns apart. -/
def eraseLoop (plen : ℤ) : ℕ → ℤ → ℤ
  | 0, col => col
  | rounds + 1, col => if plen < col then eraseLoop plen rounds (col - 1) else col

/-- The column after erasing the line back to the prompt. -/
def erase (plen col : ℤ) : ℤ := eraseLoop plen (col - plen).toNat col

/-- `delete_char` -/
def deleteChar (plen : ℤ) (l : Line) : Line :=
  if l.n = 0 then l
  else
    let p := l.p - 1
    -- a tab makes it retype the whole line
    let col := if l.buf p = 9 then (typedText l.buf p).foldl advance (erase plen l.col) else l.col - 1
    { l with p := p, n := l.n - 1, col := col }

/-- `while ((n > 0) && (*p != ' ')) p = delete_char(...);` Each round lowers `n`. -/
def eraseWord (plen : ℤ) : ℕ → Line → Line
  | 0, l => l
  | rounds + 1, l =>
    if 0 < l.n ∧ l.buf l.p ≠ 32 then eraseWord plen rounds (deleteChar plen l) else l

/-- What `readline` does with a key. -/
inductive Turn
  /-- It goes on with the loop. -/
  | typing (l : Line)
  /-- It returns the length of the line. -/
  | entered (buf : ℤ → UInt8) (len : ℤ)
  /-- It returns `-1`. -/
  | broken (buf : ℤ → UInt8)

/-- The body of the loop of `readline` for the key `c`. -/
def readlineStep (plen : ℤ) (l : Line) (c : UInt8) : Turn :=
  if c = 13 ∨ c = 10 then .entered (Function.update l.buf l.p 0) l.p
  else if c = 0 then .typing l
  -- `^C`
  else if c = 3 then .broken (Function.update l.buf 0 0)
  -- `^U`
  else if c = 0x15 then .typing { l with p := 0, n := 0, col := erase plen l.col }
  -- `^W`
  else if c = 0x17 then .typing (eraseWord plen l.n.toNat (deleteChar plen l))
  -- backspace
  else if c = 8 ∨ c = 0x7F then .typing (deleteChar plen l)
  else if l.n < consoleBufferBytes - 2 then
    .typing { buf := Function.update l.buf l.p c, p := l.p + 1, n := l.n + 1, col := advance l.col c }
  else .typing l

/-- A turn of the loop, if it still runs. -/
def readlineTurn (plen : ℤ) : Turn → UInt8 → Turn
  | .typing l, c => readlineStep plen l c
  | t, _ => t

/-- `plen`: a prompt is its characters, and `none` the null pointer. -/
def promptLength (prompt : Option (List UInt8)) : ℤ := (prompt.map List.length).getD 0

/-- `readline` after some keys. -/
def readline (prompt : Option (List UInt8)) (buf : ℤ → UInt8) (keys : List UInt8) : Turn :=
  keys.foldl (readlineTurn (promptLength prompt)) (.typing ⟨buf, 0, 0, promptLength prompt⟩)

/-- The pointer is at the count, inside the buffer, and the column is the one counted behind the characters
typed. -/
structure LineOk (plen : ℤ) (l : Line) : Prop where
  p_eq : l.p = l.n
  nonneg : 0 ≤ l.n
  le : l.n ≤ consoleBufferBytes - 2
  col : l.col = countedColumn plen (typedText l.buf l.n)

section Column

theorem le_advance (col : ℤ) (c : UInt8) : col < advance col c ∧ advance col c ≤ col + 8 := by
  unfold advance
  split <;> omega

/-- A text takes at least one column and at most eight for each character. -/
theorem countedColumn_bounds (start : ℤ) (text : List UInt8) :
    start + text.length ≤ countedColumn start text ∧ countedColumn start text ≤ start + 8 * text.length := by
  induction text generalizing start with
  | nil => simp [countedColumn]
  | cons c text ih =>
    have hstep := le_advance start c
    have hrest := ih (advance start c)
    rw [countedColumn, List.foldl_cons, List.length_cons]
    unfold countedColumn at hrest
    push_cast
    omega

theorem typedText_succ (buf : ℤ → UInt8) {n : ℤ} (hn : 0 ≤ n) :
    typedText buf (n + 1) = typedText buf n ++ [buf n] := by
  obtain ⟨k, rfl⟩ := Int.eq_ofNat_of_zero_le hn
  have hk : ((k : ℤ) + 1).toNat = k + 1 := by omega
  rw [typedText, typedText, hk, List.range_succ, List.map_append, Int.toNat_natCast]
  rfl

theorem typedText_congr {buf buf' : ℤ → UInt8} {n : ℤ} (h : ∀ i, 0 ≤ i → i < n → buf i = buf' i) :
    typedText buf n = typedText buf' n := by
  refine List.map_congr_left ?_
  intro i hi
  rw [List.mem_range] at hi
  exact h i (by omega) (by omega)

theorem countedColumn_concat (start : ℤ) (text : List UInt8) (c : UInt8) :
    countedColumn start (text ++ [c]) = advance (countedColumn start text) c := by
  rw [countedColumn, List.foldl_append]
  rfl

theorem eraseLoop_eq {plen : ℤ} (rounds : ℕ) {col : ℤ} (h : col ≤ plen + rounds) :
    eraseLoop plen rounds col = min col plen := by
  induction rounds generalizing col with
  | zero =>
    rw [eraseLoop]
    omega
  | succ rounds ih =>
    rw [eraseLoop]
    push_cast at h
    split
    · rw [ih (by omega)]
      omega
    · omega

theorem erase_eq {plen col : ℤ} (h : plen ≤ col) : erase plen col = plen := by
  rw [erase, eraseLoop_eq _ (by omega), min_eq_right h]

end Column

namespace LineOk

variable {plen : ℤ} {l : Line}

theorem plen_le (h : LineOk plen l) : plen ≤ l.col := by
  have := (countedColumn_bounds plen (typedText l.buf l.n)).1
  rw [h.col]
  omega

/-- The column stays within eight columns for each character: it does not overflow an `int`. -/
theorem col_le (h : LineOk plen l) : l.col ≤ plen + 8 * l.n := by
  have hbound := (countedColumn_bounds plen (typedText l.buf l.n)).2
  have hlen : ((typedText l.buf l.n).length : ℤ) = l.n := by
    have := h.nonneg
    rw [typedText, List.length_map, List.length_range]
    omega
  rwa [hlen, ← h.col] at hbound

/-- A line that was begun anew. -/
theorem empty (plen : ℤ) (buf : ℤ → UInt8) : LineOk plen ⟨buf, 0, 0, plen⟩ where
  p_eq := rfl
  nonneg := le_rfl
  le := by
    show (0 : ℤ) ≤ consoleBufferBytes - 2
    decide
  col := rfl

/-- Deleting takes the last character away, if there is one. -/
theorem deleteChar (h : LineOk plen l) : LineOk plen (deleteChar plen l) := by
  have hle := h.le
  have hpos := h.nonneg
  unfold YakOS.deleteChar
  split
  · exact h
  · next hne =>
    obtain ⟨k, hk⟩ : ∃ k, l.n = k + 1 := ⟨l.n - 1, by omega⟩
    have hk0 : 0 ≤ k := by omega
    have hp : l.p - 1 = k := by rw [h.p_eq, hk]; omega
    have hcol : l.col = advance (countedColumn plen (typedText l.buf k)) (l.buf k) := by
      rw [h.col, hk, typedText_succ _ hk0, countedColumn_concat]
    have hn : l.n - 1 = k := by omega
    refine ⟨by dsimp only; omega, by dsimp only; omega, by dsimp only; omega, ?_⟩
    dsimp only
    rw [hp, hn]
    split
    · rw [erase_eq h.plen_le]
      rfl
    · next htab =>
      rw [hcol, advance, if_neg htab]
      omega

/-- Typing puts a character behind the line. -/
theorem typed (h : LineOk plen l) (hroom : l.n < consoleBufferBytes - 2) (c : UInt8) :
    LineOk plen { buf := Function.update l.buf l.p c, p := l.p + 1, n := l.n + 1,
                  col := advance l.col c } where
  p_eq := by
    have := h.p_eq
    dsimp only
    omega
  nonneg := by
    have := h.nonneg
    dsimp only
    omega
  le := by
    dsimp only
    omega
  col := by
    dsimp only
    have hsame : typedText (Function.update l.buf l.p c) l.n = typedText l.buf l.n := by
      refine typedText_congr fun i _ hi => Function.update_of_ne ?_ c l.buf
      rw [h.p_eq]
      omega
    rw [typedText_succ _ h.nonneg, countedColumn_concat, hsame, ← h.col, ← h.p_eq,
      Function.update_self]

theorem eraseWord (h : LineOk plen l) (rounds : ℕ) : LineOk plen (eraseWord plen rounds l) := by
  induction rounds generalizing l with
  | zero => exact h
  | succ rounds ih =>
    rw [YakOS.eraseWord]
    split
    · exact ih h.deleteChar
    · exact h

end LineOk

/-- Outside the console buffer, nothing has been written. -/
def SameOutside (buf buf' : ℤ → UInt8) : Prop := ∀ i, i < 0 ∨ consoleBufferBytes ≤ i → buf' i = buf i

theorem SameOutside.update {buf buf' : ℤ → UInt8} (h : SameOutside buf buf') {p : ℤ} (h0 : 0 ≤ p)
    (hp : p < consoleBufferBytes) (c : UInt8) : SameOutside buf (Function.update buf' p c) := by
  intro i hi
  rw [Function.update_of_ne (by omega), h i hi]

/-- What holds of `readline` after each key. -/
def TurnOk (plen : ℤ) (buf : ℤ → UInt8) : Turn → Prop
  | .typing l => LineOk plen l ∧ SameOutside buf l.buf
  | .entered buf' len => 0 ≤ len ∧ len < consoleBufferBytes ∧ buf' len = 0 ∧ SameOutside buf buf'
  | .broken buf' => buf' 0 = 0 ∧ SameOutside buf buf'

section Turns

variable {plen : ℤ} {buf : ℤ → UInt8}

@[simp] theorem deleteChar_buf (plen : ℤ) (l : Line) : (deleteChar plen l).buf = l.buf := by
  unfold deleteChar
  split <;> rfl

@[simp] theorem eraseWord_buf (plen : ℤ) (rounds : ℕ) (l : Line) :
    (eraseWord plen rounds l).buf = l.buf := by
  induction rounds generalizing l with
  | zero => rfl
  | succ rounds ih =>
    rw [eraseWord]
    split
    · rw [ih, deleteChar_buf]
    · rfl

/-- Every key keeps the counters right and writes inside the buffer. -/
theorem lineOk_readlineStep {l : Line} (h : LineOk plen l) (hsame : SameOutside buf l.buf) (c : UInt8) :
    TurnOk plen buf (readlineStep plen l c) := by
  have hp0 : 0 ≤ l.p := by rw [h.p_eq]; exact h.nonneg
  have hp : l.p < consoleBufferBytes := by
    have := h.le
    rw [h.p_eq]
    omega
  unfold readlineStep
  split
  · exact ⟨hp0, hp, Function.update_self _ _ _, hsame.update hp0 hp 0⟩
  split
  · exact ⟨h, hsame⟩
  split
  · exact ⟨Function.update_self _ _ _, hsame.update le_rfl (by decide) 0⟩
  split
  · rw [erase_eq h.plen_le]
    exact ⟨LineOk.empty plen l.buf, hsame⟩
  split
  · refine ⟨h.deleteChar.eraseWord _, ?_⟩
    rwa [eraseWord_buf, deleteChar_buf]
  split
  · refine ⟨h.deleteChar, ?_⟩
    rwa [deleteChar_buf]
  split
  · next hroom => exact ⟨h.typed hroom c, hsame.update hp0 hp c⟩
  · exact ⟨h, hsame⟩

theorem turnOk_foldl {t : Turn} (h : TurnOk plen buf t) (keys : List UInt8) :
    TurnOk plen buf (keys.foldl (readlineTurn plen) t) := by
  induction keys generalizing t with
  | nil => exact h
  | cons c keys ih =>
    rw [List.foldl_cons]
    refine ih ?_
    cases t with
    | typing l => exact lineOk_readlineStep h.1 h.2 c
    | entered buf' len => exact h
    | broken buf' => exact h

end Turns

end YakOS
