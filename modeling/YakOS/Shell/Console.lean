import Mathlib.Data.List.DropRight
import YakOS.Lib.Run
import YakOS.Lib.Terminal
import YakOS.Shell.Commands
import YakOS.Shell.Readline

/-!
# The shell on its console

What `readline` of `init/init_shell.c` prints for each key, and the loop of `init_shell` around it: a line
that is entered is run as a command, unless it is empty.

To the user the shell is an editor of one line, shown with its tabs expanded.

## Main definitions

* `keyEcho`, `readlineEcho` — what is printed.
* `editKey` — the editor: what a key makes of a line.
* `shellKey` — the loop of `init_shell`, one key at a time.
* `lineKey`, `runLines` — the lines that are entered, and the commands run for them.

## Main results

* `readline_edits` — **the line that `readline` returns is the one the editor has.**
* `readline_counters_iff` — **the column is the one of the cursor exactly when no control character is typed.**
* `readline_shows` — **the console shows the prompt and the line**, whatever has been typed and erased.
* `shell_runs_lines` — **the shell runs the lines that are entered**, in order, and none overflows a buffer.
-/

namespace YakOS

open Bytes Terminal

/-! ### The echo -/

/-- `erase_seq` -/
def eraseSeq : List UInt8 := [8, 32, 8]

/-- `tab_seq` -/
def tabSeq : List UInt8 := List.replicate 8 32

/-- `while (col > plen) { printk("%s", erase_seq); col--; }` -/
def eraseEcho (plen col : ℤ) : List UInt8 := (List.replicate (col - plen).toNat eraseSeq).flatten

/-- A character that is typed at a column: a tab is printed as the spaces to the next tab stop. -/
def charEcho (col : ℤ) (c : UInt8) : List UInt8 := if c = 9 then tabSeq.drop (col % 8).toNat else [c]

/-- The characters of a line, typed from a column on. -/
def retype : ℤ → List UInt8 → List UInt8
  | _, [] => []
  | col, c :: text => charEcho col c ++ retype (advance col c) text

/-- What `delete_char` prints. -/
def deleteCharEcho (plen : ℤ) (l : Line) : List UInt8 :=
  if l.n = 0 then []
  else
    if l.buf (l.p - 1) = 9 then
      eraseEcho plen l.col ++ retype (erase plen l.col) (typedText l.buf (l.p - 1))
    else eraseSeq

/-- What the loop of `^W` prints. -/
def eraseWordEcho (plen : ℤ) : ℕ → Line → List UInt8
  | 0, _ => []
  | rounds + 1, l =>
    if 0 < l.n ∧ l.buf l.p ≠ 32 then deleteCharEcho plen l ++ eraseWordEcho plen rounds (deleteChar plen l)
    else []

/-- What the body of the loop of `readline` prints for the key `c`. -/
def keyEcho (plen : ℤ) (l : Line) (c : UInt8) : List UInt8 :=
  if c = 13 ∨ c = 10 then [13, 10]
  else if c = 0 then []
  else if c = 3 then []
  else if c = 0x15 then eraseEcho plen l.col
  else if c = 0x17 then
    deleteCharEcho plen l ++ eraseWordEcho plen l.n.toNat (deleteChar plen l)
  else if c = 8 ∨ c = 0x7F then deleteCharEcho plen l
  else if l.n < consoleBufferBytes - 2 then charEcho l.col c
  -- the bell
  else [7]

/-- What a turn of the loop prints, if it still runs. -/
def turnEcho (plen : ℤ) : Turn → UInt8 → List UInt8
  | .typing l, c => keyEcho plen l c
  | _, _ => []

/-- What the loop prints for some keys. -/
def echoFrom (plen : ℤ) : Turn → List UInt8 → List UInt8
  | _, [] => []
  | t, c :: keys => turnEcho plen t c ++ echoFrom plen (readlineTurn plen t c) keys

/-- What `readline` prints, the prompt first: `printk` cuts it off behind 255 characters. -/
def readlineEcho (prompt : Option (List UInt8)) (buf : ℤ → UInt8) (keys : List UInt8) : List UInt8 :=
  (prompt.getD []).take 255 ++
    echoFrom (promptLength prompt) (.typing ⟨buf, 0, 0, promptLength prompt⟩) keys

/-! ### The editor -/

/-- The keys that end a line: Enter, and `^C`. -/
def Ends (c : UInt8) : Prop := c = 13 ∨ c = 10 ∨ c = 3

instance (c : UInt8) : Decidable (Ends c) := inferInstanceAs (Decidable (_ ∨ _))

/-- What another key makes of the line: `^U` clears it, `^W` takes away the last word with the space in
front of it, and a backspace the last character; a line has no room for more than 254 characters. -/
def editKey (text : List UInt8) (c : UInt8) : List UInt8 :=
  if c = 0 then text
  else if c = 0x15 then []
  else if c = 0x17 then (text.rdropWhile (· ≠ 32)).dropLast
  else if c = 8 ∨ c = 0x7F then text.dropLast
  else if text.length < 254 then text ++ [c]
  else text

/-! ### The line -/

section Editing

variable {plen : ℤ} {l : Line}

theorem length_typedText (h : LineOk plen l) : ((typedText l.buf l.n).length : ℤ) = l.n := by
  have := h.nonneg
  rw [typedText, List.length_map, List.length_range]
  omega

/-- A line that is not empty ends in the character in front of the pointer. -/
theorem typedText_eq_concat (h : LineOk plen l) (hn : l.n ≠ 0) :
    typedText l.buf l.n = typedText l.buf (l.n - 1) ++ [l.buf (l.p - 1)] := by
  have hpos := h.nonneg
  have hsucc := typedText_succ l.buf (n := l.n - 1) (by omega)
  rw [Int.sub_add_cancel] at hsucc
  rw [h.p_eq]
  exact hsucc

/-- `delete_char` takes the last character away. -/
theorem typedText_deleteChar (h : LineOk plen l) :
    typedText (deleteChar plen l).buf (deleteChar plen l).n = (typedText l.buf l.n).dropLast := by
  by_cases hn : l.n = 0
  · rw [deleteChar, if_pos hn, hn]
    rfl
  · rw [typedText_eq_concat h hn, List.dropLast_concat, deleteChar_buf, deleteChar, if_neg hn]

/-- The loop of `^W`, after a character has been taken away. -/
theorem typedText_eraseWord (rounds : ℕ) (h : LineOk plen l) (hrounds : l.n ≤ rounds) :
    typedText (eraseWord plen rounds l).buf (eraseWord plen rounds l).n =
      ((typedText l.buf l.n ++ [l.buf l.p]).rdropWhile (· ≠ 32)).dropLast := by
  induction rounds generalizing l with
  | zero =>
    have hn : l.n = 0 := by
      have := h.nonneg
      push_cast at hrounds
      omega
    rw [eraseWord, hn]
    by_cases hc : l.buf l.p = 32
    · rw [List.rdropWhile_concat_neg _ _ _ (by simp [hc])]
      rfl
    · rw [List.rdropWhile_concat_pos _ _ _ (by simp [hc])]
      rfl
  | succ rounds ih =>
    push_cast at hrounds
    by_cases hc : l.buf l.p = 32
    · rw [eraseWord, if_neg (fun hgo => hgo.2 hc), List.rdropWhile_concat_neg _ _ _ (by simp [hc]),
        List.dropLast_concat]
    · rw [List.rdropWhile_concat_pos _ _ _ (by simp [hc]), eraseWord]
      by_cases hn : l.n = 0
      · rw [if_neg (by omega), hn]
        rfl
      · have hpos := h.nonneg
        rw [if_pos ⟨by omega, hc⟩, ih h.deleteChar ?_]
        · rw [typedText_deleteChar h, typedText_eq_concat h hn, List.dropLast_concat, deleteChar_buf,
            deleteChar, if_neg hn]
        · rw [deleteChar, if_neg hn]
          dsimp only
          omega

/-- `^W` -/
theorem typedText_word (h : LineOk plen l) :
    typedText (eraseWord plen l.n.toNat (deleteChar plen l)).buf
        (eraseWord plen l.n.toNat (deleteChar plen l)).n =
      ((typedText l.buf l.n).rdropWhile (· ≠ 32)).dropLast := by
  have hpos := h.nonneg
  by_cases hn : l.n = 0
  · have hword : eraseWord plen (Int.toNat 0) l = l := rfl
    rw [deleteChar, if_pos hn, hn, hword, hn]
    rfl
  · rw [typedText_eraseWord _ h.deleteChar, typedText_deleteChar h, typedText_eq_concat h hn,
      List.dropLast_concat, deleteChar_buf, deleteChar, if_neg hn]
    rw [deleteChar, if_neg hn]
    dsimp only
    omega

/-- A key that does not end the line. -/
theorem readlineStep_edit (h : LineOk plen l) {c : UInt8} (hc : ¬ Ends c) :
    ∃ l', readlineStep plen l c = .typing l' ∧ LineOk plen l' ∧
      typedText l'.buf l'.n = editKey (typedText l.buf l.n) c := by
  have hlen := length_typedText h
  unfold readlineStep editKey
  rw [if_neg (fun henter => hc (henter.imp_right Or.inl))]
  split
  · exact ⟨l, rfl, h, rfl⟩
  rw [if_neg (fun hbreak => hc (Or.inr (Or.inr hbreak)))]
  split
  · rw [erase_eq h.plen_le]
    exact ⟨_, rfl, LineOk.empty plen l.buf, rfl⟩
  split
  · exact ⟨_, rfl, h.deleteChar.eraseWord _, typedText_word h⟩
  split
  · exact ⟨_, rfl, h.deleteChar, typedText_deleteChar h⟩
  by_cases hroom : l.n < consoleBufferBytes - 2
  · have hroom' : (typedText l.buf l.n).length < 254 := by
      have : consoleBufferBytes - 2 = 254 := rfl
      omega
    rw [if_pos hroom, if_pos hroom']
    refine ⟨_, rfl, h.typed hroom c, ?_⟩
    dsimp only
    rw [typedText_succ _ h.nonneg, ← h.p_eq, Function.update_self]
    congr 1
    exact typedText_congr fun i _ hi => Function.update_of_ne (by omega) c l.buf
  · have hroom' : ¬ (typedText l.buf l.n).length < 254 := by
      have : consoleBufferBytes - 2 = 254 := rfl
      omega
    rw [if_neg hroom, if_neg hroom']
    exact ⟨l, rfl, h, rfl⟩

/-- Enter. -/
theorem readlineStep_enter (h : LineOk plen l) {c : UInt8} (hc : c = 13 ∨ c = 10) :
    ∃ buf', readlineStep plen l c = .entered buf' l.n ∧ typedText buf' l.n = typedText l.buf l.n ∧
      buf' l.n = 0 := by
  refine ⟨Function.update l.buf l.p 0, ?_, ?_, ?_⟩
  · rw [readlineStep, if_pos hc, h.p_eq]
  · refine typedText_congr fun i _ hi => Function.update_of_ne ?_ 0 l.buf
    rw [h.p_eq]
    omega
  · rw [h.p_eq]
    exact Function.update_self ..

/-- Keys that do not end the line. -/
theorem readline_typing (h : LineOk plen l) {keys : List UInt8} (hkeys : ∀ c ∈ keys, ¬ Ends c) :
    ∃ l', keys.foldl (readlineTurn plen) (.typing l) = .typing l' ∧ LineOk plen l' ∧
      typedText l'.buf l'.n = keys.foldl editKey (typedText l.buf l.n) := by
  induction keys generalizing l with
  | nil => exact ⟨l, rfl, h, rfl⟩
  | cons c keys ih =>
    rw [List.forall_mem_cons] at hkeys
    obtain ⟨l₁, hstep, hok, htext⟩ := readlineStep_edit h hkeys.1
    obtain ⟨l₂, hrun, hok', htext'⟩ := ih hok hkeys.2
    refine ⟨l₂, ?_, hok', ?_⟩
    · rw [List.foldl_cons, readlineTurn, hstep, hrun]
    · rw [htext', htext, List.foldl_cons]

/-- After the end of the line nothing more is read. -/
theorem foldl_readlineTurn_entered (plen : ℤ) (buf : ℤ → UInt8) (len : ℤ) (keys : List UInt8) :
    keys.foldl (readlineTurn plen) (.entered buf len) = .entered buf len := by
  induction keys with
  | nil => rfl
  | cons c keys ih => exact ih

theorem foldl_readlineTurn_broken (plen : ℤ) (buf : ℤ → UInt8) (keys : List UInt8) :
    keys.foldl (readlineTurn plen) (.broken buf) = .broken buf := by
  induction keys with
  | nil => rfl
  | cons c keys ih => exact ih

/-- **The line editor**: for every prompt and all keys, the line is what the editor makes of the keys; Enter
returns it, with its length and its terminator, and `^C` returns an empty one, whatever comes behind. -/
theorem readline_edits (prompt : Option (List UInt8)) (buf : ℤ → UInt8) (keys : List UInt8)
    (hkeys : ∀ c ∈ keys, ¬ Ends c) :
    (∃ l, readline prompt buf keys = .typing l ∧ l.n = (keys.foldl editKey []).length ∧
      typedText l.buf l.n = keys.foldl editKey []) ∧
    (∀ rest, ∃ buf', readline prompt buf (keys ++ 3 :: rest) = .broken buf' ∧ buf' 0 = 0) ∧
    ∀ c rest, c = 13 ∨ c = 10 → ∃ buf' len, readline prompt buf (keys ++ c :: rest) = .entered buf' len ∧
      len = (keys.foldl editKey []).length ∧ typedText buf' len = keys.foldl editKey [] ∧ buf' len = 0 := by
  obtain ⟨l, hrun, hok, hline⟩ := readline_typing (LineOk.empty (promptLength prompt) buf) hkeys
  have htext : typedText l.buf l.n = keys.foldl editKey [] := hline
  have hlen : l.n = (keys.foldl editKey []).length := by rw [← htext, length_typedText hok]
  refine ⟨⟨l, hrun, hlen, htext⟩, fun rest => ?_, fun c rest hc => ?_⟩
  · refine ⟨Function.update l.buf 0 0, ?_, Function.update_self ..⟩
    rw [readline, List.foldl_append, hrun]
    exact foldl_readlineTurn_broken _ _ rest
  · obtain ⟨buf', hstep, hsame, hnul⟩ := readlineStep_enter hok hc
    refine ⟨buf', l.n, ?_, hlen, hsame.trans htext, hnul⟩
    rw [readline, List.foldl_append, hrun, List.foldl_cons, readlineTurn, hstep]
    exact foldl_readlineTurn_entered _ _ _ rest

theorem readline_edits_word :
    (∃ l, readline none (fun _ => 0) (chars "cd a b" ++ [0x17]) = .typing l ∧ l.n = 4 ∧
      typedText l.buf l.n = chars "cd a") ∧
    (∀ rest, ∃ buf', readline none (fun _ => 0) (chars "cd a b" ++ [0x17] ++ 3 :: rest) = .broken buf' ∧
      buf' 0 = 0) ∧
    ∀ c rest, c = 13 ∨ c = 10 → ∃ buf' len,
      readline none (fun _ => 0) (chars "cd a b" ++ [0x17] ++ c :: rest) = .entered buf' len ∧
      len = 4 ∧ typedText buf' len = chars "cd a" ∧ buf' len = 0 :=
  readline_edits none (fun _ => 0) (chars "cd a b" ++ [0x17]) (by decide +kernel)

end Editing

/-! ### The column -/

/-- A character that is shown in its place when it is typed: a printable one, or a tab. -/
def Typable (c : UInt8) : Prop := c = 9 ∨ Printable c

instance (c : UInt8) : Decidable (Typable c) := inferInstanceAs (Decidable (_ ∨ _))

/-- The keys of the line: the characters, and what `editKey` makes something else of. -/
def IsKey (c : UInt8) : Prop := Typable c ∨ c = 0 ∨ c = 0x15 ∨ c = 0x17 ∨ c = 8 ∨ c = 0x7F

instance (c : UInt8) : Decidable (IsKey c) := inferInstanceAs (Decidable (_ ∨ _))

/-- They leave the line open. -/
theorem IsKey.not_ends {c : UInt8} (h : IsKey c) : ¬ Ends c := by
  rintro (rfl | rfl | rfl) <;> exact absurd h (by decide)

/-- A turn of the loop of `readline`, while it goes on. -/
def typingStep (plen : ℤ) (l : Line) (c : UInt8) : Option Line :=
  match readlineStep plen l c with
  | .typing l => some l
  | _ => none

/-- What the counters have to be at every iteration: the column is the one in which the cursor of the terminal
stands when the line has been printed behind the prompt. -/
structure CountersRight (plen : ℤ) (l : Line) : Prop where
  p_eq : l.p = l.n
  nonneg : 0 ≤ l.n
  le : l.n ≤ consoleBufferBytes - 2
  col : l.col = columnBehind plen.toNat (typedText l.buf l.n)

/-- The condition on a key: if there is room for it, it is no control character but a tab and those that
`readline` itself knows. -/
def TakesColumn (l : Line) (c : UInt8) : Prop := l.n < consoleBufferBytes - 2 → IsKey c ∨ Ends c

section Column

variable {plen : ℤ} {l l' : Line}

/-- The column is counted right behind characters that take one. -/
theorem columnBehind_eq (hplen : 0 ≤ plen) {text : List UInt8} (h : ∀ c ∈ text, Typable c) :
    (columnBehind plen.toNat text : ℤ) = countedColumn plen text := by
  induction text using List.reverseRecOn with
  | nil => exact Int.toNat_of_nonneg hplen
  | append_singleton text c ih =>
    rw [List.forall_mem_append] at h
    have hc : Typable c := h.2 c (List.mem_singleton_self c)
    have hcol := ih h.1
    unfold columnBehind at hcol
    rw [columnBehind_concat, Row.cursor_tabbed _ hc, countedColumn_concat, ← hcol, advance]
    split <;> omega

/-- A control character that is put into the line: the cursor stays where it is. -/
theorem columnBehind_control {c : UInt8} (hkey : ¬ IsKey c) (hends : ¬ Ends c) (start : ℕ) (text : List UInt8) :
    columnBehind start (text ++ [c]) = columnBehind start text := by
  have h9 : c ≠ 9 := fun h => hkey (Or.inl (Or.inl h))
  have hprint : ¬ Printable c := fun h => hkey (Or.inl (Or.inr h))
  have h8 : c ≠ 8 := by rintro rfl; exact absurd hkey (by decide)
  have h13 : c ≠ 13 := fun h => hends (Or.inl h)
  have h10 : c ≠ 10 := fun h => hends (Or.inr (Or.inl h))
  rw [columnBehind_concat, Row.tabbed, if_neg h9, Row.put, if_neg h8, if_neg h13, if_neg h10, if_neg hprint,
    columnBehind]

/-- A key that is a control character goes into the line when there is room for it, -/
theorem readlineStep_control {c : UInt8} (hkey : ¬ IsKey c) (hends : ¬ Ends c)
    (hroom : l.n < consoleBufferBytes - 2) : readlineStep plen l c =
      .typing { buf := Function.update l.buf l.p c, p := l.p + 1, n := l.n + 1, col := advance l.col c } := by
  have henter : ¬ (c = 13 ∨ c = 10) := fun h => hends (h.imp_right Or.inl)
  have h0 : c ≠ 0 := fun h => hkey (Or.inr (Or.inl h))
  have h3 : c ≠ 3 := fun h => hends (Or.inr (Or.inr h))
  have hu : c ≠ 0x15 := fun h => hkey (Or.inr (Or.inr (Or.inl h)))
  have hw : c ≠ 0x17 := fun h => hkey (Or.inr (Or.inr (Or.inr (Or.inl h))))
  have hdel : ¬ (c = 8 ∨ c = 0x7F) := fun h => hkey (Or.inr (Or.inr (Or.inr (Or.inr h))))
  rw [readlineStep, if_neg henter, if_neg h0, if_neg h3, if_neg hu, if_neg hw, if_neg hdel, if_pos hroom]

/-- and is counted as a column that it does not take. -/
theorem LineOk.not_countersRight (h : LineOk plen l) (hplen : 0 ≤ plen)
    (htext : ∀ x ∈ typedText l.buf l.n, Typable x) {c : UInt8} (hkey : ¬ IsKey c) (hends : ¬ Ends c) :
    ¬ CountersRight plen { buf := Function.update l.buf l.p c, p := l.p + 1, n := l.n + 1,
                           col := advance l.col c } := by
  intro hright
  have hsame : typedText (Function.update l.buf l.p c) l.n = typedText l.buf l.n := by
    refine typedText_congr fun i _ hi => Function.update_of_ne ?_ c l.buf
    rw [h.p_eq]
    omega
  have hcol := hright.col
  dsimp only at hcol
  have hnew : Function.update l.buf l.p c l.n = c := by rw [h.p_eq]; exact Function.update_self ..
  rw [typedText_succ _ h.nonneg, hsame, hnew, columnBehind_control hkey hends, columnBehind_eq hplen htext,
    ← h.col] at hcol
  have hmove := (le_advance l.col c).1
  omega

theorem typingStep_eq_some {c : UInt8} (hs : typingStep plen l c = some l') :
    readlineStep plen l c = .typing l' := by
  unfold typingStep at hs
  split at hs
  · next heq =>
    obtain rfl := Option.some.inj hs
    exact heq
  · cases hs

/-- A turn goes on unless its key ends the line. -/
theorem not_ends_of_typingStep (h : LineOk plen l) {c : UInt8} (hs : typingStep plen l c = some l') :
    ¬ Ends c := by
  rintro (hc | hc | rfl)
  · obtain ⟨buf', hstep, -, -⟩ := readlineStep_enter h (Or.inl hc)
    cases hstep.symm.trans (typingStep_eq_some hs)
  · obtain ⟨buf', hstep, -, -⟩ := readlineStep_enter h (Or.inr hc)
    cases hstep.symm.trans (typingStep_eq_some hs)
  · cases typingStep_eq_some hs

/-- What is in the line is what was in it, or the key. -/
theorem mem_editKey {text : List UInt8} {c x : UInt8} (hx : x ∈ editKey text c) :
    x ∈ text ∨ x = c ∧ text.length < 254 ∧ c ≠ 0 ∧ c ≠ 0x15 ∧ c ≠ 0x17 ∧ ¬ (c = 8 ∨ c = 0x7F) := by
  unfold editKey at hx
  split at hx
  · exact Or.inl hx
  split at hx
  · cases hx
  split at hx
  · exact Or.inl ((List.rdropWhile_prefix _ text).subset (List.mem_of_mem_dropLast hx))
  split at hx
  · exact Or.inl (List.mem_of_mem_dropLast hx)
  split at hx
  · rcases List.mem_append.mp hx with hold | hnew
    · exact Or.inl hold
    · exact Or.inr ⟨List.mem_singleton.mp hnew, ‹_›, ‹_›, ‹_›, ‹_›, ‹_›⟩
  · exact Or.inl hx

/-- A turn under the condition keeps to characters that take a column. -/
theorem LineOk.typable_step (h : LineOk plen l) (htext : ∀ x ∈ typedText l.buf l.n, Typable x) {c : UInt8}
    (hc : TakesColumn l c) (hs : typingStep plen l c = some l') :
    LineOk plen l' ∧ ∀ x ∈ typedText l'.buf l'.n, Typable x := by
  have hends := not_ends_of_typingStep h hs
  obtain ⟨l₁, hstep, hok, hedit⟩ := readlineStep_edit h hends
  obtain rfl : l₁ = l' := Turn.typing.inj (hstep.symm.trans (typingStep_eq_some hs))
  refine ⟨hok, fun x hx => ?_⟩
  rw [hedit] at hx
  rcases mem_editKey hx with hold | ⟨rfl, hroom, h0, hu, hw, hdel⟩
  · exact htext x hold
  · have hlen := length_typedText h
    have hkey : IsKey x := by
      refine (hc ?_).resolve_right hends
      have h254 : consoleBufferBytes - 2 = 254 := rfl
      omega
    exact hkey.resolve_right fun hother => hother.elim h0 fun hother => hother.elim hu fun hother =>
      hother.elim hw hdel

/-- **The counters of `readline`**: for every prompt and every sequence of keys they are right at every
iteration exactly when no control character is put into the line.  Whatever the keys, the pointer is at the
count, which leaves two places of the buffer free, and the terminator of a line is inside the buffer; nothing
is written elsewhere. -/
theorem readline_counters_iff (prompt : Option (List UInt8)) (buf : ℤ → UInt8) (keys : List UInt8) :
    (Run.Always (typingStep (promptLength prompt)) (CountersRight (promptLength prompt))
        ⟨buf, 0, 0, promptLength prompt⟩ keys ↔
      Run.Guarded (typingStep (promptLength prompt)) TakesColumn ⟨buf, 0, 0, promptLength prompt⟩ keys) ∧
    (∀ l, readline prompt buf keys = .typing l → l.p = l.n ∧ 0 ≤ l.n ∧ l.n ≤ consoleBufferBytes - 2 ∧
      l.col ≤ promptLength prompt + 8 * l.n ∧ SameOutside buf l.buf) ∧
    (∀ buf' len, readline prompt buf keys = .entered buf' len →
      0 ≤ len ∧ len < consoleBufferBytes ∧ buf' len = 0 ∧ SameOutside buf buf') ∧
    ∀ buf', readline prompt buf keys = .broken buf' → buf' 0 = 0 ∧ SameOutside buf buf' := by
  have hplen : (0 : ℤ) ≤ promptLength prompt := by
    cases prompt with
    | none => exact le_rfl
    | some s => exact Int.natCast_nonneg _
  have hok : TurnOk (promptLength prompt) buf (readline prompt buf keys) :=
    turnOk_foldl (t := .typing _) ⟨LineOk.empty _ buf, fun _ _ => rfl⟩ keys
  refine ⟨?_, fun l hl => ?_, fun buf' len hl => ?_, fun buf' hl => ?_⟩
  · refine Run.always_iff_guarded_of_break
      (P := fun l => LineOk (promptLength prompt) l ∧ ∀ x ∈ typedText l.buf l.n, Typable x)
      (fun l h => ?_) (fun l c l' h => h.1.typable_step h.2) (fun l c l' h hright hs hroom => ?_)
      (fun l c h hs hroom => ?_) ⟨LineOk.empty _ buf, fun x hx => by cases hx⟩
    · exact ⟨h.1.p_eq, h.1.nonneg, h.1.le, h.1.col.trans (columnBehind_eq hplen h.2).symm⟩
    -- a control character would have been counted
    · by_contra hnot
      obtain ⟨hkey, hends⟩ := not_or.mp hnot
      obtain rfl := Turn.typing.inj
        ((readlineStep_control hkey hends hroom).symm.trans (typingStep_eq_some hs))
      exact h.1.not_countersRight hplen h.2 hkey hends hright
    -- the turn ends only with the line
    · by_contra hnot
      obtain ⟨hkey, hends⟩ := not_or.mp hnot
      rw [typingStep, readlineStep_control hkey hends hroom] at hs
      cases hs
  · rw [hl] at hok
    exact ⟨hok.1.p_eq, hok.1.nonneg, hok.1.le, hok.1.col_le, hok.2⟩
  · rwa [hl] at hok
  · rwa [hl] at hok

/-- After the key `^A` the column is counted as 1, and the cursor is still in the first. -/
theorem control_key_counted : ¬ ∀ (prompt : Option (List UInt8)) (buf : ℤ → UInt8) (keys : List UInt8),
    Run.Always (typingStep (promptLength prompt)) (CountersRight (promptLength prompt))
      ⟨buf, 0, 0, promptLength prompt⟩ keys := by
  intro h
  obtain ⟨-, hnext⟩ := h none (fun _ => 0) [1]
  exact absurd (hnext _ rfl).col (by decide)

end Column

theorem echoFrom_append (plen : ℤ) (t : Turn) (keys keys' : List UInt8) :
    echoFrom plen t (keys ++ keys') =
      echoFrom plen t keys ++ echoFrom plen (keys.foldl (readlineTurn plen) t) keys' := by
  induction keys generalizing t with
  | nil => rfl
  | cons c keys ih => rw [List.cons_append, echoFrom, ih, echoFrom, List.append_assoc, List.foldl_cons]

/-! ### The console -/

section Showing

variable {plen : ℤ} {l : Line} {before : List UInt8} {r : Row}

theorem length_charEcho (col : ℤ) (c : UInt8) :
    ((charEcho col c).length : ℤ) = advance col c - col := by
  unfold charEcho advance
  split
  · rw [tabSeq, List.length_drop, List.length_replicate]
    omega
  · simp

theorem printable_charEcho {col : ℤ} {c : UInt8} (hc : Typable c) : ∀ x ∈ charEcho col c, Printable x := by
  unfold charEcho
  split
  · intro x hx
    obtain rfl : x = 32 := List.eq_of_mem_replicate (List.mem_of_mem_drop hx)
    decide
  · next hne =>
    intro x hx
    rw [List.mem_singleton.mp hx]
    exact hc.resolve_left hne

theorem retype_concat (col : ℤ) (text : List UInt8) (c : UInt8) :
    retype col (text ++ [c]) = retype col text ++ charEcho (countedColumn col text) c := by
  induction text generalizing col with
  | nil => simp [retype, countedColumn]
  | cons x text ih =>
    rw [List.cons_append, retype, ih, retype, List.append_assoc]
    rfl

/-- A line is as wide as the columns it takes. -/
theorem length_retype {col : ℤ} (hcol : 0 ≤ col) (text : List UInt8) :
    ((retype col text).length : ℤ) = countedColumn col text - col := by
  induction text generalizing col with
  | nil => simp [retype, countedColumn]
  | cons c text ih =>
    have hadvance := le_advance col c
    have hchar := length_charEcho col c
    have hrest := ih (show 0 ≤ advance col c by omega)
    have hcolumn : countedColumn col (c :: text) = countedColumn (advance col c) text := rfl
    rw [retype, List.length_append, hcolumn]
    push_cast
    omega

theorem printable_retype {col : ℤ} {text : List UInt8} (h : ∀ c ∈ text, Typable c) :
    ∀ x ∈ retype col text, Printable x := by
  induction text generalizing col with
  | nil => simp [retype]
  | cons c text ih =>
    rw [List.forall_mem_cons] at h
    intro x hx
    rcases List.mem_append.mp hx with hc | hrest
    · exact printable_charEcho h.1 x hc
    · exact ih h.2 x hrest

/-- The line is shown behind what was there before, and all of it can be shown. -/
structure Shown (plen : ℤ) (before : List UInt8) (l : Line) (r : Row) : Prop where
  ok : LineOk plen l
  plen_nonneg : 0 ≤ plen
  typable : ∀ c ∈ typedText l.buf l.n, Typable c
  row : Shows r (before ++ retype plen (typedText l.buf l.n))

/-- Erasing back to the prompt. -/
theorem Shown.erase (h : Shown plen before l r) : Shows (r.puts (eraseEcho plen l.col)) before := by
  have hlen := length_retype h.plen_nonneg (typedText l.buf l.n)
  rw [← h.ok.col] at hlen
  have hcount : (l.col - plen).toNat = (retype plen (typedText l.buf l.n)).length := by omega
  rw [eraseEcho, hcount]
  exact h.row.eraseAll

/-- `delete_char` -/
theorem Shown.deleteChar (h : Shown plen before l r) :
    Shown plen before (deleteChar plen l) (r.puts (deleteCharEcho plen l)) := by
  have htext := typedText_deleteChar h.ok
  have htypable : ∀ c ∈ (typedText l.buf l.n).dropLast, Typable c := fun c hc =>
    h.typable c (List.mem_of_mem_dropLast hc)
  refine ⟨h.ok.deleteChar, h.plen_nonneg, by rwa [htext], ?_⟩
  rw [htext]
  unfold deleteCharEcho
  by_cases hn : l.n = 0
  · have hrow := h.row
    rw [if_pos hn]
    rw [hn] at hrow ⊢
    exact hrow
  · have hline := typedText_eq_concat h.ok hn
    rw [if_neg hn]
    have hprev : typedText l.buf (l.p - 1) = (typedText l.buf l.n).dropLast := by
      rw [hline, List.dropLast_concat, h.ok.p_eq]
    split
    · -- the whole line is typed again
      rw [Row.puts_append, erase_eq h.ok.plen_le, hprev]
      exact h.erase.puts (printable_retype htypable)
    · next htab =>
      have hrow := h.row
      rw [hline, retype_concat, charEcho, if_neg htab, ← List.append_assoc] at hrow
      rw [hline, List.dropLast_concat]
      exact hrow.erase

theorem Shown.eraseWord (rounds : ℕ) (h : Shown plen before l r) :
    Shown plen before (eraseWord plen rounds l) (r.puts (eraseWordEcho plen rounds l)) := by
  induction rounds generalizing l r with
  | zero => exact h
  | succ rounds ih =>
    rw [YakOS.eraseWord, eraseWordEcho]
    split
    · rw [Row.puts_append]
      exact ih h.deleteChar
    · exact h

/-- A character that is typed. -/
theorem Shown.typed (h : Shown plen before l r) (hroom : l.n < consoleBufferBytes - 2) {c : UInt8}
    (hc : Typable c) : Shown plen before { buf := Function.update l.buf l.p c, p := l.p + 1, n := l.n + 1,
                                           col := advance l.col c } (r.puts (charEcho l.col c)) := by
  have htext : typedText (Function.update l.buf l.p c) (l.n + 1) = typedText l.buf l.n ++ [c] := by
    rw [typedText_succ _ h.ok.nonneg, ← h.ok.p_eq, Function.update_self]
    congr 1
    exact typedText_congr fun i _ hi => Function.update_of_ne (by omega) c l.buf
  refine ⟨h.ok.typed hroom c, h.plen_nonneg, ?_, ?_⟩
  · dsimp only
    rw [htext]
    intro x hx
    rcases List.mem_append.mp hx with hline | hnew
    · exact h.typable x hline
    · rwa [List.mem_singleton.mp hnew]
  · dsimp only
    rw [htext, retype_concat, ← h.ok.col, ← List.append_assoc]
    exact h.row.puts (printable_charEcho hc)

/-- A key that does not end the line. -/
theorem Shown.edit (h : Shown plen before l r) {c : UInt8} (hkey : IsKey c) :
    ∃ l', readlineStep plen l c = .typing l' ∧ Shown plen before l' (r.puts (keyEcho plen l c)) := by
  have hc := hkey.not_ends
  unfold readlineStep keyEcho
  have henter : ¬ (c = 13 ∨ c = 10) := fun h => hc (h.imp_right Or.inl)
  rw [if_neg henter, if_neg henter]
  by_cases h0 : c = 0
  · rw [if_pos h0, if_pos h0]
    exact ⟨l, rfl, h⟩
  rw [if_neg h0, if_neg h0]
  have h3 : c ≠ 3 := fun hbreak => hc (Or.inr (Or.inr hbreak))
  rw [if_neg h3, if_neg h3]
  by_cases hu : c = 0x15
  · rw [if_pos hu, if_pos hu, erase_eq h.ok.plen_le]
    refine ⟨_, rfl, LineOk.empty plen l.buf, h.plen_nonneg, fun x hx => ?_, ?_⟩
    · cases hx
    · have hrow := h.erase
      rw [← List.append_nil before] at hrow
      exact hrow
  rw [if_neg hu, if_neg hu]
  by_cases hw : c = 0x17
  · rw [if_pos hw, if_pos hw, Row.puts_append]
    exact ⟨_, rfl, h.deleteChar.eraseWord _⟩
  rw [if_neg hw, if_neg hw]
  by_cases hdel : c = 8 ∨ c = 0x7F
  · rw [if_pos hdel, if_pos hdel]
    exact ⟨_, rfl, h.deleteChar⟩
  rw [if_neg hdel, if_neg hdel]
  have htypable : Typable c :=
    hkey.resolve_right fun hother => hother.elim h0 fun hother => hother.elim hu fun hother =>
      hother.elim hw hdel
  split
  · next hroom => exact ⟨_, rfl, h.typed hroom htypable⟩
  · -- the bell
    refine ⟨l, rfl, ?_⟩
    have hbell : r.puts [7] = r := rfl
    rwa [hbell]

/-- Keys that do not end the line. -/
theorem Shown.edits (h : Shown plen before l r) {keys : List UInt8} (hkeys : ∀ c ∈ keys, IsKey c) :
    ∃ l', keys.foldl (readlineTurn plen) (.typing l) = .typing l' ∧
      Shown plen before l' (r.puts (echoFrom plen (.typing l) keys)) := by
  induction keys generalizing l r with
  | nil => exact ⟨l, rfl, h⟩
  | cons c keys ih =>
    rw [List.forall_mem_cons] at hkeys
    obtain ⟨l₁, hstep, hshown⟩ := h.edit hkeys.1
    obtain ⟨l₂, hrun, hshown'⟩ := ih hshown hkeys.2
    refine ⟨l₂, ?_, ?_⟩
    · rw [List.foldl_cons, readlineTurn, hstep, hrun]
    · rw [echoFrom, Row.puts_append, readlineTurn, hstep]
      exact hshown'

/-- **What the console shows**: behind what was there before, the prompt and the line with its tabs
expanded, and blanks from there on; after Enter, a blank row. -/
theorem readline_shows (prompt : Option (List UInt8)) (buf : ℤ → UInt8) (keys : List UInt8)
    (hprompt : ∀ c ∈ prompt.getD [], Printable c) (hlen : (prompt.getD []).length < 256)
    (hkeys : ∀ c ∈ keys, IsKey c) (hbefore : Shows r before) :
    (∃ l, readline prompt buf keys = .typing l ∧ Shows (r.puts (readlineEcho prompt buf keys))
      (before ++ prompt.getD [] ++ retype (promptLength prompt) (typedText l.buf l.n))) ∧
    ∀ c, c = 13 ∨ c = 10 → Shows (r.puts (readlineEcho prompt buf (keys ++ [c]))) [] := by
  have hplen : (0 : ℤ) ≤ promptLength prompt := by
    cases prompt with
    | none => exact le_rfl
    | some s => exact Int.natCast_nonneg _
  have hcut : (prompt.getD []).take 255 = prompt.getD [] := List.take_of_length_le (by omega)
  have hstart : Shown (promptLength prompt) (before ++ prompt.getD []) ⟨buf, 0, 0, promptLength prompt⟩
      (r.puts (prompt.getD [])) := by
    refine ⟨LineOk.empty _ buf, hplen, fun x hx => ?_, ?_⟩
    · cases hx
    · have hrow := hbefore.puts hprompt
      rw [← List.append_nil (before ++ prompt.getD [])] at hrow
      exact hrow
  obtain ⟨l, hrun, hshown⟩ := hstart.edits hkeys
  refine ⟨⟨l, hrun, ?_⟩, fun c hc => ?_⟩
  · rw [readlineEcho, hcut, Row.puts_append]
    exact hshown.row
  · rw [readlineEcho, hcut, Row.puts_append, echoFrom_append, Row.puts_append, hrun, echoFrom, turnEcho,
      keyEcho, if_pos hc, echoFrom]
    exact shows_newline _

end Showing

/-- A tab and a letter behind the prompt, and the letter is erased again. -/
theorem readline_shows_tab :
    (∃ l, readline (some (chars "$ ")) (fun _ => 0) [9, 0x61, 8] = .typing l ∧
      Shows (Row.puts ⟨fun _ => 32, 0⟩ (readlineEcho (some (chars "$ ")) (fun _ => 0) [9, 0x61, 8]))
        (chars "$ " ++ retype 2 (typedText l.buf l.n))) ∧
    ∀ c, c = 13 ∨ c = 10 →
      Shows (Row.puts ⟨fun _ => 32, 0⟩ (readlineEcho (some (chars "$ ")) (fun _ => 0) ([9, 0x61, 8] ++ [c])))
        [] :=
  readline_shows (some (chars "$ ")) (fun _ => 0) [9, 0x61, 8] (by decide +kernel)
    (by decide +kernel) (by decide +kernel) (⟨rfl, fun _ => rfl⟩ : Shows ⟨fun _ => 32, 0⟩ [])

/-! ### The loop of the shell -/

/-- The line that is read, the commands that are registered, and what `run_command` has done for the lines
so far. -/
structure ShellRun where
  line : Line
  commands : List ShellCommand
  ran : List Ran

/-- `init_shell`, when it begins to read the first line. -/
def shellStart (commands : List ShellCommand) (buf : ℤ → UInt8) : ShellRun := ⟨⟨buf, 0, 0, 0⟩, commands, []⟩

/-- What `strcpy` copies out of the console buffer. -/
def consoleText (buf : ℤ → UInt8) : List UInt8 :=
  (typedText buf consoleBufferBytes).takeWhile (· ≠ 0)

section Loop

variable (effect : Ran → List ShellCommand → List ShellCommand)

/-- The loop of `init_shell`, up to the next key; `effect` says what a command makes of the list of the
commands. -/
def shellKey (s : ShellRun) (c : UInt8) : ShellRun :=
  match readlineStep 0 s.line c with
  | .typing l => { s with line := l }
  | .broken buf => { s with line := ⟨buf, 0, 0, 0⟩ }
  | .entered buf len =>
    if 0 < len then
      { line := ⟨buf, 0, 0, 0⟩
        commands := effect (runCommand s.commands (some (consoleText buf))) s.commands
        ran := s.ran ++ [runCommand s.commands (some (consoleText buf))] }
    else { s with line := ⟨buf, 0, 0, 0⟩ }

/-- The line that is being typed, and the lines that have been entered. -/
def lineKey (s : List UInt8 × List (List UInt8)) (c : UInt8) : List UInt8 × List (List UInt8) :=
  if c = 13 ∨ c = 10 then ([], if s.1 = [] then s.2 else s.2 ++ [s.1])
  else if c = 3 then ([], s.2)
  else (editKey s.1 c, s.2)

/-- The commands run for a list of lines. -/
def runLines (commands : List ShellCommand) (lines : List (List UInt8)) : List ShellCommand × List Ran :=
  lines.foldl (fun s line => (effect (runCommand s.1 (some line)) s.1, s.2 ++ [runCommand s.1 (some line)]))
    (commands, [])

/-- The string in the console buffer is the line. -/
theorem consoleText_eq {buf : ℤ → UInt8} {n : ℤ} (h0 : 0 ≤ n) (hn : n < consoleBufferBytes)
    (hnul : buf n = 0) (hline : 0 ∉ typedText buf n) : consoleText buf = typedText buf n := by
  obtain ⟨k, rfl⟩ := Int.eq_ofNat_of_zero_le h0
  obtain ⟨m, hm⟩ : ∃ m, consoleBufferBytes.toNat = k + (m + 1) := by
    refine ⟨consoleBufferBytes.toNat - k - 1, ?_⟩
    unfold consoleBufferBytes at hn ⊢
    omega
  have hsplit : typedText buf consoleBufferBytes =
      typedText buf k ++ 0 :: (List.range m).map fun i : ℕ => buf ((k + (i + 1) : ℕ) : ℤ) := by
    rw [typedText, hm, List.range_add, List.map_append, List.map_map, List.range_succ_eq_map,
      List.map_cons, List.map_map, typedText, Int.toNat_natCast]
    congr 2
  rw [consoleText, hsplit, List.takeWhile_append_of_pos, List.takeWhile_cons_of_neg (by simp),
    List.append_nil]
  intro x hx
  rw [decide_eq_true_iff]
  rintro rfl
  exact hline hx

/-- The shell is at the line that is being typed, and has run the ones entered. -/
structure Runs (commands : List ShellCommand) (s : ShellRun) (a : List UInt8 × List (List UInt8)) :
    Prop where
  ok : LineOk 0 s.line
  text : typedText s.line.buf s.line.n = a.1
  noNul : 0 ∉ a.1
  lines : runLines effect commands a.2 = (s.commands, s.ran)
  fits : .overflow ∉ s.ran

/-- One key. -/
theorem runs_shellKey {commands : List ShellCommand} {s : ShellRun} {a : List UInt8 × List (List UInt8)}
    (h : Runs effect commands s a) (c : UInt8) :
    Runs effect commands (shellKey effect s c) (lineKey a c) := by
  have hlen := length_typedText h.ok
  have hnonneg := h.ok.nonneg
  unfold lineKey
  by_cases henter : c = 13 ∨ c = 10
  · obtain ⟨buf', hstep, hsame, hnul⟩ := readlineStep_enter h.ok henter
    rw [if_pos henter, shellKey, hstep]
    dsimp only
    by_cases hempty : a.1 = []
    · have hzero : ¬ 0 < s.line.n := by
        rw [← hlen, h.text, hempty]
        decide
      rw [if_neg hzero, if_pos hempty]
      exact ⟨LineOk.empty 0 buf', rfl, List.not_mem_nil, h.lines, h.fits⟩
    · have hpos : 0 < s.line.n := by
        have := List.length_pos_iff.mpr hempty
        rw [← hlen, h.text]
        omega
      have hle := h.ok.le
      have hline : consoleText buf' = a.1 := by
        rw [consoleText_eq hnonneg (by unfold consoleBufferBytes at *; omega) hnul, hsame, h.text]
        rw [hsame, h.text]
        exact h.noNul
      rw [if_pos hpos, if_neg hempty, hline]
      refine ⟨LineOk.empty 0 buf', rfl, List.not_mem_nil, ?_, ?_⟩
      · have hlines := h.lines
        unfold runLines at hlines ⊢
        rw [List.foldl_append, hlines]
        rfl
      · intro hmem
        rcases List.mem_append.mp hmem with hold | hnew
        · exact h.fits hold
        · -- the line fits the buffer of `run_command`
          have hover := (runCommand_eq_overflow_iff s.commands).mp (List.mem_singleton.mp hnew).symm
          have hshort : (skipSpaces a.1).length ≤ a.1.length := (List.dropWhile_sublist _).length_le
          have h254 : consoleBufferBytes - 2 = 254 := rfl
          rw [h.text] at hlen
          unfold FitsBuffer cmdbufSize at hover
          omega
  · rw [if_neg henter]
    by_cases hbreak : c = 3
    · subst hbreak
      rw [if_pos rfl]
      exact ⟨LineOk.empty 0 _, rfl, List.not_mem_nil, h.lines, h.fits⟩
    · have hends : ¬ Ends c := by
        rintro (hc | hc | hc)
        · exact henter (Or.inl hc)
        · exact henter (Or.inr hc)
        · exact hbreak hc
      obtain ⟨l', hstep, hok, htext⟩ := readlineStep_edit h.ok hends
      rw [if_neg hbreak, shellKey, hstep]
      refine ⟨hok, htext.trans (by rw [h.text]), fun hmem => ?_, h.lines, h.fits⟩
      rcases mem_editKey hmem with hold | ⟨hzero, -, hne, -⟩
      · exact h.noNul hold
      · exact hne hzero.symm

/-- **From the keyboard to the commands**: for every stream of keys, whatever the commands make of the list
of commands, the shell runs the lines that are entered and not empty, each with the commands registered at
that time, and never more than a line that fits `cmdbuf`. -/
theorem shell_runs_lines (commands : List ShellCommand) (buf : ℤ → UInt8) (keys : List UInt8) :
    ((keys.foldl (shellKey effect) (shellStart commands buf)).commands,
      (keys.foldl (shellKey effect) (shellStart commands buf)).ran) =
        runLines effect commands (keys.foldl lineKey ([], [])).2 ∧
    .overflow ∉ (keys.foldl (shellKey effect) (shellStart commands buf)).ran := by
  have hrun : Runs effect commands (keys.foldl (shellKey effect) (shellStart commands buf))
      (keys.foldl lineKey ([], [])) := by
    have hstart : Runs effect commands (shellStart commands buf) ([], []) :=
      ⟨LineOk.empty 0 buf, rfl, List.not_mem_nil, rfl, List.not_mem_nil⟩
    generalize shellStart commands buf = s at hstart ⊢
    generalize (([], []) : List UInt8 × List (List UInt8)) = a at hstart ⊢
    induction keys generalizing s a with
    | nil => exact hstart
    | cons c keys ih => exact ih _ _ (runs_shellKey effect hstart c)
  exact ⟨hrun.lines.symm, hrun.fits⟩

end Loop

end YakOS
