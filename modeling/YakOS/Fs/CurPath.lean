import Mathlib.Logic.Function.Iterate
import YakOS.Lib.Run

/-!
# The current path

`vfs_change_path` of `fs/vfsfs.c` and the shell command `cd`, which applies it to the
buffer `cur_path` itself.  The path is written with `strcpy` and `strcat`; nothing looks
at the 128 bytes of the buffer.

A C string is the list of its characters before the terminating `NUL`.  A line of the
console has at most `CONSOLE_BUFFER_SIZE - 2` characters: `readline` takes no more.

## Main definitions

* `parentPath`, `vfsChangePath` — the resolver.
* `CdLine`, `cdArgs`, `doCommandCd`, `cdStep` — the command, from the line on.
* `dotdots`, `PathFits` — the leading `..` of an input, and the room that an input needs.

## Main results

* `vfsChangePath_dotdots` — what the loop does with the leading `..`.
* `cur_path_fits_iff` — **the path fits its buffer throughout a run exactly when each
  command finds room for what it copies.**
-/

namespace YakOS

/-- `sizeof(cur_path)`. -/
def curPathSize : ℕ := 128

/-- `CONSOLE_BUFFER_SIZE`. -/
def consoleBufferSize : ℕ := 256

/-! ### The resolver -/

/-- The search for the last slash: `this` is the place of the last one found, and `place`
that of the first character of the rest. -/
def lastSlashFrom (this : ℕ) : ℕ → List Char → ℕ
  | _, [] => this
  | place, c :: rest => lastSlashFrom (if c = '/' then place else this) (place + 1) rest

/-- The place of the last slash in a path; the first character is taken for one. -/
def lastSlash (cur : List Char) : ℕ := lastSlashFrom 0 1 cur.tail

/-- The path is cut at its last slash, which stays if it is the first character. -/
def parentPath (cur : List Char) : List Char :=
  if lastSlash cur = 0 then cur.take 1 else cur.take (lastSlash cur)

/-- `vfs_change_path`. -/
def vfsChangePath (cur input : List Char) : List Char :=
  if input.head? = some '/' then
    -- an absolute path
    input
  else if input.length = 1 ∧ input.head? = some '.' then cur
  else if input.head? = some '.' ∧ input[1]? ≠ some '.' then
    -- the input is "./xxx"
    if cur.getLast? = some '/' then cur ++ input.drop 2
    else if 1 < input.length then cur ++ input.drop 1
    else cur
  else if input.head? = some '.' ∧ input[1]? = some '.' then
    if 1 < cur.length then
      if 3 < input.length then vfsChangePath (parentPath cur) (input.drop 3)
      else parentPath cur
    else cur
  else
    -- add a slash if the last character is not one
    (if cur.getLast? ≠ some '/' then cur ++ ['/'] else cur) ++ input
termination_by input.length
decreasing_by rw [List.length_drop]; omega

theorem length_parentPath_le (cur : List Char) : (parentPath cur).length ≤ cur.length := by
  unfold parentPath
  split <;> exact List.length_take_le' _ _

/-! ### The command -/

/-- A line of the console that `run_command` takes for the command `cd`. -/
structure CdLine where
  text : List Char
  fits : text.length ≤ consoleBufferSize - 2
  no_nul : Char.ofNat 0 ∉ text
  is_cd : "cd".toList <+: text.dropWhile (· = ' ')

/-- The arguments `run_command` finds in a line: what follows the first space and the spaces
after it. -/
def cdArgs (line : List Char) : Option (List Char) :=
  match (line.dropWhile (· = ' ')).dropWhile (· ≠ ' ') with
  | [] => none
  | _ :: rest => some (rest.dropWhile (· = ' '))

/-- `simple_str2lo`. -/
def simpleStr2lo (str : List Char) : List Char :=
  str.map fun c => if 'A' ≤ c ∧ c ≤ 'Z' then Char.ofNat (c.toNat + 32) else c

/-- `do_command_cd`. -/
def doCommandCd (cur : List Char) : Option (List Char) → List Char
  | none => cur
  | some path => vfsChangePath cur (simpleStr2lo path)

/-- `run_command` of the command `cd`; `--help` and `-h` only print its description. -/
def cdStep (cur : List Char) (line : CdLine) : Option (List Char) :=
  let args := cdArgs line.text
  if args = some "--help".toList ∨ args = some "-h".toList then some cur
  else some (doCommandCd cur args)

/-! ### The room an input needs -/

/-- The number of times the loop goes on behind a leading `..`. -/
def dotdots (input : List Char) : ℕ :=
  if input.head? = some '.' ∧ input[1]? = some '.' ∧ 3 < input.length then
    dotdots (input.drop 3) + 1
  else 0
termination_by input.length
decreasing_by rw [List.length_drop]; omega

/-- There is room in `cur_path` for what is copied when the rest of the input, behind its
leading `..`, is appended to `base`, or replaces it. -/
def RestFits (base rest : List Char) : Prop :=
  if rest.head? = some '/' then rest.length < curPathSize
  else if rest.head? = some '.' then
    rest[1]? = some '.' ∨
      base.length + (rest.length - if base.getLast? = some '/' then 2 else 1) < curPathSize
  else base.length + (if base.getLast? = some '/' then 0 else 1) + rest.length < curPathSize

/-- There is room in `cur_path` for the path that the input leads to: one of its leading `..`
finds the root and the rest is dropped, or the rest fits. -/
def PathFits (cur input : List Char) : Prop :=
  (∃ j < dotdots input, (parentPath^[j] cur).length ≤ 1) ∨
    RestFits (parentPath^[dotdots input] cur) (input.drop (3 * dotdots input))

section ChangePath

variable {cur input : List Char}

theorem dotdots_of_dotdot (h : input.head? = some '.' ∧ input[1]? = some '.' ∧ 3 < input.length) :
    dotdots input = dotdots (input.drop 3) + 1 := by
  rw [dotdots, if_pos h]

theorem dotdots_of_not
    (h : ¬ (input.head? = some '.' ∧ input[1]? = some '.' ∧ 3 < input.length)) :
    dotdots input = 0 := by
  rw [dotdots, if_neg h]

/-- One round of the loop. -/
theorem vfsChangePath_of_dotdot
    (h : input.head? = some '.' ∧ input[1]? = some '.' ∧ 3 < input.length) (hcur : 1 < cur.length) :
    vfsChangePath cur input = vfsChangePath (parentPath cur) (input.drop 3) := by
  obtain ⟨h₀, h₁, h₃⟩ := h
  rw [vfsChangePath, if_neg (by simp [h₀]), if_neg (by omega), if_neg (by simp [h₁]),
    if_pos ⟨h₀, h₁⟩, if_pos hcur, if_pos h₃]

/-- A `..` at the root ends the loop. -/
theorem vfsChangePath_root (h₀ : input.head? = some '.') (h₁ : input[1]? = some '.')
    (hcur : cur.length ≤ 1) : vfsChangePath cur input = cur := by
  have hlen : input.length ≠ 1 := by
    have := (List.getElem?_eq_some_iff.mp h₁).1
    omega
  rw [vfsChangePath, if_neg (by simp [h₀]), if_neg fun h => hlen h.1, if_neg (by simp [h₁]),
    if_pos ⟨h₀, h₁⟩, if_neg (by omega)]

/-- The loop follows the leading `..` one after the other, unless one of them finds the root. -/
theorem vfsChangePath_dotdots (cur input : List Char) :
    (∃ j < dotdots input, (parentPath^[j] cur).length ≤ 1 ∧
      vfsChangePath cur input = parentPath^[j] cur) ∨
    (¬ ∃ j < dotdots input, (parentPath^[j] cur).length ≤ 1) ∧
      vfsChangePath cur input =
        vfsChangePath (parentPath^[dotdots input] cur) (input.drop (3 * dotdots input)) := by
  induction hn : dotdots input generalizing cur input with
  | zero =>
    right
    simp
  | succ n ih =>
    by_cases h : input.head? = some '.' ∧ input[1]? = some '.' ∧ 3 < input.length
    · have hrest : dotdots (input.drop 3) = n := by
        have := dotdots_of_dotdot h
        omega
      by_cases hcur : cur.length ≤ 1
      · exact Or.inl ⟨0, Nat.succ_pos n, hcur, vfsChangePath_root h.1 h.2.1 hcur⟩
      · rw [vfsChangePath_of_dotdot h (by omega)]
        rcases ih (parentPath cur) (input.drop 3) hrest with ⟨j, hj, hle, heq⟩ | ⟨hnone, heq⟩
        · exact Or.inl ⟨j + 1, Nat.succ_lt_succ hj, hle, heq⟩
        · right
          constructor
          · rintro ⟨j, hj, hle⟩
            cases j with
            | zero => exact hcur hle
            | succ j => exact hnone ⟨j, Nat.lt_of_succ_lt_succ hj, hle⟩
          · rw [heq, List.drop_drop, Function.iterate_succ_apply]
            congr 2
            omega
    · rw [dotdots_of_not h] at hn
      cases hn

theorem dotdots_drop (input : List Char) : dotdots (input.drop (3 * dotdots input)) = 0 := by
  induction hn : dotdots input generalizing input with
  | zero => simpa using hn
  | succ n ih =>
    by_cases h : input.head? = some '.' ∧ input[1]? = some '.' ∧ 3 < input.length
    · have hrest : dotdots (input.drop 3) = n := by
        have := dotdots_of_dotdot h
        omega
      have hdrop : input.drop (3 * (n + 1)) = (input.drop 3).drop (3 * n) := by
        rw [List.drop_drop]
        congr 1
        omega
      rw [hdrop]
      exact ih _ hrest
    · rw [dotdots_of_not h] at hn
      cases hn

theorem length_iterate_parentPath_le (n : ℕ) (cur : List Char) :
    (parentPath^[n] cur).length ≤ cur.length := by
  induction n generalizing cur with
  | zero => exact Nat.le_refl _
  | succ n ih => exact Nat.le_trans (ih (parentPath cur)) (length_parentPath_le cur)

/-- The last round of the loop. -/
theorem length_vfsChangePath_last {base rest : List Char} (hbase : base.length < curPathSize)
    (hlast : dotdots rest = 0) :
    (vfsChangePath base rest).length < curPathSize ↔ RestFits base rest := by
  have hno : ¬ (rest.head? = some '.' ∧ rest[1]? = some '.' ∧ 3 < rest.length) := by
    intro h
    rw [dotdots_of_dotdot h] at hlast
    cases hlast
  rw [vfsChangePath]
  unfold RestFits
  -- the branches of the code, in its order
  by_cases habs : rest.head? = some '/'
  · rw [if_pos habs, if_pos habs]
  by_cases hdot : rest.head? = some '.'
  · rw [if_neg habs, if_neg habs, if_pos hdot]
    by_cases hone : rest.length = 1
    · rw [if_pos ⟨hone, hdot⟩]
      refine ⟨fun _ => Or.inr ?_, fun _ => hbase⟩
      split <;> omega
    rw [if_neg fun h => hone h.1]
    by_cases htwo : rest[1]? = some '.'
    · -- the last `..` of the input, with nothing behind it
      have hshort : ¬ 3 < rest.length := fun h => hno ⟨hdot, htwo, h⟩
      rw [if_neg fun h => h.2 htwo, if_pos ⟨hdot, htwo⟩, if_neg hshort]
      refine ⟨fun _ => Or.inl htwo, ?_⟩
      intro _
      have := length_parentPath_le base
      split <;> omega
    · have hlen : 1 < rest.length := by
        have : rest ≠ [] := by
          rintro rfl
          simp at hdot
        have := List.length_pos_iff.mpr this
        omega
      rw [if_pos ⟨hdot, htwo⟩, if_pos hlen, or_iff_right htwo]
      by_cases hslash : base.getLast? = some '/'
      · rw [if_pos hslash, if_pos hslash, List.length_append, List.length_drop]
      · rw [if_neg hslash, if_neg hslash, List.length_append, List.length_drop]
  · rw [if_neg habs, if_neg fun h => hdot h.2, if_neg fun h => hdot h.1, if_neg fun h => hdot h.1,
      if_neg habs, if_neg hdot]
    by_cases hslash : base.getLast? = some '/'
    · rw [if_neg (by simp [hslash]), if_pos hslash, List.length_append, Nat.add_zero]
    · rw [if_pos hslash, if_neg hslash, List.length_append, List.length_append,
        List.length_singleton]

/-- A path that fits leads to one that fits exactly when there is room for it. -/
theorem length_vfsChangePath_iff (hcur : cur.length < curPathSize) :
    (vfsChangePath cur input).length < curPathSize ↔ PathFits cur input := by
  rcases vfsChangePath_dotdots cur input with ⟨j, hj, hle, heq⟩ | ⟨hnone, heq⟩
  · rw [heq]
    refine ⟨fun _ => Or.inl ⟨j, hj, hle⟩, ?_⟩
    intro _
    unfold curPathSize
    omega
  · rw [heq]
    have hbase := Nat.lt_of_le_of_lt (length_iterate_parentPath_le (dotdots input) cur) hcur
    rw [length_vfsChangePath_last hbase (dotdots_drop input)]
    exact (or_iff_right hnone).symm

end ChangePath

/-! ### Runs of the shell -/

/-- The path and its terminating `NUL` fit the buffer. -/
def CurPathFits (cur : List Char) : Prop := cur.length + 1 ≤ curPathSize

instance (cur : List Char) : Decidable (CurPathFits cur) := inferInstanceAs (Decidable (_ ≤ _))

/-- The line finds room for the path it leads to. -/
def CdLine.HasRoom (cur : List Char) (line : CdLine) : Prop :=
  match cdArgs line.text with
  | none => True
  | some args =>
    args = "--help".toList ∨ args = "-h".toList ∨ PathFits cur (simpleStr2lo args)

theorem cdStep_fits_iff {cur cur' : List Char} {line : CdLine} (hcur : CurPathFits cur)
    (h : cdStep cur line = some cur') : CurPathFits cur' ↔ line.HasRoom cur := by
  unfold CurPathFits at *
  unfold cdStep at h
  unfold CdLine.HasRoom
  cases hargs : cdArgs line.text with
  | none =>
    rw [hargs] at h
    obtain rfl : cur = cur' := by simpa [doCommandCd] using h
    exact ⟨fun _ => trivial, fun _ => hcur⟩
  | some args =>
    rw [hargs] at h
    dsimp only at h ⊢
    split at h
    · rename_i hhelp
      obtain rfl := Option.some.inj h
      refine ⟨fun _ => ?_, fun _ => hcur⟩
      rcases hhelp with hhelp | hhelp
      · exact Or.inl (Option.some.inj hhelp)
      · exact Or.inr (Or.inl (Option.some.inj hhelp))
    · rename_i hhelp
      obtain rfl := Option.some.inj h
      have h₁ : ¬ args = "--help".toList := fun e => hhelp (Or.inl (by rw [e]))
      have h₂ : ¬ args = "-h".toList := fun e => hhelp (Or.inr (by rw [e]))
      rw [or_iff_right h₁, or_iff_right h₂]
      exact length_vfsChangePath_iff hcur

/-- **The buffer of the current path.**  From boot, the path and its `NUL` fit `cur_path`
throughout a run of `cd` commands exactly when each line of the run finds room. -/
theorem cur_path_fits_iff (lines : List CdLine) :
    Run.Always cdStep CurPathFits ['/'] lines ↔
      Run.Guarded cdStep (fun cur line => line.HasRoom cur) ['/'] lines := by
  refine Run.always_iff_guarded (fun cur line cur' hcur h => cdStep_fits_iff hcur h) ?_ (by decide)
  intro cur line h
  unfold cdStep at h
  dsimp only at h
  split at h <;> cases h

/-- The line `cd /aa…a` with 127 letters. -/
def longLine : CdLine where
  text := 'c' :: 'd' :: ' ' :: '/' :: List.replicate 127 'a'
  fits := by simp [consoleBufferSize]
  no_nul := by simp
  is_cd := by decide

/-- One line of 131 characters overflows the buffer. -/
theorem long_line_overflows : ¬ ∀ lines, Run.Always cdStep CurPathFits ['/'] lines := by
  intro h
  have hstep : cdStep ['/'] longLine = some ('/' :: List.replicate 127 'a') := by
    have hargs : cdArgs longLine.text = some ('/' :: List.replicate 127 'a') := by decide
    have hlow : simpleStr2lo ('/' :: List.replicate 127 'a') = '/' :: List.replicate 127 'a' := by
      decide
    unfold cdStep
    rw [hargs]
    dsimp only [doCommandCd]
    rw [hlow, if_neg (by decide), vfsChangePath, if_pos (List.head?_cons)]
  have hfits : CurPathFits ('/' :: List.replicate 127 'a') := (h [longLine]).2 _ hstep
  simp [CurPathFits, curPathSize] at hfits

end YakOS
