import Mathlib.Data.List.Induction
import YakOS.Fs.CurPath
import YakOS.Lib.Paths

/-!
# The components of the current path

What `vfs_change_path` does to a path of names and an input of components.  The loop follows the leading
`..` and appends what is behind them as it is; it tells `..` and `.` by the first two characters, and
goes on three characters behind the former, whatever those are.

## Main definitions

* `ChangesRight` — the path becomes the one that the components lead to.
* `Clean` — an input of some `..`, then perhaps one `.`, then names.
* `MeetsRoot` — the loop finds two dots at the root and stops there.

## Main results

* `vfsChangePath_name`, `vfsChangePath_root_dots`, `vfsChangePath_up`, … — one round of the loop.
* `vfsChangePath_meetsRoot` — where the loop stops at the root.
* `ne_of_behind` — a path that is too short stays so.
* `change_path_iff` — **the path changes as it has to exactly when the input is clean, or the loop stops
  at the root and the components lead there.**
-/

namespace YakOS

open Paths

/-- A path of names. -/
def Normalised (path : List Char) : Prop :=
  ∃ a, (∀ c ∈ a, Name '/' '.' c) ∧ path = render '/' a

/-- The path becomes the one that the components lead to, and is one of names again. -/
structure ChangesRight (a cs : List (List Char)) : Prop where
  path : vfsChangePath (render '/' a) (join '/' cs) = render '/' (resolve '.' a cs)
  normalised : Normalised (vfsChangePath (render '/' a) (join '/' cs))

/-- Components that may be appended as they are: names, the first of which does not begin with a dot, or
is a single dot instead. -/
def Plain (cs : List (List Char)) : Prop :=
  cs = [] ∨ ∃ c names, cs = c :: names ∧ (c = ['.'] ∨ c.head? ≠ some '.') ∧
    ∀ d ∈ names, Name '/' '.' d

/-- The input begins with not more `..` than the path has components, and what follows can be appended
as it is. -/
def Clean (a cs : List (List Char)) : Prop :=
  ∃ j ≤ a.length, ∃ rest, cs = List.replicate j ['.', '.'] ++ rest ∧ Plain rest

/-- Two dots stand at the beginning of the input, and three characters further, once for each component
of the path and once more. -/
def MeetsRoot (a : List (List Char)) (input : List Char) : Prop :=
  ∀ i ≤ a.length, input[3 * i]? = some '.' ∧ input[3 * i + 1]? = some '.'

/-! ### The path -/

section CurPath

variable {a : List (List Char)}

theorem lastSlashFrom_of_not_mem {l : List Char} (h : '/' ∉ l) (this place : ℕ) :
    lastSlashFrom this place l = this := by
  induction l generalizing place with
  | nil => rfl
  | cons c l ih =>
    obtain ⟨hc, hl⟩ := not_or.mp (mt List.mem_cons.mpr h)
    rw [lastSlashFrom, if_neg (Ne.symm hc), ih hl]

/-- The last slash found is the one behind which there is no other. -/
theorem lastSlashFrom_append {l c : List Char} (h : '/' ∉ c) (this place : ℕ) :
    lastSlashFrom this place (l ++ '/' :: c) = place + l.length := by
  induction l generalizing this place with
  | nil =>
    rw [List.nil_append, lastSlashFrom, if_pos rfl, lastSlashFrom_of_not_mem h]
    rfl
  | cons d l ih =>
    rw [List.cons_append, lastSlashFrom, ih, List.length_cons]
    omega

/-- **The parent** of a path is the path without its last component. -/
theorem parentPath_render {c : List Char} (h : Component '/' c) :
    parentPath (render '/' (a ++ [c])) = render '/' a := by
  have hbody : render '/' (a ++ [c]) = body '/' a ++ '/' :: c := by
    rw [render_of_ne_nil '/' (by simp), body_append]
    simp
  unfold parentPath lastSlash
  rw [hbody]
  cases a with
  | nil =>
    rw [body_nil, List.nil_append, List.tail_cons, lastSlashFrom_of_not_mem h.no_sep]
    rfl
  | cons d a =>
    have hlast : lastSlashFrom 0 1 (body '/' (d :: a) ++ '/' :: c).tail = (body '/' (d :: a)).length := by
      rw [body_cons, List.cons_append, List.tail_cons, lastSlashFrom_append h.no_sep, List.length_cons,
        Nat.add_comm]
    rw [hlast, if_neg (by simp), List.take_left' rfl, render_of_ne_nil '/' (by simp)]

/-- A path with a component is longer than the root. -/
theorem one_lt_length_render {c : List Char} (h : Component '/' c) :
    1 < (render '/' (a ++ [c])).length := by
  have hpos := List.length_pos_iff.mpr h.ne_nil
  rw [render_of_ne_nil '/' (by simp), body_append, List.length_append, body_cons, body_nil]
  simp only [List.append_nil, List.length_cons]
  omega

/-- It does not end with a slash. -/
theorem getLast?_render {c : List Char} (h : Component '/' c) :
    (render '/' (a ++ [c])).getLast? ≠ some '/' := by
  obtain ⟨x, hx⟩ := Option.ne_none_iff_exists'.mp (fun e => h.ne_nil (List.getLast?_eq_none_iff.mp e))
  rw [render_of_ne_nil '/' (by simp), body_append, body_cons, body_nil, List.append_nil,
    List.getLast?_append, List.getLast?_cons, hx]
  intro heq
  have hxc : x ∈ c := List.mem_of_getLast? hx
  simp only [Option.getD_some, Option.some_or, Option.some.injEq] at heq
  exact h.no_sep (heq ▸ hxc)

/-- The path with a slash at its end. -/
theorem render_slash (ha : ∀ c ∈ a, Component '/' c) :
    (if (render '/' a).getLast? ≠ some '/' then render '/' a ++ ['/'] else render '/' a)
      = body '/' a ++ ['/'] := by
  rcases List.eq_nil_or_concat' a with rfl | ⟨a, z, rfl⟩
  · rfl
  · rw [if_pos (getLast?_render (ha z (by simp))), render_of_ne_nil '/' (by simp)]

end CurPath

/-! ### One round of the loop -/

section Rounds

variable {cur t : List Char} {x : Char} {a cs : List (List Char)} {c z : List Char}

/-- A component that does not begin with a dot is appended, with all that is behind it. -/
theorem vfsChangePath_name (ha : ∀ c ∈ a, Component '/' c) (hc : Component '/' c)
    (hdot : c.head? ≠ some '.') :
    vfsChangePath (render '/' a) (join '/' (c :: cs)) = render '/' (a ++ c :: cs) := by
  obtain ⟨x, t, rfl⟩ := List.exists_cons_of_ne_nil hc.ne_nil
  have hx : x ≠ '/' := fun h => hc.no_sep (h ▸ List.mem_cons_self)
  have hd : x ≠ '.' := by simpa using hdot
  rw [join_cons, List.cons_append, vfsChangePath, if_neg (by simpa using hx), if_neg (by simp [hd]),
    if_neg (by simp [hd]), if_neg (by simp [hd]), render_slash ha, render_of_ne_nil '/' (by simp),
    body_append, body_cons, List.append_assoc]
  rfl

theorem vfsChangePath_dot : vfsChangePath cur ['.'] = cur := by
  rw [vfsChangePath, if_neg (by simp), if_pos (by simp)]

/-- Behind one dot, all is appended; the first character is taken for a slash. -/
theorem vfsChangePath_dot_cons (hx : x ≠ '.') :
    vfsChangePath cur ('.' :: x :: t) = if cur.getLast? = some '/' then cur ++ t else cur ++ x :: t := by
  rw [vfsChangePath, if_neg (by simp), if_neg (by simp), if_pos (by simp [hx])]
  simp

/-- Two dots at the root end the loop. -/
theorem vfsChangePath_root_dots : vfsChangePath (render '/' []) ('.' :: '.' :: t) = render '/' [] :=
  vfsChangePath_root rfl rfl (Nat.le_refl 1)

/-- Elsewhere they leave a directory, and the loop goes on behind the next character. -/
theorem vfsChangePath_up (hz : Component '/' z) :
    vfsChangePath (render '/' (a ++ [z])) ('.' :: '.' :: t) =
      if 1 < t.length then vfsChangePath (render '/' a) (t.drop 1) else render '/' a := by
  rw [vfsChangePath, if_neg (by simp), if_neg (by simp), if_neg (by simp), if_pos (by simp),
    if_pos (one_lt_length_render hz), parentPath_render hz]
  by_cases ht : 1 < t.length
  · rw [if_pos ht, if_pos (by simp only [List.length_cons]; omega)]
    rfl
  · rw [if_neg ht, if_neg (by simp only [List.length_cons]; omega)]

/-- One dot and a slash are dropped. -/
theorem vfsChangePath_dot_join (ha : ∀ c ∈ a, Component '/' c) :
    vfsChangePath (render '/' a) (join '/' (['.'] :: cs)) = render '/' (a ++ cs) := by
  cases cs with
  | nil => rw [join_cons, body_nil, List.append_nil, List.append_nil, vfsChangePath_dot]
  | cons d ds =>
    rw [join_cons, body_cons, List.singleton_append, vfsChangePath_dot_cons (by decide),
      render_of_ne_nil '/' (show a ++ d :: ds ≠ [] by simp), body_append, body_cons]
    rcases List.eq_nil_or_concat' a with rfl | ⟨a, z, rfl⟩
    · rfl
    · rw [if_neg (getLast?_render (ha z (by simp))), render_of_ne_nil '/' (by simp)]

/-- Two dots and a slash leave a directory. -/
theorem vfsChangePath_up_join (hz : Component '/' z) (hcs : ∀ c ∈ cs, Component '/' c) :
    vfsChangePath (render '/' (a ++ [z])) (join '/' (['.', '.'] :: cs)) =
      if cs = [] then render '/' a else vfsChangePath (render '/' a) (join '/' cs) := by
  rw [join_cons, List.cons_append, List.singleton_append, vfsChangePath_up hz]
  cases cs with
  | nil => rfl
  | cons d ds =>
    have hd := List.length_pos_iff.mpr (hcs d List.mem_cons_self).ne_nil
    rw [if_neg (List.cons_ne_nil d ds), join_cons, body_cons, if_pos]
    · rfl
    · rw [List.length_cons, List.length_append]
      omega

/-- Two dots at the beginning of a longer component leave a directory too.  The next character is
dropped, and the rest is taken for components. -/
theorem vfsChangePath_up_cons (hz : Component '/' z) (hcs : ∀ c ∈ cs, Component '/' c) :
    vfsChangePath (render '/' (a ++ [z])) (join '/' (('.' :: '.' :: x :: t) :: cs)) =
      if t = [] then (if cs = [] then render '/' a else body '/' cs)
      else vfsChangePath (render '/' a) (join '/' (t :: cs)) := by
  rw [join_cons, List.cons_append, List.cons_append, List.cons_append, vfsChangePath_up hz,
    List.length_cons, List.length_append]
  rcases eq_or_ne t [] with rfl | ht
  · rw [if_pos rfl, List.nil_append]
    cases cs with
    | nil => rfl
    | cons d ds =>
      have hd := List.length_pos_iff.mpr (hcs d List.mem_cons_self).ne_nil
      rw [if_neg (List.cons_ne_nil d ds), if_pos (by simp), List.drop_one, List.tail_cons, body_cons,
        vfsChangePath, if_pos List.head?_cons]
  · have htpos := List.length_pos_iff.mpr ht
    rw [if_neg ht, if_pos (by omega), List.drop_one, List.tail_cons, join_cons]

/-- The components of a path, by how the loop takes them. -/
theorem component_cases (hc : Component '/' c) : c.head? ≠ some '.' ∨ c = ['.'] ∨
    (∃ x t, c = '.' :: x :: t ∧ x ≠ '.' ∧ x ≠ '/') ∨ c = ['.', '.'] ∨
      ∃ x t, c = '.' :: '.' :: x :: t := by
  match c, hc with
  | [], hc => exact absurd rfl hc.ne_nil
  | ['.', '.'], _ => exact .inr (.inr (.inr (.inl rfl)))
  | '.' :: '.' :: x :: t, _ => exact .inr (.inr (.inr (.inr ⟨x, t, rfl⟩)))
  | [d], _ =>
    by_cases hd : d = '.'
    · exact .inr (.inl (by rw [hd]))
    · exact .inl (by simpa using hd)
  | d :: x :: t, hc =>
    by_cases hd : d = '.'
    · subst hd
      by_cases hx : x = '.'
      · subst hx
        cases t with
        | nil => exact .inr (.inr (.inr (.inl rfl)))
        | cons y t => exact .inr (.inr (.inr (.inr ⟨y, t, rfl⟩)))
      · exact .inr (.inr (.inl ⟨x, t, rfl, hx, fun h => hc.no_sep (by simp [h])⟩))
    · exact .inl (by simpa using hd)

end Rounds

/-! ### Two dots at the root -/

section Root

variable {a cs : List (List Char)} {input t : List Char} {c z : List Char}

theorem MeetsRoot.dots (h : MeetsRoot a input) : ∃ t, input = '.' :: '.' :: t := by
  obtain ⟨h₀, h₁⟩ := h 0 (Nat.zero_le _)
  match input, h₀, h₁ with
  | x :: y :: t, h₀, h₁ =>
    obtain rfl : x = '.' := by simpa using h₀
    obtain rfl : y = '.' := by simpa using h₁
    exact ⟨t, rfl⟩

theorem meetsRoot_nil : MeetsRoot [] ('.' :: '.' :: t) := by
  intro i hi
  obtain rfl := Nat.le_zero.mp hi
  exact ⟨rfl, rfl⟩

/-- One component less, three characters less. -/
theorem meetsRoot_concat : MeetsRoot (a ++ [z]) ('.' :: '.' :: t) ↔ MeetsRoot a (t.drop 1) := by
  have hplace : ∀ i k, ('.' :: '.' :: t)[3 * (i + 1) + k]? = (t.drop 1)[3 * i + k]? := by
    intro i k
    rw [show 3 * (i + 1) + k = 3 * i + k + 1 + 1 + 1 by omega, List.getElem?_cons_succ,
      List.getElem?_cons_succ, List.getElem?_drop, Nat.add_comm 1]
  unfold MeetsRoot
  rw [List.length_append, List.length_singleton]
  constructor
  · intro h i hi
    obtain ⟨h₀, h₁⟩ := h (i + 1) (by omega)
    exact ⟨hplace i 0 ▸ h₀, hplace i 1 ▸ h₁⟩
  · intro h i hi
    cases i with
    | zero => exact ⟨rfl, rfl⟩
    | succ i =>
      obtain ⟨h₀, h₁⟩ := h i (by omega)
      exact ⟨(hplace i 0).trans h₀, (hplace i 1).trans h₁⟩

/-- **The loop stops at the root** when it finds two dots there, whatever is behind them. -/
theorem vfsChangePath_meetsRoot (ha : ∀ c ∈ a, Component '/' c) (h : MeetsRoot a input) :
    vfsChangePath (render '/' a) input = render '/' [] := by
  induction a using List.reverseRecOn generalizing input with
  | nil =>
    obtain ⟨t, rfl⟩ := h.dots
    exact vfsChangePath_root_dots
  | append_singleton a z ih =>
    obtain ⟨t, rfl⟩ := h.dots
    have hrest := meetsRoot_concat.mp h
    obtain ⟨u, hu⟩ := hrest.dots
    have hlen : 1 < t.length := by
      have := congrArg List.length hu
      rw [List.length_drop, List.length_cons, List.length_cons] at this
      omega
    rw [vfsChangePath_up (ha z (by simp)), if_pos hlen]
    exact ih (fun c hc => ha c (List.mem_append_left _ hc)) hrest

theorem meetsRoot_up_join (hcs : cs ≠ []) :
    MeetsRoot (a ++ [z]) (join '/' (['.', '.'] :: cs)) ↔ MeetsRoot a (join '/' cs) := by
  obtain ⟨d, ds, rfl⟩ := List.exists_cons_of_ne_nil hcs
  rw [join_cons, join_cons, body_cons]
  exact meetsRoot_concat

theorem meetsRoot_up_cons {x : Char} : MeetsRoot (a ++ [z]) (join '/' (('.' :: '.' :: x :: t) :: cs)) ↔
    MeetsRoot a (join '/' (t :: cs)) := by
  rw [join_cons, join_cons]
  exact meetsRoot_concat

/-- Only an input that begins with two dots can meet the root. -/
theorem not_meetsRoot (h : ¬ (c.head? = some '.' ∧ c.tail.head? = some '.')) (hc : c ≠ []) :
    ¬ MeetsRoot a (join '/' (c :: cs)) := by
  intro hmeets
  obtain ⟨t, ht⟩ := hmeets.dots
  rw [join_cons] at ht
  match c, hc with
  | [x], _ =>
    cases cs with
    | nil => simp at ht
    | cons d ds =>
      rw [body_cons, List.singleton_append, List.cons.injEq, List.cons.injEq] at ht
      exact absurd ht.2.1 (by decide)
  | x :: y :: t, _ =>
    rw [List.cons_append, List.cons_append, List.cons.injEq, List.cons.injEq] at ht
    exact h ⟨congrArg some ht.1, congrArg some ht.2.1⟩

end Root

/-! ### Paths that are too short -/

section Behind

variable {a b cs : List (List Char)} {c z : List Char}

/-- How many components a component may at least add to a path. -/
def lead (c : List Char) : ℕ :=
  if c = ['.', '.'] then 0 else if c = ['.'] ∨ c.head? = some '.' ∧ c.tail.head? = some '.' then 1 else 2

theorem lead_le (c : List Char) : lead c ≤ 2 := by
  unfold lead
  split
  · exact Nat.zero_le 2
  · split
    · exact Nat.le_succ 1
    · exact Nat.le_refl 2

theorem lead_of_not_dots (hdots : ¬ (c.head? = some '.' ∧ c.tail.head? = some '.')) (hdot : c ≠ ['.']) :
    lead c = 2 := by
  unfold lead
  rw [if_neg, if_neg (not_or.mpr ⟨hdot, hdots⟩)]
  rintro rfl
  exact hdots ⟨rfl, rfl⟩

theorem lead_le_step (b : List (List Char)) (c : List Char) :
    b.length + lead c ≤ (step '.' b c).length + 1 := by
  have hle := lead_le c
  unfold step
  split
  · next hdot =>
    have hone : lead c = 1 := by
      rw [hdot]
      rfl
    omega
  · split
    · next hdotdot =>
      rw [show lead c = 0 by rw [hdotdot]; rfl, List.length_dropLast]
      omega
    · rw [List.length_append, List.length_singleton]
      omega

/-- What is appended as it is does not lead further than its components. -/
theorem ne_of_appended (hb : ∀ c ∈ b, Name '/' '.' c) (hcs : ∀ c ∈ cs, Component '/' c) {r : List Char}
    (hr : r.count '/' < b.length) : r ++ body '/' cs ≠ render '/' (resolve '.' b cs) := by
  by_cases h : ∀ c ∈ cs, Name '/' '.' c
  · refine ne_render_of_count (names_resolve hb hcs) ?_
    rw [resolve_of_names h, List.count_append, List.length_append, count_body hcs]
    omega
  · exact ne_render_of_special (names_resolve hb hcs) hcs h r

theorem ne_of_length (ha : ∀ c ∈ a, Component '/' c) (hb : ∀ c ∈ b, Component '/' c)
    (h : a.length < b.length) : render '/' a ≠ render '/' b := by
  intro heq
  rw [render_injective ha hb heq] at h
  exact Nat.lt_irrefl _ h

theorem ne_of_behind_name (ha : ∀ c ∈ a, Component '/' c) (hb : ∀ c ∈ b, Name '/' '.' c)
    (hc : Component '/' c) (hcs : ∀ c ∈ cs, Component '/' c) (hdot : c.head? ≠ some '.')
    (h : a.length + 1 < b.length) :
    vfsChangePath (render '/' a) (join '/' (c :: cs)) ≠ render '/' (resolve '.' b cs) := by
  rw [vfsChangePath_name ha hc hdot, render_of_ne_nil '/' (by simp), body_append, body_cons,
    ← List.cons_append, ← List.append_assoc]
  refine ne_of_appended hb hcs ?_
  rw [List.count_append, count_body ha, List.count_cons_self, List.count_eq_zero.mpr hc.no_sep]
  exact h

theorem ne_of_behind_dot (ha : ∀ c ∈ a, Component '/' c) (hb : ∀ c ∈ b, Name '/' '.' c)
    (hcs : ∀ c ∈ cs, Component '/' c) (h : a.length < b.length) :
    vfsChangePath (render '/' a) (join '/' (['.'] :: cs)) ≠ render '/' (resolve '.' b cs) := by
  rw [vfsChangePath_dot_join ha]
  by_cases hne : cs = []
  · rw [hne, List.append_nil]
    exact ne_of_length ha (components_of_names hb) h
  · rw [render_of_ne_nil '/' (by simp [hne]), body_append]
    refine ne_of_appended hb hcs ?_
    rw [count_body ha]
    exact h

/-- A component that begins with a dot, where another character is, is appended to the one before it. -/
theorem ne_of_behind_hidden {x : Char} {t : List Char} (ha : ∀ c ∈ a, Component '/' c)
    (hb : ∀ c ∈ b, Name '/' '.' c) (hc : Component '/' ('.' :: x :: t)) (hx : x ≠ '.')
    (hcs : ∀ c ∈ cs, Component '/' c) (h : a.length < b.length) (hroot : a ≠ [] ∨ 1 < b.length) :
    vfsChangePath (render '/' a) (join '/' (('.' :: x :: t) :: cs)) ≠ render '/' (resolve '.' b cs) := by
  have hxt : (x :: t).count '/' = 0 := List.count_eq_zero.mpr fun h => hc.no_sep (List.mem_cons_of_mem _ h)
  rw [join_cons, List.cons_append, List.cons_append, vfsChangePath_dot_cons hx]
  rcases List.eq_nil_or_concat' a with rfl | ⟨a', z, rfl⟩
  · have ht : t.count '/' = 0 := by
      rw [List.count_cons] at hxt
      omega
    have hslash : (render '/' []).getLast? = some '/' := rfl
    rw [if_pos hslash, ← List.append_assoc]
    refine ne_of_appended hb hcs ?_
    rw [List.count_append, ht]
    exact hroot.resolve_left fun h => h rfl
  · rw [if_neg (getLast?_render (ha z (by simp))), ← List.cons_append, ← List.append_assoc]
    refine ne_of_appended hb hcs ?_
    rw [List.count_append, hxt, render_of_ne_nil '/' (by simp), count_body ha]
    exact h

theorem ne_of_behind_once (ha : ∀ c ∈ a, Component '/' c) (hb : ∀ c ∈ b, Name '/' '.' c)
    (hc : Component '/' c) (hcs : ∀ c ∈ cs, Component '/' c)
    (hdots : ¬ (c.head? = some '.' ∧ c.tail.head? = some '.')) (hlead : a.length + lead c ≤ b.length) :
    vfsChangePath (render '/' a) (join '/' (c :: cs)) ≠ render '/' (resolve '.' b cs) := by
  rcases component_cases hc with hdot | rfl | ⟨x, t, rfl, hx, -⟩ | rfl | ⟨x, t, rfl⟩
  · have htwo : lead c = 2 := lead_of_not_dots hdots (by rintro rfl; exact hdot rfl)
    exact ne_of_behind_name ha hb hc hcs hdot (by omega)
  · exact ne_of_behind_dot ha hb hcs hlead
  · have htwo : lead ('.' :: x :: t) = 2 := lead_of_not_dots hdots (by simp)
    exact ne_of_behind_hidden ha hb hc hx hcs (by omega) (Or.inr (by omega))
  · exact absurd ⟨rfl, rfl⟩ hdots
  · exact absurd ⟨rfl, rfl⟩ hdots

/-- **A path that is too short stays so**, unless the loop stops at the root: a round that goes on takes
not more components from the path that the input leads to than from the one that is changed. -/
theorem ne_of_behind (ha : ∀ c ∈ a, Name '/' '.' c) (hb : ∀ c ∈ b, Name '/' '.' c)
    (hc : Component '/' c) (hcs : ∀ c ∈ cs, Component '/' c) (hlead : a.length + lead c ≤ b.length)
    (hroot : ¬ MeetsRoot a (join '/' (c :: cs))) :
    vfsChangePath (render '/' a) (join '/' (c :: cs)) ≠ render '/' (resolve '.' b cs) := by
  induction a using List.reverseRecOn generalizing b c cs with
  | nil =>
    refine ne_of_behind_once (by simp) hb hc hcs ?_ hlead
    rintro ⟨h₀, h₁⟩
    match c, h₀, h₁ with
    | x :: y :: t, h₀, h₁ =>
      obtain rfl : x = '.' := by simpa using h₀
      obtain rfl : y = '.' := by simpa using h₁
      rw [join_cons] at hroot
      exact hroot meetsRoot_nil
  | append_singleton a z ih =>
    have hac := components_of_names ha
    have hz : Component '/' z := hac z (by simp)
    have hinit : ∀ c ∈ a, Name '/' '.' c := fun c hc => ha c (List.mem_append_left _ hc)
    have hinitc := components_of_names hinit
    rw [List.length_append, List.length_singleton] at hlead
    rcases component_cases hc with hdot | rfl | ⟨x, t, rfl, hx, -⟩ | rfl | ⟨x, t, rfl⟩
    · exact ne_of_behind_once hac hb hc hcs (fun h => hdot h.1) (by simpa using hlead)
    · exact ne_of_behind_once hac hb hc hcs (by simp) (by simpa using hlead)
    · exact ne_of_behind_once hac hb hc hcs (by simp [hx]) (by simpa using hlead)
    · -- `..` leaves a directory of both
      rw [vfsChangePath_up_join hz hcs]
      cases cs with
      | nil =>
        rw [if_pos rfl, resolve_nil]
        exact ne_of_length hinitc (components_of_names hb) (by omega)
      | cons d ds =>
        have hd := hcs d List.mem_cons_self
        have hstep := lead_le_step b d
        rw [if_neg (List.cons_ne_nil d ds)]
        exact ih hinit (names_step hb hd) hd (fun c hc => hcs c (List.mem_cons_of_mem d hc)) (by omega)
          (mt (meetsRoot_up_join (List.cons_ne_nil d ds)).mpr hroot)
    · -- a longer component leaves one of the path that is changed only
      have hone : lead ('.' :: '.' :: x :: t) = 1 := rfl
      rw [vfsChangePath_up_cons hz hcs]
      split
      · split
        · next hnil =>
          rw [hnil, resolve_nil]
          exact ne_of_length hinitc (components_of_names hb) (by omega)
        · exact ne_of_appended hb hcs (r := []) (by simp only [List.count_nil]; omega)
      · next ht =>
        have ht' : Component '/' t := ⟨ht, fun h => hc.no_sep (by simp [h])⟩
        have hle := lead_le t
        exact ih hinit hb ht' hcs (by omega) (mt meetsRoot_up_cons.mpr hroot)

end Behind

/-! ### What an input has to be -/

section Inputs

variable {a cs : List (List Char)} {c z : List Char}

theorem plain_cons : Plain (c :: cs) ↔
    (c = ['.'] ∨ c.head? ≠ some '.') ∧ ∀ d ∈ cs, Name '/' '.' d := by
  constructor
  · rintro (hnil | ⟨c', names, heq, hc, hnames⟩)
    · cases hnil
    · obtain ⟨rfl, rfl⟩ := List.cons.inj heq
      exact ⟨hc, hnames⟩
  · rintro ⟨hc, hnames⟩
    exact Or.inr ⟨c, cs, rfl, hc, hnames⟩

theorem clean_nil : Clean a [] := ⟨0, Nat.zero_le _, [], rfl, Or.inl rfl⟩

/-- An input that does not begin with two dots is appended as it is. -/
theorem clean_of_ne (hc : c ≠ ['.', '.']) : Clean a (c :: cs) ↔ Plain (c :: cs) := by
  constructor
  · rintro ⟨j, -, rest, heq, hplain⟩
    cases j with
    | zero =>
      rw [heq]
      exact hplain
    | succ j =>
      rw [List.replicate_succ, List.cons_append] at heq
      exact absurd (List.cons.inj heq).1 hc
  · exact fun hplain => ⟨0, Nat.zero_le _, _, rfl, hplain⟩

/-- Two dots can not be appended as they are. -/
theorem not_plain_dots : ¬ Plain (['.', '.'] :: cs) := by
  intro hplain
  rcases (plain_cons.mp hplain).1 with h | h
  · exact absurd h (by decide)
  · exact h rfl

/-- At the root no input begins with two dots. -/
theorem not_clean_root : ¬ Clean [] (['.', '.'] :: cs) := by
  rintro ⟨j, hj, rest, heq, hplain⟩
  obtain rfl := Nat.le_zero.mp hj
  rw [List.replicate_zero, List.nil_append] at heq
  exact not_plain_dots (heq ▸ hplain)

theorem clean_up : Clean (a ++ [z]) (['.', '.'] :: cs) ↔ Clean a cs := by
  unfold Clean
  rw [List.length_append, List.length_singleton]
  constructor
  · rintro ⟨j, hj, rest, heq, hplain⟩
    cases j with
    | zero =>
      rw [List.replicate_zero, List.nil_append] at heq
      exact absurd (heq ▸ hplain) not_plain_dots
    | succ j =>
      rw [List.replicate_succ, List.cons_append] at heq
      exact ⟨j, by omega, rest, (List.cons.inj heq).2, hplain⟩
  · rintro ⟨j, hj, rest, rfl, hplain⟩
    exact ⟨j + 1, by omega, rest, rfl, hplain⟩

end Inputs

/-! ### When the path changes as it has to -/

section Right

variable {a cs : List (List Char)} {c t : List Char} {x : Char}

/-- The path that the components lead to is always normalised. -/
theorem changesRight_iff (ha : ∀ c ∈ a, Name '/' '.' c) (hcs : ∀ c ∈ cs, Component '/' c) :
    ChangesRight a cs ↔
      vfsChangePath (render '/' a) (join '/' cs) = render '/' (resolve '.' a cs) := by
  constructor
  · exact fun h => h.path
  · exact fun h => ⟨h, resolve '.' a cs, names_resolve ha hcs, h⟩

/-- Components are appended as they are exactly when they are names. -/
theorem appended_iff {b : List (List Char)} (hb : ∀ c ∈ b, Name '/' '.' c)
    (hcs : ∀ c ∈ cs, Component '/' c) :
    render '/' (b ++ cs) = render '/' (resolve '.' b cs) ↔ ∀ c ∈ cs, Name '/' '.' c := by
  constructor
  · intro heq
    by_contra h
    have hne : b ++ cs ≠ [] := by
      rintro hnil
      rw [(List.append_eq_nil_iff.mp hnil).2] at h
      exact h (by simp)
    rw [render_of_ne_nil '/' hne, body_append] at heq
    exact ne_render_of_special (names_resolve hb hcs) hcs h _ heq
  · intro h
    rw [resolve_of_names h]

theorem changesRight_name (ha : ∀ c ∈ a, Name '/' '.' c) (hc : Component '/' c)
    (hcs : ∀ c ∈ cs, Component '/' c) (hdot : c.head? ≠ some '.') :
    ChangesRight a (c :: cs) ↔ ∀ c ∈ cs, Name '/' '.' c := by
  have hname : Name '/' '.' c := ⟨hc, by rintro rfl; exact hdot rfl, by rintro rfl; exact hdot rfl⟩
  have hnames : ∀ d ∈ a ++ [c], Name '/' '.' d := step_of_name hname a ▸ names_step ha hc
  rw [changesRight_iff ha (List.forall_mem_cons.mpr ⟨hc, hcs⟩),
    vfsChangePath_name (components_of_names ha) hc hdot, resolve_cons, step_of_name hname,
    ← appended_iff hnames hcs, List.append_assoc]
  rfl

theorem changesRight_dot (ha : ∀ c ∈ a, Name '/' '.' c) (hcs : ∀ c ∈ cs, Component '/' c) :
    ChangesRight a (['.'] :: cs) ↔ ∀ c ∈ cs, Name '/' '.' c := by
  have hc : Component '/' ['.'] := ⟨by simp, by decide⟩
  rw [changesRight_iff ha (List.forall_mem_cons.mpr ⟨hc, hcs⟩),
    vfsChangePath_dot_join (components_of_names ha), resolve_cons, ← appended_iff ha hcs]
  rfl

/-- A name that begins with one dot loses it, or joins the name before it. -/
theorem not_changesRight_hidden (ha : ∀ c ∈ a, Name '/' '.' c) (hc : Component '/' ('.' :: x :: t))
    (hx : x ≠ '.') (hcs : ∀ c ∈ cs, Component '/' c) : ¬ ChangesRight a (('.' :: x :: t) :: cs) := by
  have hname : Name '/' '.' ('.' :: x :: t) := ⟨hc, by simp, by simp [hx]⟩
  have hnames : ∀ d ∈ a ++ ['.' :: x :: t], Name '/' '.' d :=
    step_of_name hname a ▸ names_step ha hc
  rw [changesRight_iff ha (List.forall_mem_cons.mpr ⟨hc, hcs⟩), resolve_cons, step_of_name hname]
  by_cases hroot : a = []
  · subst hroot
    rw [join_cons, List.cons_append, List.cons_append, vfsChangePath_dot_cons hx]
    intro heq
    have hslash : (render '/' []).getLast? = some '/' := rfl
    rw [if_pos hslash, ← List.append_assoc] at heq
    by_cases h : ∀ c ∈ cs, Name '/' '.' c
    · have hne : [] ++ ['.' :: x :: t] ++ cs ≠ [] := by simp
      rw [resolve_of_names h, render_of_ne_nil '/' hne, body_append] at heq
      have hlen := congrArg List.length (List.append_cancel_right heq)
      simp at hlen
    · exact ne_render_of_special (names_resolve hnames hcs) hcs h _ heq
  · exact ne_of_behind_hidden (components_of_names ha) hnames hc hx hcs (by simp)
      (Or.inl hroot)

/-- Where the loop stops at the root, that has to be where the components lead. -/
theorem changesRight_meetsRoot (ha : ∀ c ∈ a, Name '/' '.' c) (hcs : ∀ c ∈ cs, Component '/' c)
    (h : MeetsRoot a (join '/' cs)) : ChangesRight a cs ↔ resolve '.' a cs = [] := by
  rw [changesRight_iff ha hcs, vfsChangePath_meetsRoot (components_of_names ha) h]
  constructor
  · exact fun heq =>
      (render_injective (by simp) (components_of_names (names_resolve ha hcs)) heq).symm
  · exact fun hnil => by rw [hnil]

/-- A name that begins with two dots is taken for the two, which is wrong unless the loop stops. -/
theorem changesRight_dots_name (ha : ∀ c ∈ a, Name '/' '.' c)
    (hc : Component '/' ('.' :: '.' :: x :: t)) (hcs : ∀ c ∈ cs, Component '/' c) :
    ChangesRight a (('.' :: '.' :: x :: t) :: cs) ↔
      MeetsRoot a (join '/' (('.' :: '.' :: x :: t) :: cs)) ∧
        resolve '.' a (('.' :: '.' :: x :: t) :: cs) = [] := by
  have hall := List.forall_mem_cons.mpr ⟨hc, hcs⟩
  have hname : Name '/' '.' ('.' :: '.' :: x :: t) := ⟨hc, by simp, by simp⟩
  by_cases h : MeetsRoot a (join '/' (('.' :: '.' :: x :: t) :: cs))
  · rw [changesRight_meetsRoot ha hall h, and_iff_right h]
  · have hlead : a.length + lead ('.' :: '.' :: x :: t) ≤ (step '.' a ('.' :: '.' :: x :: t)).length := by
      rw [step_of_name hname, List.length_append]
      exact Nat.le_refl _
    rw [changesRight_iff ha hall, resolve_cons]
    exact iff_of_false (ne_of_behind ha (names_step ha hc) hc hcs hlead h) fun hmeets => h hmeets.1

/-- **The path changes as it has to.**  For every path of names and every input of components, the path
becomes the one that the components lead to exactly when the input is clean, or the loop stops at the
root and the components lead there. -/
theorem change_path_iff (a cs : List (List Char)) (ha : ∀ c ∈ a, Name '/' '.' c)
    (hcs : ∀ c ∈ cs, Component '/' c) (hne : cs ≠ []) :
    ChangesRight a cs ↔
      Clean a cs ∨ (MeetsRoot a (join '/' cs) ∧ resolve '.' a cs = []) := by
  induction cs generalizing a with
  | nil => exact absurd rfl hne
  | cons c cs ih =>
    obtain ⟨hc, hcs'⟩ := List.forall_mem_cons.mp hcs
    rcases component_cases hc with hdot | rfl | ⟨x, t, rfl, hx, -⟩ | rfl | ⟨x, t, rfl⟩
    · have hmeets : ¬ MeetsRoot a (join '/' (c :: cs)) := not_meetsRoot (fun h => hdot h.1) hc.ne_nil
      rw [changesRight_name ha hc hcs' hdot, clean_of_ne (by rintro rfl; exact hdot rfl), plain_cons,
        and_iff_right (Or.inr hdot), or_iff_left fun h => hmeets h.1]
    · have hmeets : ¬ MeetsRoot a (join '/' (['.'] :: cs)) := not_meetsRoot (by simp) hc.ne_nil
      rw [changesRight_dot ha hcs', clean_of_ne (by decide), plain_cons, and_iff_right (Or.inl rfl),
        or_iff_left fun h => hmeets h.1]
    · have hmeets : ¬ MeetsRoot a (join '/' (('.' :: x :: t) :: cs)) :=
        not_meetsRoot (by simp [hx]) hc.ne_nil
      have hclean : ¬ Clean a (('.' :: x :: t) :: cs) := by
        rw [clean_of_ne (by simp [hx]), plain_cons]
        simp
      exact iff_of_false (not_changesRight_hidden ha hc hx hcs')
        (not_or.mpr ⟨hclean, fun h => hmeets h.1⟩)
    · rcases List.eq_nil_or_concat' a with rfl | ⟨a, z, rfl⟩
      · have hmeets : MeetsRoot [] (join '/' (['.', '.'] :: cs)) := by
          rw [join_cons]
          exact meetsRoot_nil
        rw [changesRight_meetsRoot ha hcs hmeets, or_iff_right not_clean_root, and_iff_right hmeets]
      · have hz := (ha z (by simp)).toComponent
        have hinit : ∀ c ∈ a, Name '/' '.' c := fun c hc => ha c (List.mem_append_left _ hc)
        have hup : resolve '.' (a ++ [z]) (['.', '.'] :: cs) = resolve '.' a cs := by
          rw [resolve_cons]
          congr 1
          exact List.dropLast_concat
        rw [changesRight_iff ha hcs, vfsChangePath_up_join hz hcs', hup, clean_up]
        by_cases hnil : cs = []
        · subst hnil
          rw [if_pos rfl]
          exact iff_of_true rfl (Or.inl clean_nil)
        · rw [if_neg hnil, meetsRoot_up_join hnil, ← changesRight_iff hinit hcs']
          exact ih a hinit hcs' hnil
    · have hclean : ¬ Clean a (('.' :: '.' :: x :: t) :: cs) := by
        rw [clean_of_ne (by simp), plain_cons]
        simp
      rw [changesRight_dots_name ha hc hcs', or_iff_right hclean]

end Right

/-- From `/bin`, `../usr` leads to `/usr`. -/
theorem change_path_iff_up : ChangesRight [['b', 'i', 'n']] [['.', '.'], ['u', 's', 'r']] := by
  refine (change_path_iff [['b', 'i', 'n']] [['.', '.'], ['u', 's', 'r']] ?_ ?_ (by simp)).mpr (Or.inl ?_)
  · exact List.forall_mem_singleton.mpr ⟨⟨by decide, by decide⟩, by decide, by decide⟩
  · exact List.forall_mem_cons.mpr ⟨⟨by decide, by decide⟩,
      List.forall_mem_singleton.mpr ⟨by decide, by decide⟩⟩
  · exact ⟨1, Nat.le_refl 1, [['u', 's', 'r']], rfl,
      Or.inr ⟨['u', 's', 'r'], [], rfl, Or.inr (by decide), by simp⟩⟩

/-- From the root, `../usr` leads nowhere: the loop ends at the two dots, and the name is lost. -/
theorem name_behind_root_lost : ¬ ∀ a cs : List (List Char), (∀ c ∈ a, Name '/' '.' c) →
    (∀ c ∈ cs, Component '/' c) → cs ≠ [] → ChangesRight a cs := by
  intro h
  have hright := h [] [['.', '.'], ['u', 's', 'r']] (by simp)
    (List.forall_mem_cons.mpr ⟨⟨by decide, by decide⟩,
      List.forall_mem_singleton.mpr ⟨by decide, by decide⟩⟩) (by simp)
  have hpath : render '/' [] = render '/' (resolve '.' [] [['.', '.'], ['u', 's', 'r']]) :=
    (vfsChangePath_root_dots (t := ['/', 'u', 's', 'r'])).symm.trans hright.path
  exact absurd hpath (by decide)

end YakOS
