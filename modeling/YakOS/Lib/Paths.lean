import Mathlib.Data.List.Basic

/-!
# Paths

Paths as lists of components, over any alphabet with a separator and a dot.  `render` writes an absolute
path, `join` a relative one, and `resolve` follows a relative path, where one dot stays and two dots
leave a directory.

## Main definitions

* `body`, `render`, `join` — the characters of a path.
* `Component`, `Name` — what may stand between two separators, and what stands for itself.
* `step`, `resolve` — following a path.

## Main results

* `splitOn_append_body`, `count_body` — the components and the separators in a path.
* `resolve_of_names`, `names_resolve` — names are appended, and only names are left.
* `ne_render_of_special`, `ne_render_of_count` — how the characters tell that a path is not the one
  written for given names.
-/

namespace Paths

variable {α : Type*}

/-- The components, each behind a separator. -/
def body (sep : α) (cs : List (List α)) : List α := cs.flatMap (sep :: ·)

/-- The absolute path of the components. -/
def render (sep : α) (cs : List (List α)) : List α := if cs = [] then [sep] else body sep cs

/-- The relative path of the components. -/
def join (sep : α) (cs : List (List α)) : List α := [sep].intercalate cs

/-- What may stand between two separators. -/
structure Component (sep : α) (c : List α) : Prop where
  ne_nil : c ≠ []
  no_sep : sep ∉ c

/-- A component that is neither one dot nor two. -/
structure Name (sep dot : α) (c : List α) : Prop extends Component sep c where
  ne_dot : c ≠ [dot]
  ne_dotdot : c ≠ [dot, dot]

theorem components_of_names {sep dot : α} {cs : List (List α)} (h : ∀ c ∈ cs, Name sep dot c) :
    ∀ c ∈ cs, Component sep c :=
  fun c hc => (h c hc).toComponent

section Characters

variable {sep : α} {cs : List (List α)}

@[simp] theorem body_nil (sep : α) : body sep [] = [] := rfl

@[simp] theorem body_cons (sep : α) (c : List α) (cs : List (List α)) :
    body sep (c :: cs) = sep :: (c ++ body sep cs) := rfl

theorem body_append (sep : α) (as bs : List (List α)) : body sep (as ++ bs) = body sep as ++ body sep bs :=
  List.flatMap_append

@[simp] theorem render_nil (sep : α) : render sep [] = [sep] := rfl

theorem render_of_ne_nil (sep : α) (h : cs ≠ []) : render sep cs = body sep cs := if_neg h

/-- The first component has no separator before it. -/
theorem join_cons (sep : α) (c : List α) (cs : List (List α)) : join sep (c :: cs) = c ++ body sep cs := by
  unfold join
  induction cs generalizing c with
  | nil => simp
  | cons c' cs ih =>
    rw [List.intercalate_cons_cons, ih, List.append_assoc]
    rfl

variable [DecidableEq α]

/-- The components behind the first ones of a path are found between its separators. -/
theorem splitOn_append_body (h : ∀ c ∈ cs, Component sep c) (r : List α) :
    (r ++ body sep cs).splitOn sep = r.splitOn sep ++ cs := by
  induction cs generalizing r with
  | nil => simp
  | cons c cs ih =>
    have hrest := ih (fun d hd => h d (List.mem_cons_of_mem c hd)) c
    have hc := (h c List.mem_cons_self).no_sep
    rw [body_cons, List.splitOn_append_cons_self, hrest, List.splitOn_eq_singleton hc]
    rfl

/-- There are as many separators as components. -/
theorem count_body (h : ∀ c ∈ cs, Component sep c) : (body sep cs).count sep = cs.length := by
  induction cs with
  | nil => rfl
  | cons c cs ih =>
    have hc := List.count_eq_zero.mpr (h c List.mem_cons_self).no_sep
    rw [body_cons, List.count_cons_self, List.count_append, hc, Nat.zero_add,
      ih fun d hd => h d (List.mem_cons_of_mem c hd), List.length_cons]

/-- The components of a path that is not the root stand between its separators. -/
theorem splitOn_render (h : ∀ c ∈ cs, Component sep c) (hne : cs ≠ []) :
    (render sep cs).splitOn sep = [] :: cs := by
  have hsplit := splitOn_append_body h []
  rw [render_of_ne_nil sep hne]
  simpa using hsplit

/-- What stands between two separators of an absolute path is empty or one of its components. -/
theorem mem_splitOn_render (h : ∀ c ∈ cs, Component sep c) {c : List α}
    (hc : c ∈ (render sep cs).splitOn sep) : c = [] ∨ c ∈ cs := by
  by_cases hne : cs = []
  · subst hne
    rw [render_nil, List.splitOn_cons_eq_if_modifyHead] at hc
    simpa using hc
  · rw [splitOn_render h hne] at hc
    exact List.mem_cons.mp hc

/-- The characters of an absolute path determine its components. -/
theorem render_injective {ds : List (List α)} (hc : ∀ c ∈ cs, Component sep c)
    (hd : ∀ d ∈ ds, Component sep d) (h : render sep cs = render sep ds) : cs = ds := by
  have hroot : ∀ es : List (List α), (∀ e ∈ es, Component sep e) → render sep es = [sep] → es = [] := by
    intro es hes heq
    by_contra hne
    obtain ⟨e, es, rfl⟩ := List.exists_cons_of_ne_nil hne
    rw [render_of_ne_nil sep hne, body_cons, List.cons.injEq, List.append_eq_nil_iff] at heq
    exact (hes e List.mem_cons_self).ne_nil heq.2.1
  by_cases hcs : cs = []
  · subst hcs
    exact (hroot ds hd h.symm).symm
  by_cases hds : ds = []
  · subst hds
    exact hroot cs hc h
  have hsplit := congrArg (List.splitOn sep) h
  rw [splitOn_render hc hcs, splitOn_render hd hds] at hsplit
  exact (List.cons.inj hsplit).2

end Characters

/-! ### Following a path -/

section Following

variable [DecidableEq α] {sep dot : α} {a b cs : List (List α)}

/-- Following one component. -/
def step (dot : α) (a : List (List α)) (c : List α) : List (List α) :=
  if c = [dot] then a else if c = [dot, dot] then a.dropLast else a ++ [c]

/-- Following a path. -/
def resolve (dot : α) (a cs : List (List α)) : List (List α) := cs.foldl (step dot) a

@[simp] theorem resolve_nil (dot : α) (a : List (List α)) : resolve dot a [] = a := rfl

@[simp] theorem resolve_cons (dot : α) (a : List (List α)) (c : List α) (cs : List (List α)) :
    resolve dot a (c :: cs) = resolve dot (step dot a c) cs := rfl

theorem step_of_name {c : List α} (h : Name sep dot c) (a : List (List α)) : step dot a c = a ++ [c] := by
  unfold step
  rw [if_neg h.ne_dot, if_neg h.ne_dotdot]

/-- Names are appended. -/
theorem resolve_of_names (h : ∀ c ∈ cs, Name sep dot c) (a : List (List α)) :
    resolve dot a cs = a ++ cs := by
  induction cs generalizing a with
  | nil => simp
  | cons c cs ih =>
    rw [resolve_cons, step_of_name (h c List.mem_cons_self), ih fun d hd => h d (List.mem_cons_of_mem c hd),
      List.append_assoc]
    rfl

/-- One component leaves names only. -/
theorem names_step (ha : ∀ c ∈ a, Name sep dot c) {c : List α} (hc : Component sep c) :
    ∀ d ∈ step dot a c, Name sep dot d := by
  unfold step
  split
  · exact ha
  · split
    · exact fun d hd => ha d ((List.dropLast_sublist a).mem hd)
    · next hdot hdotdot =>
      intro d hd
      rcases List.mem_append.mp hd with hd | hd
      · exact ha d hd
      · rw [List.mem_singleton.mp hd]
        exact ⟨hc, hdot, hdotdot⟩

/-- **Following a path leaves names only.** -/
theorem names_resolve (ha : ∀ c ∈ a, Name sep dot c) (hcs : ∀ c ∈ cs, Component sep c) :
    ∀ d ∈ resolve dot a cs, Name sep dot d := by
  induction cs generalizing a with
  | nil => exact ha
  | cons c cs ih =>
    exact ih (names_step ha (hcs c List.mem_cons_self)) fun d hd => hcs d (List.mem_cons_of_mem c hd)

/-- A path in which dots stand behind a separator is not the one written for names. -/
theorem ne_render_of_special (ha : ∀ c ∈ a, Name sep dot c) (hcs : ∀ c ∈ cs, Component sep c)
    (h : ¬ ∀ c ∈ cs, Name sep dot c) (r : List α) : r ++ body sep cs ≠ render sep a := by
  intro heq
  push Not at h
  obtain ⟨c, hc, hname⟩ := h
  have hmem : c ∈ (r ++ body sep cs).splitOn sep := by
    rw [splitOn_append_body hcs]
    exact List.mem_append_right _ hc
  rw [heq] at hmem
  rcases mem_splitOn_render (components_of_names ha) hmem with hnil | hin
  · exact (hcs c hc).ne_nil hnil
  · exact hname (ha c hin)

/-- A path with fewer separators than there are names is not the one written for them. -/
theorem ne_render_of_count (ha : ∀ c ∈ a, Name sep dot c) {r : List α} (h : r.count sep < a.length) :
    r ≠ render sep a := by
  rintro rfl
  have hne : a ≠ [] := by
    rintro rfl
    exact absurd h (Nat.not_lt_zero _)
  rw [render_of_ne_nil sep hne, count_body (components_of_names ha)] at h
  exact Nat.lt_irrefl _ h

end Following

end Paths
