import Mathlib.Logic.Function.Basic
import YakOS.Fs.Vfs

/-!
# Descriptors and nodes

`fs/vfsfs.c` once more, with the nodes that the descriptors point to, the operations of their file
systems, and the memory around `desc`.  The range test of the descriptor functions lets `FD_MAX_NUM`
pass, and `vfs_read` and `vfs_close` use the node of a descriptor without a look at whether there is
one.

The state also records the elements of `desc` that are accessed and the calls of `close` operations.
A function returns `none` where its behaviour is undefined: a null pointer is used, or the buffer of a
name overflows.

## Main definitions

* `VfsState`, `fdAlloc`, `fdFree`, `fdAssign`, `fpGet`, `vfsOpen`, `vfsRead`, `vfsClose` — the code.
* `DescriptorRight` — what the functions are to do with a number that is no open descriptor.

## Main results

* `staysInside_iff` — the descriptor functions stay within the table exactly for all numbers other than
  `FD_MAX_NUM`.
* `descriptors_iff` — **for numbers that are no open descriptor the functions are never right.**
-/

namespace YakOS.Vfs.Nodes

/-- A `struct vfs_node`, with the addresses of its operations and of its private data. -/
structure VfsNode where
  vops : ℕ
  priv : ℕ
  deriving DecidableEq, Repr

/-- A `struct vfs_opvector`, by what the operations return.  `lookup` and `open` are called without a
check, and taken to be there; of the other two a null pointer is `none`. -/
structure OpVector where
  lookup : ℕ → List UInt8 → Option VfsNode
  read : Option (ℕ → ℕ → UInt32 → ℕ → ℤ)
  close : Option (ℕ → ℤ)
  openNode : ℕ → ℤ

/-- A call of a `close` operation: the descriptor that is being closed, the vector, and the argument. -/
structure CloseCall where
  fd : ℤ
  vops : ℕ
  arg : ℕ
  deriving DecidableEq, Repr

/-- `desc` with the memory around it, the nodes, and the two records. -/
structure VfsState where
  desc : ℤ → Desc
  node : ℕ → VfsNode
  /-- `__vfsroot`. -/
  vfsroot : VfsNode
  accessed : List ℤ
  closes : List CloseCall

/-- `FD_MAX_NUM`. -/
def fdMaxNum : ℤ := 256

namespace VfsState

/-! ### The code -/

section Code

variable (ops : ℕ → OpVector) (s : VfsState)

/-- An element of `desc` is read. -/
def load (fd : ℤ) : VfsState := { s with accessed := s.accessed ++ [fd] }

/-- An element of `desc` is written. -/
def store (fd : ℤ) (p : Desc) : VfsState :=
  { s with desc := Function.update s.desc fd p, accessed := s.accessed ++ [fd] }

/-- The range test. -/
def Rejects (fd : ℤ) : Prop := fd < 0 ∨ fd > fdMaxNum

instance (fd : ℤ) : Decidable (Rejects fd) := inferInstanceAs (Decidable (_ ∨ _))

/-- `fp_ucount_dec`. -/
def fpUcountDec (fd : ℤ) (fp : ℕ) : VfsState × Option ℤ :=
  let vops := (s.node fp).vops
  match (ops vops).close with
  | some close =>
    if vops ≠ 0 then ({ s with closes := s.closes ++ [⟨fd, vops, fp⟩] }, some (close fp)) else (s, none)
  | none => (s, none)

/-- `fd_close`. -/
def fdClose (fd : ℤ) : VfsState × Option ℤ :=
  if Rejects fd then (s, some (-1))
  else
    let s' := (s.load fd).store fd .allocated
    match s.desc fd with
    | .node fp => fpUcountDec ops s' fd fp
    | _ => (s', some 0)

/-- The loop of `fd_alloc`, over `n` elements from `fd` on. -/
def allocFrom (s : VfsState) : ℕ → ℤ → VfsState × ℤ
  | 0, _ => (s, -1)
  | n + 1, fd =>
    let s' := s.load fd
    if s.desc fd = .null then (s'.store fd .allocated, fd) else allocFrom s' n (fd + 1)

/-- `fd_alloc`. -/
def fdAlloc (low : ℤ) : VfsState × ℤ :=
  if Rejects low then (s, -1) else s.allocFrom (fdMaxNum - low).toNat low

/-- `fd_free`. -/
def fdFree (fd : ℤ) : VfsState × Option ℤ :=
  if Rejects fd then (s, some (-1))
  else
    match s.fdClose ops fd with
    | (s', some error) => (s'.store fd .null, some error)
    | r => r

/-- `fd_assign`; `none` is undefined behaviour here too. -/
def fdAssign (fd : ℤ) (fp : ℕ) : VfsState × Option Unit :=
  if Rejects fd then (s, some ())
  else
    match s.fdClose ops fd with
    | (s', some _) => (s'.store fd (.node fp), some ())
    | (s', none) => (s', none)

/-- `fp_get`, with `none` for a null pointer. -/
def fpGet (fd : ℤ) : VfsState × Option ℕ :=
  if Rejects fd then (s, none)
  else
    match s.desc fd with
    | .node fp => (s.load fd, some fp)
    | _ => (s.load fd, none)

/-- `vfs_read`. -/
def vfsRead (fd : ℤ) (buf : ℕ) (count : UInt32) (ready : ℕ) : VfsState × Option ℤ :=
  match s.fpGet fd with
  | (s', none) => (s', none)
  | (s', some file) =>
    let vops := (s.node file).vops
    match (ops vops).read with
    | some read =>
      if vops ≠ 0 then (s', some (read (s.node file).priv buf count ready)) else (s', some (-1))
    | none => (s', some (-1))

/-- `vfs_close`. -/
def vfsClose (fd : ℤ) : VfsState × Option ℤ :=
  match s.fpGet fd with
  | (s', none) => (s', none)
  | (s', some file) =>
    let vops := (s.node file).vops
    match (ops vops).close with
    | some close =>
      if vops ≠ 0 then
        match s'.fdFree ops fd with
        | (s'', some _) =>
          let priv := (s''.node file).priv
          ({ s'' with closes := s''.closes ++ [⟨fd, vops, priv⟩] }, some (close priv))
        | r => r
      else (s', some (-1))
    | none => (s', some (-1))

/-- `__vfs_lookup`, with a buffer of 512 characters for the name and its NUL: the node found, and `none`
within `some` when the lookup fails. -/
def vfsLookup (dir : VfsNode) (stp : List UInt8) : Option (Option VfsNode) :=
  if 0 < stp.length then
    if stp.length < 512 then some ((ops dir.vops).lookup dir.priv stp) else none
  else some (some dir)

/-- The loop of `vfs_open` over the path and the lookup behind it; `stp` are the characters since the
last slash. -/
def walk : List UInt8 → List UInt8 → VfsNode → Option (Option VfsNode)
  | [], stp, dir => vfsLookup ops dir stp
  | c :: path, stp, dir =>
    if c = 0x2F then
      match vfsLookup ops dir stp with
      | some (some dir) => walk path [] dir
      | r => r
    else walk path (stp ++ [c]) dir

/-- The node a path leads to: a path of one character is not walked. -/
def resolve (path : List UInt8) : Option (Option VfsNode) :=
  if 1 < path.length then walk ops path [] s.vfsroot else some (some s.vfsroot)

/-- `vfs_open`. -/
def vfsOpen (path : List UInt8) (file : Option ℕ) : VfsState × Option ℤ :=
  match file with
  | none => (s, some (-1))
  | some fp =>
    match s.fdAlloc 0 with
    | (s', fd) =>
      if fd < 0 then (s', some (-1))
      else
        match s'.resolve ops path with
        | none => (s', none)
        -- the slot stays reserved
        | some none => (s', some (-1))
        | some (some dir) =>
          let s'' := { s' with node := Function.update s'.node fp dir }
          if (ops dir.vops).openNode dir.priv = 0 then
            match s''.fdAssign ops fd fp with
            | (t, some ()) => (t, some fd)
            | (t, none) => (t, none)
          else
            match s''.fdFree ops fd with
            | (t, some _) => (t, some (-1))
            | r => r

end Code

/-! ### The elements accessed -/

/-- The element `fd` is accessed, if the range test lets it pass, and no other one. -/
def Touches (s s' : VfsState) (fd : ℤ) : Prop :=
  ∀ i, i ∈ s'.accessed ↔ i ∈ s.accessed ∨ i = fd ∧ ¬ Rejects fd

section Accesses

variable {ops : ℕ → OpVector} {s s' s'' : VfsState} {fd : ℤ}

theorem touches_of_rejects (h : Rejects fd) : Touches s s fd := fun i => by simp [h]

theorem Touches.load (h : Touches s s' fd) (hfd : ¬ Rejects fd) : Touches s (s'.load fd) fd := by
  intro i
  show i ∈ s'.accessed ++ [fd] ↔ _
  rw [List.mem_append, h i, List.mem_singleton]
  tauto

theorem touches_load (hfd : ¬ Rejects fd) : Touches s (s.load fd) fd := by
  intro i
  show i ∈ s.accessed ++ [fd] ↔ _
  rw [List.mem_append, List.mem_singleton]
  tauto

theorem Touches.store (h : Touches s s' fd) (hfd : ¬ Rejects fd) (p : Desc) :
    Touches s (s'.store fd p) fd := h.load hfd

theorem fpUcountDec_accessed (s : VfsState) (fp : ℕ) :
    (fpUcountDec ops s fd fp).1.accessed = s.accessed := by
  unfold fpUcountDec
  dsimp only
  split
  · split <;> rfl
  · rfl

theorem touches_fdClose (ops : ℕ → OpVector) (s : VfsState) (fd : ℤ) :
    Touches s (s.fdClose ops fd).1 fd := by
  unfold fdClose
  by_cases hfd : Rejects fd
  · rw [if_pos hfd]
    exact touches_of_rejects hfd
  · have hboth := (touches_load (s := s) hfd).store hfd .allocated
    rw [if_neg hfd]
    dsimp only
    split
    · intro i
      rw [fpUcountDec_accessed]
      exact hboth i
    · exact hboth

theorem touches_fdFree (ops : ℕ → OpVector) (s : VfsState) (fd : ℤ) :
    Touches s (s.fdFree ops fd).1 fd := by
  have hclose := touches_fdClose ops s fd
  unfold fdFree
  by_cases hfd : Rejects fd
  · rw [if_pos hfd]
    exact touches_of_rejects hfd
  · rw [if_neg hfd]
    split
    · next heq =>
      rw [heq] at hclose
      exact hclose.store hfd .null
    · exact hclose

theorem touches_fdAssign (ops : ℕ → OpVector) (s : VfsState) (fd : ℤ) (fp : ℕ) :
    Touches s (s.fdAssign ops fd fp).1 fd := by
  have hclose := touches_fdClose ops s fd
  unfold fdAssign
  by_cases hfd : Rejects fd
  · rw [if_pos hfd]
    exact touches_of_rejects hfd
  · rw [if_neg hfd]
    split
    · next heq =>
      rw [heq] at hclose
      exact hclose.store hfd (.node fp)
    · next heq =>
      rw [heq] at hclose
      exact hclose

theorem touches_fpGet (s : VfsState) (fd : ℤ) : Touches s (s.fpGet fd).1 fd := by
  unfold fpGet
  by_cases hfd : Rejects fd
  · rw [if_pos hfd]
    exact touches_of_rejects hfd
  · rw [if_neg hfd]
    split <;> exact touches_load hfd

/-- `fd_alloc` stops before the end of the table. -/
theorem allocFrom_accessed (n : ℕ) (fd i : ℤ) (hi : i ∈ (s.allocFrom n fd).1.accessed) :
    i ∈ s.accessed ∨ fd ≤ i ∧ i < fd + n := by
  induction n generalizing s fd with
  | zero => exact Or.inl hi
  | succ n ih =>
    unfold allocFrom at hi
    dsimp only at hi
    split at hi
    · have hmem : i ∈ (s.accessed ++ [fd]) ++ [fd] := hi
      simp only [List.mem_append, List.mem_singleton, or_assoc, or_self] at hmem
      exact hmem.imp id fun _ => by omega
    · rcases ih _ hi with hmem | hmem
      · have hmem : i ∈ s.accessed ++ [fd] := hmem
        simp only [List.mem_append, List.mem_singleton] at hmem
        exact hmem.imp id fun _ => by omega
      · exact Or.inr (by omega)

theorem fdAlloc_accessed {low i : ℤ} (hi : i ∈ (s.fdAlloc low).1.accessed) :
    i ∈ s.accessed ∨ 0 ≤ i ∧ i < fdMaxNum := by
  unfold fdAlloc at hi
  by_cases hlow : Rejects low
  · rw [if_pos hlow] at hi
    exact Or.inl hi
  · rw [if_neg hlow] at hi
    unfold Rejects at hlow
    exact (allocFrom_accessed _ _ _ hi).imp id fun _ => by omega

end Accesses

/-! ### Numbers that are no open descriptor -/

/-- The number is an open descriptor. -/
def IsOpen (s : VfsState) (fd : ℤ) : Prop := (0 ≤ fd ∧ fd < fdMaxNum) ∧ ∃ fp, s.desc fd = .node fp

/-- The call returns `-1`, and the state is as before but for the record of accesses. -/
def FailsUnchanged (s : VfsState) (r : VfsState × Option ℤ) : Prop :=
  r.2 = some (-1) ∧ { r.1 with accessed := s.accessed } = s

/-- All elements accessed are in the table. -/
def Inside (s : VfsState) : Prop := ∀ i ∈ s.accessed, 0 ≤ i ∧ i < fdMaxNum

/-- The state, with no access recorded yet. -/
def quiet (s : VfsState) : VfsState := { s with accessed := [] }

/-- The descriptor functions stay within the table. -/
structure StaysInside (ops : ℕ → OpVector) (s : VfsState) (fd : ℤ) : Prop where
  alloc : (s.quiet.fdAlloc fd).1.Inside
  free : (s.quiet.fdFree ops fd).1.Inside
  assign : ∀ fp, (s.quiet.fdAssign ops fd fp).1.Inside
  get : (s.quiet.fpGet fd).1.Inside

/-- They do, and `vfs_read` and `vfs_close` fail and change nothing unless the number is an open
descriptor. -/
structure DescriptorRight (ops : ℕ → OpVector) (s : VfsState) (fd : ℤ) : Prop extends
    StaysInside ops s fd where
  read : ¬ s.IsOpen fd → ∀ buf count ready, FailsUnchanged s (s.vfsRead ops fd buf count ready)
  close : ¬ s.IsOpen fd → FailsUnchanged s (s.vfsClose ops fd)

section Numbers

variable {ops : ℕ → OpVector} {s : VfsState} {fd : ℤ}

/-- A function that touches one element stays within the table, unless that is the one behind it. -/
theorem Touches.inside_iff {s' : VfsState} (h : Touches s.quiet s' fd) :
    s'.Inside ↔ fd ≠ fdMaxNum := by
  have hmem : ∀ i, i ∈ s'.accessed ↔ i = fd ∧ ¬ Rejects fd := fun i => by
    rw [h i]
    simp [quiet]
  unfold Inside Rejects fdMaxNum at *
  constructor
  · rintro hin rfl
    have := hin 256 ((hmem 256).mpr ⟨rfl, by decide⟩)
    omega
  · intro hne i hi
    have := (hmem i).mp hi
    omega

/-- **The range test** lets exactly one number pass for which there is no element. -/
theorem staysInside_iff : StaysInside ops s fd ↔ fd ≠ fdMaxNum := by
  constructor
  · intro h
    exact (touches_fpGet _ _).inside_iff.mp h.get
  · intro hne
    refine ⟨fun i hi => ?_, (touches_fdFree _ _ _).inside_iff.mpr hne,
      fun fp => (touches_fdAssign _ _ _ fp).inside_iff.mpr hne, (touches_fpGet _ _).inside_iff.mpr hne⟩
    exact (fdAlloc_accessed hi).resolve_left (by simp [quiet])

theorem fpGet_of_node {fp : ℕ} (hfd : ¬ Rejects fd) (h : s.desc fd = .node fp) :
    s.fpGet fd = (s.load fd, some fp) := by
  unfold fpGet
  rw [if_neg hfd, h]

/-- There is a node exactly for a number that the range test lets pass and whose slot holds one. -/
theorem fpGet_eq_none_iff :
    (s.fpGet fd).2 = none ↔ ¬ (¬ Rejects fd ∧ ∃ fp, s.desc fd = .node fp) := by
  unfold fpGet
  by_cases hfd : Rejects fd
  · rw [if_pos hfd]
    exact iff_of_true rfl fun h => h.1 hfd
  · rw [if_neg hfd]
    cases s.desc fd with
    | node fp => exact iff_of_false (Option.some_ne_none fp) (not_not_intro ⟨hfd, fp, rfl⟩)
    | null | allocated =>
      refine iff_of_true rfl ?_
      rintro ⟨-, fp, hnode⟩
      cases hnode

theorem fpGet_of_not_open (hne : fd ≠ fdMaxNum) (h : ¬ s.IsOpen fd) :
    (s.fpGet fd).2 = none := by
  rw [fpGet_eq_none_iff]
  rintro ⟨hfd, hnode⟩
  unfold Rejects at hfd
  exact h ⟨by omega, hnode⟩

/-- So does `vfs_close`. -/
theorem vfsClose_of_fpGet (hget : (s.fpGet fd).2 = none) : (s.vfsClose ops fd).2 = none := by
  unfold vfsClose
  split
  · rfl
  · next heq =>
    rw [heq] at hget
    cases hget

/-- **Numbers that are no open descriptor.**  For every table and every number, the functions are right
exactly when the number is an open descriptor; and the descriptor functions stay within the table
exactly when it is not `FD_MAX_NUM`. -/
theorem descriptors_iff (ops : ℕ → OpVector) (s : VfsState) (fd : ℤ) :
    (DescriptorRight ops s fd ↔ s.IsOpen fd) ∧ (StaysInside ops s fd ↔ fd ≠ fdMaxNum) := by
  refine ⟨⟨fun hright => ?_, fun hopen => ?_⟩, staysInside_iff⟩
  · by_contra h
    have hne := staysInside_iff.mp hright.toStaysInside
    have hfail := (hright.close h).1
    rw [vfsClose_of_fpGet (fpGet_of_not_open hne h)] at hfail
    cases hfail
  · exact ⟨staysInside_iff.mpr hopen.1.2.ne, fun h => absurd hopen h, fun h => absurd hopen h⟩

end Numbers

/-- The table after boot, with null pointers around it. -/
def boot : VfsState where
  desc _ := .null
  node _ := ⟨0, 0⟩
  vfsroot := ⟨0, 0⟩
  accessed := []
  closes := []

/-- `FD_MAX_NUM` passes the range test. -/
theorem fd_max_num_accessed :
    ¬ ∀ (ops : ℕ → OpVector) (s : VfsState) (fd : ℤ), DescriptorRight ops s fd := by
  intro h
  exact staysInside_iff.mp (h (fun _ => ⟨fun _ _ => none, none, none, fun _ => 0⟩) boot 256).toStaysInside
    rfl

end VfsState

end YakOS.Vfs.Nodes
