import Mathlib.Data.Fintype.Card
import YakOS.Lib.Run

/-!
# Descriptors

The descriptor table of `fs/vfsfs.c`.  `vfs_open` reserves the first free slot by
`FD_ALLOCATED`, walks the path from the root of the mounted file system, opens the
node it ends at, and assigns the slot or gives it back.  It does not give the slot
back when a lookup of the walk fails.

The operations of the file system are a parameter of each call: what a lookup finds
and whether an open succeeds may change from call to call.

## Main definitions

* `Desc`, `DescTable` — the table `desc`.
* `fdAlloc`, `fdFree`, `fdAssign`, `fpGet` — its operations.
* `walkPath`, `vfsOpen`, `vfsClose` — opening and closing.
* `Files`, `step` — a run of opens and closes, with the number of files open.

## Main results

* `vfsOpen_cases` — what a call can do to the table.
* `descriptor_table_iff` — **a failing `vfs_open` leaves the table as it was, and the slots in
  use are the files open, exactly when no walk fails after a slot was reserved.**
-/

namespace YakOS.Vfs

/-! ### The table -/

/-- An element of `desc`: `NULL`, `FD_ALLOCATED`, or the node of an open file. -/
inductive Desc where
  | null
  | allocated
  | node (fp : ℕ)
  deriving DecidableEq, Repr

/-- `desc[FD_MAX_NUM]`. -/
abbrev DescTable := Fin 256 → Desc

/-- The table after boot. -/
def DescTable.empty : DescTable := fun _ => .null

/-- `fd_alloc(0)`: the first free slot, which is then reserved. -/
def fdAlloc (desc : DescTable) : Option (Fin 256 × DescTable) :=
  ((List.finRange 256).find? fun fd => desc fd = .null).map fun fd =>
    (fd, Function.update desc fd .allocated)

/-- `fd_close`: the slot is reserved again, and the `close` operation of the node that was in
it is called. -/
def fdClose (desc : DescTable) (fd : Fin 256) : DescTable := Function.update desc fd .allocated

/-- `fd_free`. -/
def fdFree (desc : DescTable) (fd : Fin 256) : DescTable := Function.update (fdClose desc fd) fd .null

/-- `fd_assign`. -/
def fdAssign (desc : DescTable) (fd : Fin 256) (fp : ℕ) : DescTable :=
  Function.update (fdClose desc fd) fd (.node fp)

/-- `fp_get`.  The check of the source lets `FD_MAX_NUM` pass, for which it reads behind the
table; here that is no descriptor either. -/
def fpGet (desc : DescTable) (fd : ℤ) : Option (Fin 256 × ℕ) :=
  if h : 0 ≤ fd ∧ fd < 256 then
    let slot : Fin 256 := ⟨fd.toNat, by omega⟩
    match desc slot with
    | .node fp => some (slot, fp)
    | _ => none
  else none

/-! ### Opening and closing -/

/-- The mounted file system, by what its operations do at the time of a call; `ν` are its
nodes. -/
structure FileSystem (ν : Type) where
  root : ν
  lookup : ν → List UInt8 → Option ν
  openOk : ν → Bool

variable {ν : Type}

/-- `__vfs_lookup`: an empty name is not looked up; the buffer of 512 characters that the name is
copied to is taken to hold it. -/
def vfsLookup (fs : FileSystem ν) (dir : ν) (name : List UInt8) : Option ν :=
  if 0 < name.length then fs.lookup dir name else some dir

/-- The loop of `vfs_open` over the path and the lookup behind it; `stp` are the characters
since the last slash. -/
def walkPath (fs : FileSystem ν) : List UInt8 → List UInt8 → ν → Option ν
  | [], stp, dir => vfsLookup fs dir stp
  | c :: path, stp, dir =>
      if c = 0x2F then
        match vfsLookup fs dir stp with
        | none => none
        | some dir => walkPath fs path [] dir
      else walkPath fs path (stp ++ [c]) dir

/-- The node a path leads to: a path of one character is not walked. -/
def resolve (fs : FileSystem ν) (path : List UInt8) : Option ν :=
  if 1 < path.length then walkPath fs path [] fs.root else some fs.root

/-- `vfs_open` for a node at `file`: the table, and the descriptor unless `-1` is returned. -/
def vfsOpen (fs : FileSystem ν) (desc : DescTable) (path : List UInt8) (file : Option ℕ) :
    DescTable × Option (Fin 256) :=
  match file with
  | none => (desc, none)
  | some fp =>
      match fdAlloc desc with
      | none => (desc, none)
      | some (fd, desc) =>
          match resolve fs path with
          -- the slot stays reserved
          | none => (desc, none)
          | some dir =>
              if fs.openOk dir then (fdAssign desc fd fp, some fd)
              else (fdFree desc fd, none)

/-- `vfs_close`; `none` when there is no node, and a null pointer is dereferenced. -/
def vfsClose (desc : DescTable) (fd : ℤ) : Option DescTable :=
  (fpGet desc fd).map fun p => fdFree desc p.1

/-! ### Runs -/

/-- The table, and the number of successful opens not yet closed. -/
structure Files where
  desc : DescTable
  opens : ℕ

/-- A call of `vfs_open` or `vfs_close`. -/
inductive Call (ν : Type) where
  | openFile (fs : FileSystem ν) (path : List UInt8) (file : Option ℕ)
  | closeFile (fd : ℤ)

/-- One call. -/
def step (s : Files) : Call ν → Option Files
  | .openFile fs path file =>
      match vfsOpen fs s.desc path file with
      | (desc, some _) => some ⟨desc, s.opens + 1⟩
      | (desc, none) => some ⟨desc, s.opens⟩
  | .closeFile fd => (vfsClose s.desc fd).map fun desc => ⟨desc, s.opens - 1⟩

/-- After boot no file is open. -/
def Files.boot : Files := ⟨.empty, 0⟩

/-- The number of slots that are not `NULL`. -/
def inUse (desc : DescTable) : ℕ := (Finset.univ.filter fun fd => desc fd ≠ .null).card

/-- The walk of a call does not fail after it has reserved a slot. -/
def WalkOk (desc : DescTable) (fs : FileSystem ν) (path : List UInt8) (file : Option ℕ) : Prop :=
  file ≠ none → (∃ fd, desc fd = .null) → resolve fs path ≠ none

/-- The condition on a call, in the table it is made with: `vfs_close` has none. -/
def Call.WalkOk (s : Files) : Call ν → Prop
  | .openFile fs path file => Vfs.WalkOk s.desc fs path file
  | .closeFile _ => True

/-! ### One call -/

theorem fdAlloc_eq_some {desc desc' : DescTable} {fd : Fin 256} (h : fdAlloc desc = some (fd, desc')) :
    desc fd = .null ∧ desc' = Function.update desc fd .allocated := by
  obtain ⟨fd', hfind, heq⟩ := Option.map_eq_some_iff.mp h
  obtain ⟨rfl, rfl⟩ := Prod.mk.inj heq
  exact ⟨by simpa using List.find?_some hfind, rfl⟩

theorem fdAlloc_eq_none_iff {desc : DescTable} : fdAlloc desc = none ↔ ∀ fd, desc fd ≠ .null := by
  rw [fdAlloc, Option.map_eq_none_iff, List.find?_eq_none]
  simp

/-- **What a call of `vfs_open` can do**: nothing, when it has no node or no slot; reserve a slot
and fail in the walk; fail in the open and give the slot back; or fill the slot. -/
theorem vfsOpen_cases (fs : FileSystem ν) (desc : DescTable) (path : List UInt8) (file : Option ℕ) :
    ((file = none ∨ ∀ fd, desc fd ≠ .null) ∧ vfsOpen fs desc path file = (desc, none)) ∨
      (file ≠ none ∧ ∃ fd, desc fd = .null ∧ resolve fs path = none ∧
        vfsOpen fs desc path file = (Function.update desc fd .allocated, none)) ∨
      (resolve fs path ≠ none ∧ vfsOpen fs desc path file = (desc, none)) ∨
      (resolve fs path ≠ none ∧ ∃ fd fp, desc fd = .null ∧
        vfsOpen fs desc path file = (Function.update desc fd (.node fp), some fd)) := by
  cases file with
  | none => exact Or.inl ⟨Or.inl rfl, rfl⟩
  | some fp =>
    cases halloc : fdAlloc desc with
    | none =>
      refine Or.inl ⟨Or.inr (fdAlloc_eq_none_iff.mp halloc), ?_⟩
      simp only [vfsOpen, halloc]
    | some p =>
      obtain ⟨fd, desc'⟩ := p
      obtain ⟨hnull, rfl⟩ := fdAlloc_eq_some halloc
      cases hwalk : resolve fs path with
      | none =>
        refine Or.inr (Or.inl ⟨Option.some_ne_none fp, fd, hnull, rfl, ?_⟩)
        simp only [vfsOpen, halloc, hwalk]
      | some dir =>
        cases hopen : fs.openOk dir with
        | true =>
          refine Or.inr (Or.inr (Or.inr ⟨Option.some_ne_none dir, fd, fp, hnull, ?_⟩))
          simp [vfsOpen, halloc, hwalk, hopen, fdAssign, fdClose]
        | false =>
          refine Or.inr (Or.inr (Or.inl ⟨Option.some_ne_none dir, ?_⟩))
          have hback : fdFree (Function.update desc fd .allocated) fd = desc := by
            rw [fdFree, fdClose, Function.update_idem, Function.update_idem, ← hnull,
              Function.update_eq_self]
          simp [vfsOpen, halloc, hwalk, hopen, hback]

theorem update_allocated_ne {desc : DescTable} {fd : Fin 256} (h : desc fd = .null) :
    Function.update desc fd .allocated ≠ desc := by
  intro heq
  have hfd := congrFun heq fd
  rw [Function.update_self, h] at hfd
  cases hfd

/-- A failing call leaves the table as it was exactly when its walk does not fail after it has
reserved a slot. -/
theorem vfsOpen_unchanged_iff (fs : FileSystem ν) (desc : DescTable) (path : List UInt8)
    (file : Option ℕ) :
    ((vfsOpen fs desc path file).2 = none → (vfsOpen fs desc path file).1 = desc) ↔
      WalkOk desc fs path file := by
  rcases vfsOpen_cases fs desc path file with
    ⟨hnone, heq⟩ | ⟨hfile, fd, hnull, hwalk, heq⟩ | ⟨hwalk, heq⟩ | ⟨hwalk, fd, fp, hnull, heq⟩
  · rw [heq]
    refine iff_of_true (fun _ => rfl) fun hfile ⟨fd, hfd⟩ => ?_
    rcases hnone with hnone | hfull
    · exact absurd hnone hfile
    · exact absurd hfd (hfull fd)
  · rw [heq]
    refine iff_of_false (fun h => update_allocated_ne hnull (h rfl)) ?_
    intro h
    exact h hfile ⟨fd, hnull⟩ hwalk
  · rw [heq]
    exact iff_of_true (fun _ => rfl) fun _ _ => hwalk
  · rw [heq]
    exact iff_of_true (fun h => absurd h (Option.some_ne_none fd)) fun _ _ => hwalk

/-! ### Counting the slots in use -/

theorem inUse_update_of_null {desc : DescTable} {fd : Fin 256} {v : Desc} (h : desc fd = .null)
    (hv : v ≠ .null) : inUse (Function.update desc fd v) = inUse desc + 1 := by
  have hset : (Finset.univ.filter fun i => Function.update desc fd v i ≠ .null)
      = insert fd (Finset.univ.filter fun i => desc i ≠ .null) := by
    ext i
    by_cases hi : i = fd
    · subst hi
      simp [hv]
    · simp [hi]
  rw [inUse, hset, Finset.card_insert_of_notMem (by simp [h])]
  rfl

theorem inUse_update_null {desc : DescTable} {fd : Fin 256} (h : desc fd ≠ .null) :
    inUse (Function.update desc fd .null) + 1 = inUse desc := by
  have hback := @inUse_update_of_null (Function.update desc fd .null) fd (desc fd)
    (Function.update_self fd Desc.null desc) h
  rw [Function.update_idem, Function.update_eq_self] at hback
  exact hback.symm

/-- Closing takes a slot out of use. -/
theorem inUse_vfsClose {desc desc' : DescTable} {fd : ℤ} (h : vfsClose desc fd = some desc') :
    inUse desc' + 1 = inUse desc := by
  obtain ⟨⟨slot, fp⟩, hget, rfl⟩ := Option.map_eq_some_iff.mp h
  have hslot : desc slot = .node fp := by
    rw [fpGet] at hget
    split at hget
    · simp only at hget
      split at hget
      next fp' hnode =>
        obtain ⟨rfl, rfl⟩ := Prod.mk.inj (Option.some.inj hget)
        exact hnode
      next => cases hget
    · cases hget
  rw [fdFree, fdClose, Function.update_idem]
  exact inUse_update_null (by rw [hslot]; exact Desc.noConfusion)

/-- One call keeps the slots in use the files open exactly when its walk does not fail after it
has reserved a slot. -/
theorem inUse_step_iff {s s' : Files} {c : Call ν} (h : inUse s.desc = s.opens)
    (hs : step s c = some s') : inUse s'.desc = s'.opens ↔ c.WalkOk s := by
  cases c with
  | closeFile fd =>
    obtain ⟨desc', hclose, rfl⟩ := Option.map_eq_some_iff.mp hs
    have hcount := inUse_vfsClose hclose
    refine iff_of_true ?_ trivial
    show inUse desc' = s.opens - 1
    omega
  | openFile fs path file =>
    rw [step] at hs
    show _ ↔ WalkOk s.desc fs path file
    rw [← vfsOpen_unchanged_iff]
    rcases vfsOpen_cases fs s.desc path file with
      ⟨-, heq⟩ | ⟨-, fd, hnull, -, heq⟩ | ⟨-, heq⟩ | ⟨-, fd, fp, hnull, heq⟩
    · rw [heq] at hs ⊢
      rw [← Option.some.inj hs]
      exact iff_of_true h fun _ => rfl
    · rw [heq] at hs ⊢
      rw [← Option.some.inj hs]
      refine iff_of_false ?_ fun hsame => update_allocated_ne hnull (hsame rfl)
      show inUse (Function.update s.desc fd .allocated) ≠ s.opens
      rw [inUse_update_of_null hnull Desc.noConfusion]
      omega
    · rw [heq] at hs ⊢
      rw [← Option.some.inj hs]
      exact iff_of_true h fun _ => rfl
    · rw [heq] at hs ⊢
      rw [← Option.some.inj hs]
      refine iff_of_true ?_ fun hfail => absurd hfail (Option.some_ne_none fd)
      show inUse (Function.update s.desc fd (.node fp)) = s.opens + 1
      rw [inUse_update_of_null hnull Desc.noConfusion, h]

/-- **A failing `vfs_open` leaves the table as it was exactly when its walk does not fail after it
has reserved a slot, and in every run of opens and closes the slots in use are the files open
exactly when no walk of the run does.** -/
theorem descriptor_table_iff :
    (∀ (fs : FileSystem ν) (desc : DescTable) (path : List UInt8) (file : Option ℕ),
      ((vfsOpen fs desc path file).2 = none → (vfsOpen fs desc path file).1 = desc) ↔
        WalkOk desc fs path file) ∧
    ∀ calls : List (Call ν),
      Run.Always step (fun s => inUse s.desc = s.opens) Files.boot calls ↔
        Run.Guarded step (fun s c => c.WalkOk s) Files.boot calls := by
  refine ⟨vfsOpen_unchanged_iff, ?_⟩
  intro calls
  have hboot : inUse Files.boot.desc = Files.boot.opens := by
    simp [inUse, Files.boot, DescTable.empty]
  refine Run.always_iff_guarded (fun s c s' h hs => inUse_step_iff h hs) (fun s c hs => ?_) hboot
  cases c with
  | closeFile fd => exact trivial
  | openFile fs path file =>
    rw [step] at hs
    split at hs <;> cases hs

/-- A file system without files. -/
def emptyFs : FileSystem Unit where
  root := ()
  lookup _ _ := none
  openOk _ := true

/-- Opening `/A` on it fails, and leaves the first slot reserved. -/
theorem open_missing_leaks :
    ¬ ((∀ (fs : FileSystem Unit) (desc : DescTable) (path : List UInt8) (file : Option ℕ),
        (vfsOpen fs desc path file).2 = none → (vfsOpen fs desc path file).1 = desc) ∧
      ∀ calls : List (Call Unit),
        Run.Always step (fun s => inUse s.desc = s.opens) Files.boot calls) := by
  rintro ⟨h, -⟩
  have hsame := h emptyFs .empty [0x2F, 0x41] (some 0) (by decide +kernel)
  have hslot : (vfsOpen emptyFs .empty [0x2F, 0x41] (some 0)).1 0 = .allocated := by decide +kernel
  rw [hsame] at hslot
  cases hslot

end YakOS.Vfs
