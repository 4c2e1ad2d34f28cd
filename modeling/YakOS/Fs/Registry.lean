import YakOS.Lib.Bytes
import YakOS.Lib.Run

/-!
# The registry of file systems

`find_filesystem`, `register_filesystem` and `vfs_mount` of `fs/vfsfs.c`.  The search compares as many
characters as the name asked for has, so that it finds every file system whose name begins with that
name.  The assertion of `vfs_mount` asks for the file system or its `mount`, and reads the latter when
there is no file system.

## Main definitions

* `VfsFs`, `registerFilesystem`, `vfsMount` — the code, over the list `fs_root`.
* `RegisterRight`, `MountRight` — what a call is to do.
* `RegisterOk` — the condition under which `register_filesystem` does.

## Main results

* `apart_registered` — the name of a file system that is registered begins none that was registered
  before it.
* `registry_iff` — **the calls of `register_filesystem` are right exactly under the condition, and
  `vfs_mount` is right exactly when a file system of that name is registered.**
-/

namespace YakOS.Vfs

/-- A `struct vfs_fs`: its address, and the characters of `name`. -/
structure VfsFs where
  addr : ℕ
  name : List UInt8
  deriving DecidableEq, Repr

/-! ### The code -/

/-- `find_filesystem`, in the list `fs_root`. -/
def findFilesystem (fsRoot : List VfsFs) (name : List UInt8) : Option VfsFs :=
  fsRoot.find? fun p => Bytes.strncmp p.name name name.length = 0

/-- `register_filesystem`: the list, and what the call returns. -/
def registerFilesystem (fsRoot : List VfsFs) (fs : VfsFs) : List VfsFs × ℤ :=
  if (findFilesystem fsRoot fs.name).isSome then (fsRoot, -1) else (fsRoot ++ [fs], 0)

/-- What a call of `vfs_mount` comes to. -/
inductive MountOutcome
  /-- `fs->mount` is called for this file system. -/
  | mounts (fs : VfsFs)
  | returns (r : ℤ)
  /-- `fs->mount` is read where `fs` is null. -/
  | nullPointer
  deriving DecidableEq, Repr

/-- `vfs_mount`.  The assertion `fs || fs->mount` holds for every file system. -/
def vfsMount (fsRoot : List VfsFs) (name : List UInt8) : MountOutcome :=
  match findFilesystem fsRoot name with
  | some fs => .mounts fs
  | none => .nullPointer

/-- A call of `register_filesystem`, as a step. -/
def registerStep (fsRoot : List VfsFs) (fs : VfsFs) : Option (List VfsFs) :=
  some (registerFilesystem fsRoot fs).1

/-- The list after a sequence of calls. -/
def registered (calls : List VfsFs) : List VfsFs :=
  calls.foldl (fun fsRoot fs => (registerFilesystem fsRoot fs).1) []

/-! ### What it is to do -/

/-- A file system of exactly this name is registered. -/
def HasName (fsRoot : List VfsFs) (name : List UInt8) : Prop := ∃ g ∈ fsRoot, g.name = name

/-- A file system is rejected exactly when one of its name is registered. -/
def RegisterRight (fsRoot : List VfsFs) (fs : VfsFs) : Prop :=
  (registerFilesystem fsRoot fs).2 = -1 ↔ HasName fsRoot fs.name

/-- The file system of the name is used, and the call fails when there is none. -/
structure MountRight (fsRoot : List VfsFs) (name : List UInt8) : Prop where
  found : ∀ g ∈ fsRoot, g.name = name → vfsMount fsRoot name = .mounts g
  missing : ¬ HasName fsRoot name → vfsMount fsRoot name = .returns (-1)

/-- A file system of the name is registered, or none whose name is longer and begins with it. -/
def RegisterOk (fsRoot : List VfsFs) (fs : VfsFs) : Prop :=
  HasName fsRoot fs.name ∨ ∀ g ∈ fsRoot, ¬ fs.name <+: g.name

section Search

variable {fsRoot : List VfsFs} {fs : VfsFs} {name : List UInt8}

/-- The search finds nothing exactly when the name begins no registered one. -/
theorem findFilesystem_eq_none_iff :
    findFilesystem fsRoot name = none ↔ ∀ g ∈ fsRoot, ¬ name <+: g.name := by
  unfold findFilesystem
  rw [List.find?_eq_none]
  simp only [decide_eq_true_eq, Bytes.strncmp_length_eq_zero_iff]

/-- The search finds the first file system whose name begins with the one asked for. -/
theorem findFilesystem_append {before after : List VfsFs} (hfs : name <+: fs.name)
    (hbefore : ∀ g ∈ before, ¬ name <+: g.name) :
    findFilesystem (before ++ fs :: after) name = some fs := by
  have hnone := findFilesystem_eq_none_iff.mpr hbefore
  unfold findFilesystem at hnone ⊢
  rw [List.find?_append, hnone, Option.none_or]
  exact List.find?_cons_of_pos (decide_eq_true (Bytes.strncmp_length_eq_zero_iff _ |>.mpr hfs))

theorem hasName_of_rejected (h : (registerFilesystem fsRoot fs).2 = -1) :
    ∃ g ∈ fsRoot, fs.name <+: g.name := by
  by_contra hnone
  push Not at hnone
  unfold registerFilesystem at h
  rw [findFilesystem_eq_none_iff.mpr hnone] at h
  exact absurd (show (0 : ℤ) = -1 from h) (by decide)

theorem rejected_of_begins {g : VfsFs} (hg : g ∈ fsRoot) (hp : fs.name <+: g.name) :
    registerFilesystem fsRoot fs = (fsRoot, -1) := by
  unfold registerFilesystem
  rw [if_pos]
  rw [Option.isSome_iff_ne_none, ne_eq, findFilesystem_eq_none_iff]
  intro hnone
  exact hnone g hg hp

/-- **One call** is right exactly under the condition. -/
theorem registerRight_iff (fsRoot : List VfsFs) (fs : VfsFs) :
    RegisterRight fsRoot fs ↔ RegisterOk fsRoot fs := by
  unfold RegisterRight RegisterOk
  constructor
  · intro h
    by_cases hname : HasName fsRoot fs.name
    · exact Or.inl hname
    · refine Or.inr ?_
      intro g hg hp
      exact hname (h.mp (congrArg Prod.snd (rejected_of_begins hg hp)))
  · rintro (hname | hnone)
    · obtain ⟨g, hg, hgname⟩ := hname
      refine iff_of_true ?_ ⟨g, hg, hgname⟩
      exact congrArg Prod.snd (rejected_of_begins hg (hgname ▸ List.prefix_rfl))
    · refine iff_of_false ?_ ?_
      · intro hrej
        obtain ⟨g, hg, hp⟩ := hasName_of_rejected hrej
        exact hnone g hg hp
      · rintro ⟨g, hg, hgname⟩
        exact hnone g hg (hgname ▸ List.prefix_rfl)

end Search

/-! ### The registry -/

/-- The name of a later file system does not begin that of an earlier one. -/
def Apart (fsRoot : List VfsFs) : Prop := fsRoot.Pairwise fun g h => ¬ h.name <+: g.name

/-- A call keeps the names apart. -/
theorem apart_registerFilesystem {fsRoot : List VfsFs} (h : Apart fsRoot) (fs : VfsFs) :
    Apart (registerFilesystem fsRoot fs).1 := by
  unfold registerFilesystem
  by_cases hfind : (findFilesystem fsRoot fs.name).isSome = true
  · rw [if_pos hfind]
    exact h
  · rw [if_neg hfind]
    have hnone := findFilesystem_eq_none_iff.mp (Option.not_isSome_iff_eq_none.mp hfind)
    refine List.pairwise_append.mpr ⟨h, List.pairwise_singleton _ _, ?_⟩
    intro g hg k hk
    rw [List.mem_singleton.mp hk]
    exact hnone g hg

/-- **The registry** after any sequence of calls. -/
theorem apart_registered (calls : List VfsFs) : Apart (registered calls) := by
  unfold registered
  have hrun : ∀ fsRoot, Apart fsRoot →
      Apart (calls.foldl (fun fsRoot fs => (registerFilesystem fsRoot fs).1) fsRoot) := by
    induction calls with
    | nil => exact fun _ h => h
    | cons fs calls ih => exact fun fsRoot h => ih _ (apart_registerFilesystem h fs)
  exact hrun [] List.Pairwise.nil

/-- **A mount** is right exactly when a file system of that name is registered. -/
theorem mountRight_iff {fsRoot : List VfsFs} (h : Apart fsRoot) (name : List UInt8) :
    MountRight fsRoot name ↔ HasName fsRoot name := by
  constructor
  · intro hright
    by_contra hnone
    have hret := hright.missing hnone
    unfold vfsMount at hret
    split at hret <;> cases hret
  · rintro hname
    refine ⟨?_, fun hnone => absurd hname hnone⟩
    rintro g hg rfl
    obtain ⟨before, after, rfl⟩ := List.append_of_mem hg
    have hbefore : ∀ k ∈ before, ¬ g.name <+: k.name := fun k hk =>
      (List.pairwise_append.mp h).2.2 k hk g List.mem_cons_self
    unfold vfsMount
    rw [findFilesystem_append List.prefix_rfl hbefore]

/-- **The registry of file systems.**  In every sequence of calls, `register_filesystem` is right
exactly where a file system of the name, or none whose name begins with it, is registered; and after
every sequence `vfs_mount` is right for exactly the names of the registered file systems. -/
theorem registry_iff (calls : List VfsFs) (name : List UInt8) :
    (Run.Guarded registerStep RegisterRight [] calls ↔ Run.Guarded registerStep RegisterOk [] calls) ∧
      (MountRight (registered calls) name ↔ HasName (registered calls) name) :=
  ⟨Run.guarded_congr (I := fun _ => True) (fun _ _ _ _ _ _ => trivial)
    (fun fsRoot fs _ => registerRight_iff fsRoot fs) trivial, mountRight_iff (apart_registered calls) name⟩

/-- After `FAT32`, `FAT` is rejected, and a mount of `FAT` uses `FAT32`. -/
theorem fat_rejected : ¬ ∀ (calls : List VfsFs) (name : List UInt8),
    Run.Guarded registerStep RegisterRight [] calls ∧ MountRight (registered calls) name := by
  intro h
  have hright := ((h [⟨0, Bytes.chars "FAT32"⟩, ⟨1, Bytes.chars "FAT"⟩] []).1.2 _ rfl).1
  have hname := hright.mp (by decide)
  obtain ⟨g, hg, hgname⟩ := hname
  have hmem : g ∈ [(⟨0, Bytes.chars "FAT32"⟩ : VfsFs)] := hg
  rw [List.mem_singleton.mp hmem] at hgname
  revert hgname
  decide

end YakOS.Vfs
