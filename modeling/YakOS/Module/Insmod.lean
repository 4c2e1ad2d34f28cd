import YakOS.Lib.Run
import YakOS.Module.Elf

/-!
# The list of loaded modules

`insmod` allocates a module, which links it into `k_module_root`, and only then
allocates the file buffer, opens, reads and closes the file and loads the image; the
module gets its `entry` when the loader has found the symbol `mod_entry`.  `rmmod`
walks the list comparing the names of the entries, and unlinks and frees the module
it finds.  None of the error paths of `insmod` behind the allocation takes the
module off the list again, and the return value of `load_kmodule` is ignored.

The list is kept in link order, with each module under an identity of its own: a
module is linked when it is allocated and unlinked when it is freed, and never
otherwise.

## Main definitions

* `loadKmodule` — the stages of `_load_module`.
* `doCommandInsmod`, `doCommandRmmod` — the two commands of the shell.
* `Registered` — the list holds exactly the loaded modules, and no entry is missing.

## Main results

* `command_registered_iff` — one command.
* `module_list_iff` — **the list is right after every command exactly when no `insmod`
  fails after it has allocated its module.**
-/

namespace YakOS.Module

open Bytes (strcmp)

/-! ### The module list -/

/-- `struct module_entry`, as far as `find_module_by_name` reads it. -/
structure ModuleEntry where
  name : List UInt8
  deriving DecidableEq, Repr

/-- A module on `k_module_root`; `entry` is `NULL` from `alloc_kmodule` on. -/
structure Kmod where
  id : ℕ
  entry : Option ModuleEntry
  deriving DecidableEq, Repr

/-- What the shell commands work on. -/
structure Shell where
  /-- `k_module_root`, in link order. -/
  modules : List Kmod
  /-- The identity of the next block that `kmalloc` hands out. -/
  next : ℕ
  /-- A missing entry was dereferenced; what happens then is not modelled. -/
  fault : Bool
  /-- Not in the source: the modules loaded successfully and not yet removed. -/
  loaded : List ℕ
  deriving DecidableEq, Repr

/-- The shell after boot. -/
def Shell.boot : Shell := ⟨[], 0, false, []⟩

/-- `find_module_by_name`; `none` when it dereferences a missing entry. -/
def findModuleByName : List Kmod → List UInt8 → Option (Option Kmod)
  | [], _ => some none
  | kmod :: rest, name =>
      match kmod.entry with
      | none => none
      | some entry => if strcmp entry.name name = 0 then some (some kmod) else findModuleByName rest name

/-- The unlinking of `free_kmodule`. -/
def freeKmodule (modules : List Kmod) (kmod : Kmod) : List Kmod :=
  modules.eraseP fun m => m.id == kmod.id

/-! ### Loading -/

/-- What the stages of `_load_module` come to. -/
structure LoadStages where
  /-- The error of `get_elf_info`, if any. -/
  elfInfo : Option ModuleError
  /-- The error of `relocate_segment`, if any. -/
  relocate : Option ModuleError
  /-- The address that `find_local_symbol` finds for `mod_entry`, unless it is `NULL`. -/
  modEntry : Option ModuleEntry
  deriving DecidableEq, Repr

/-- `load_kmodule`: the entry is set when every stage succeeds. -/
def loadKmodule (stages : LoadStages) : Except ModuleError ModuleEntry :=
  match stages.elfInfo with
  | some e => .error e
  | none =>
      match stages.relocate with
      | some e => .error e
      | none =>
          match stages.modEntry with
          | some entry => .ok entry
          | none => .error .noStartpoint

/-! ### The commands -/

/-- How the calls that `insmod` makes turn out. -/
structure Insmod where
  /-- The argument is not `NULL`. -/
  path : Bool
  /-- `kmalloc` in `alloc_kmodule` succeeds. -/
  kmodule : Bool
  /-- `kmalloc` of the file buffer succeeds. -/
  fileBuf : Bool
  /-- `vfs_open` succeeds. -/
  opened : Bool
  /-- The results of the calls of `vfs_read`: an error, or the number of bytes. -/
  reads : List (Option ℕ)
  /-- `vfs_close` succeeds. -/
  closed : Bool
  /-- What the stages of `load_kmodule` do with the given number of bytes read. -/
  load : ℕ → LoadStages

/-- The loop of `insmod` around `vfs_read`: the number of bytes read until an error or the
end of the file. -/
def readAll : List (Option ℕ) → ℕ
  | [] => 0
  | none :: _ => 0
  | some 0 :: _ => 0
  | some (count + 1) :: rest => count + 1 + readAll rest

/-- The commands of the shell. -/
inductive Command where
  | insmod (e : Insmod)
  | rmmod (name : Option (List UInt8))

/-- `do_command_insmod`, with the value it returns. -/
def doCommandInsmod (s : Shell) (e : Insmod) : Shell × ℤ :=
  if !e.path then (s, -1)
  else if !e.kmodule then (s, -1)
  else
    -- `alloc_kmodule` links the module
    let linked := { s with modules := s.modules ++ [⟨s.next, none⟩], next := s.next + 1 }
    if !e.fileBuf then (linked, -1)
    else if !e.opened then (linked, -1)
    else
      let count := readAll e.reads
      if !e.closed then (linked, -1)
      else
        match loadKmodule (e.load count) with
        | .ok entry =>
            ({ linked with
                modules := s.modules ++ [⟨s.next, some entry⟩]
                loaded := s.loaded ++ [s.next] }, 0)
        -- the error is ignored, and `mod->entry->syms[0]` is read
        | .error _ => ({ linked with fault := true }, 0)

/-- `do_command_rmmod`, with the value it returns. -/
def doCommandRmmod (s : Shell) (name : Option (List UInt8)) : Shell × ℤ :=
  match name with
  | none => (s, -1)
  | some name =>
      match findModuleByName s.modules name with
      | none => ({ s with fault := true }, -1)
      | some none => (s, -1)
      | some (some kmod) =>
          ({ s with modules := freeKmodule s.modules kmod, loaded := s.loaded.erase kmod.id }, 0)

/-- One command; after a fault nothing is said any more. -/
def step (s : Shell) (c : Command) : Option Shell :=
  if s.fault then some s
  else
    match c with
    | .insmod e => some (doCommandInsmod s e).1
    | .rmmod name => some (doCommandRmmod s name).1

/-! ### The invariant -/

/-- The list holds exactly the modules that were loaded successfully and not yet removed, each
of them has an entry, and no missing entry was dereferenced. -/
structure Registered (s : Shell) : Prop where
  entry : ∀ kmod ∈ s.modules, kmod.entry ≠ none
  exact : s.modules.map Kmod.id = s.loaded
  safe : s.fault = false

/-- An `insmod` that allocates its module goes on to load it. -/
def Insmod.Completes (e : Insmod) : Prop :=
  e.path = true → e.kmodule = true →
    e.fileBuf = true ∧ e.opened = true ∧ e.closed = true ∧
      (loadKmodule (e.load (readAll e.reads))).isOk = true

/-- The condition on a command: `rmmod` has none. -/
def Command.Completes : Command → Prop
  | .insmod e => e.Completes
  | .rmmod _ => True

/-- With an entry in every module of the list, the walk of `find_module_by_name` ends. -/
theorem findModuleByName_ne_none {modules : List Kmod} (h : ∀ kmod ∈ modules, kmod.entry ≠ none)
    (name : List UInt8) : findModuleByName modules name ≠ none := by
  induction modules with
  | nil => exact Option.some_ne_none none
  | cons kmod rest ih =>
    rw [findModuleByName]
    cases hentry : kmod.entry with
    | none => exact absurd hentry (h kmod List.mem_cons_self)
    | some entry =>
      simp only
      split
      · exact Option.some_ne_none _
      · exact ih fun m hm => h m (List.mem_cons_of_mem _ hm)

/-- Freeing a module takes its identity off the list. -/
theorem map_id_freeKmodule (modules : List Kmod) (kmod : Kmod) :
    (freeKmodule modules kmod).map Kmod.id = (modules.map Kmod.id).erase kmod.id := by
  rw [freeKmodule, List.erase_eq_eraseP', List.eraseP_map]
  rfl

/-- A module that is linked and has no entry is in the way. -/
theorem not_registered_of_linked {s : Shell} {modules : List Kmod} {id : ℕ}
    (h : s.modules = modules ++ [⟨id, none⟩]) : ¬ Registered s := fun hs =>
  hs.entry ⟨id, none⟩ (by rw [h]; simp) rfl

/-- One `insmod`. -/
theorem insmod_registered_iff {s : Shell} (h : Registered s) (e : Insmod) :
    Registered (doCommandInsmod s e).1 ↔ e.Completes := by
  rw [doCommandInsmod, Insmod.Completes]
  cases e.path with
  | false => simpa using h
  | true =>
    cases e.kmodule with
    | false => simpa using h
    | true =>
      cases e.fileBuf with
      | false => simpa using not_registered_of_linked rfl
      | true =>
        cases e.opened with
        | false => simpa using not_registered_of_linked rfl
        | true =>
          cases e.closed with
          | false => simpa using not_registered_of_linked rfl
          | true =>
            cases hload : loadKmodule (e.load (readAll e.reads)) with
            | error err => simpa [hload, Except.isOk, Except.toBool] using not_registered_of_linked rfl
            | ok entry =>
              simp only [hload, Except.isOk, Except.toBool, Bool.not_true, Bool.false_eq_true,
                if_false, and_self, imp_self, iff_true]
              refine ⟨?_, ?_, h.safe⟩
              · intro kmod hkmod
                rcases List.mem_append.mp hkmod with hold | hnew
                · exact h.entry kmod hold
                · rw [List.mem_singleton.mp hnew]
                  exact Option.some_ne_none entry
              · simp [h.exact]

/-- One `rmmod`: it never meets a missing entry. -/
theorem rmmod_registered {s : Shell} (h : Registered s) (name : Option (List UInt8)) :
    Registered (doCommandRmmod s name).1 := by
  cases name with
  | none => exact h
  | some name =>
    rw [doCommandRmmod]
    cases hfind : findModuleByName s.modules name with
    | none => exact absurd hfind (findModuleByName_ne_none h.entry name)
    | some found =>
      cases found with
      | none => exact h
      | some kmod =>
        refine ⟨fun m hm => h.entry m (List.mem_of_mem_eraseP hm), ?_, h.safe⟩
        show (freeKmodule s.modules kmod).map Kmod.id = s.loaded.erase kmod.id
        rw [map_id_freeKmodule, h.exact]

/-- **One command** keeps the list right exactly when it completes what it begins. -/
theorem command_registered_iff {s s' : Shell} {c : Command} (h : Registered s)
    (hs : step s c = some s') : Registered s' ↔ c.Completes := by
  rw [step.eq_def, if_neg (by simp [h.safe])] at hs
  cases c with
  | insmod e =>
    rw [← Option.some.inj hs]
    exact insmod_registered_iff h e
  | rmmod name =>
    rw [← Option.some.inj hs]
    exact iff_of_true (rmmod_registered h name) trivial

theorem step_ne_none (s : Shell) (c : Command) : step s c ≠ none := by
  rw [step.eq_def]
  split
  · exact Option.some_ne_none s
  · cases c <;> exact Option.some_ne_none _

/-- **The module list is right after every command exactly when every `insmod` that allocates its
module goes on to load it.** -/
theorem module_list_iff (cs : List Command) :
    Run.Always step Registered Shell.boot cs ↔ ∀ c ∈ cs, c.Completes := by
  have hboot : Registered Shell.boot := ⟨fun _ hm => absurd hm List.not_mem_nil, rfl, rfl⟩
  rw [Run.always_iff_guarded (C := fun _ c => c.Completes)
    (fun s c s' h hs => command_registered_iff h hs) (fun s c hs => absurd hs (step_ne_none s c)) hboot]
  exact Run.guarded_iff_forall step_ne_none Shell.boot cs

/-- `insmod` of a file that `vfs_open` does not find. -/
def missingFile : Insmod where
  path := true
  kmodule := true
  fileBuf := true
  opened := false
  reads := []
  closed := true
  load _ := ⟨none, none, none⟩

/-- After an `insmod` of a missing file, `rmmod` dereferences a missing entry. -/
theorem insmod_missing_file :
    ¬ ∀ cs : List Command, Run.Always step Registered Shell.boot cs := by
  intro h
  have hrun := (h [.insmod missingFile, .rmmod (some [97])]).exec
    (t := ⟨[⟨0, none⟩], 1, true, []⟩) (by decide)
  exact absurd hrun.safe (by decide)

end YakOS.Module
