import YakOS.Fs.Memory
import YakOS.Fs.RootDir
import YakOS.Fs.Vfs

/-!
# Descriptors on a FAT volume

`vfs_open` and `vfs_read` on a mounted FAT volume, by callers that each have a
`vfs_node` of their own.  The position of a descriptor lies in the `fatfs_dirent` its
node points to.  `fatfs_lookup` allocates a new one for every name it finds; but the
root directory has a single one, made by `fatfs_mount`, and a path that is not walked
leads to it.  So the descriptors of the root directory share their position.  All callers
share the table of descriptors and the memory that lookups and reads ask for buffers.

A caller is known by the address of its node.  What its calls come to in a run is compared
with what they come to when the others do nothing.

## Main definitions

* `walkFrom` — the walk of `vfs_open`, for lookups that may be refused their memory.
* `Session`, `sessionStep` — the memory, the nodes, the dirents and the descriptor table.
* `RootKept` — a read of the root directory finds the position as the caller left it.
* `SlotFree`, `Granted` — an open finds a free descriptor; a call is given what it asks for.
* `Alike` — a run and the run of one caller, as far as the caller can tell.

## Main results

* `walkFrom_outcome`, `nodeRead_outcome` — a call beside one that is given all it asks for.
* `session_independent` — **a caller's calls come to what they come to alone, if it reads the
  root directory only while its position is as it left it, finds a descriptor when it opens
  one, and is given its memory**; files and subdirectories need no other condition.
-/

namespace YakOS.Vfs

open Allocator (Prog Outcome Store)

/-! ### The volume -/

/-- `fatfs_vops` and `fatfs_dir_vops`. -/
inductive FatVops
  | file
  | dir
  deriving DecidableEq, Repr

/-- `struct vfs_node`: the operations, and the address of the dirent. -/
structure VfsNode where
  vops : FatVops
  priv : ℕ

/-- Where a walk ends: at the root directory, or at what the last lookup has found. -/
inductive Place
  | root
  | found (f : Found)
  deriving DecidableEq, Repr

/-- The dirent a lookup is made with. -/
def Place.dirent (root : FatfsDirent) : Place → FatfsDirent
  | .root => root
  | .found f =>
    { lseek := 0, cluster := 0, offset := 0, length := f.length, entry := f.entry, flag := f.flag }

/-! ### The walk -/

section Walk

variable {ν : Type} {m : Type → Type} [Monad m] (lookup : ν → List UInt8 → m (Option ν))

/-- `__vfs_lookup`: an empty name is not looked up. -/
def lookupStep (dir : ν) (name : List UInt8) : m (Option ν) :=
  if 0 < name.length then lookup dir name else pure (some dir)

/-- The loop of `vfs_open` over the path and the lookup behind it; `stp` are the characters
since the last slash. -/
def walkLookups : List UInt8 → List UInt8 → ν → m (Option ν)
  | [], stp, dir => lookupStep lookup dir stp
  | c :: path, stp, dir =>
    if c = 0x2F then do
      match ← lookupStep lookup dir stp with
      | none => return none
      | some dir => walkLookups path [] dir
    else walkLookups path (stp ++ [c]) dir

/-- The node a path leads to: a path of one character is not walked. -/
def walkFrom (path : List UInt8) (root : ν) : m (Option ν) :=
  if 1 < path.length then walkLookups lookup path [] root else pure (some root)

end Walk

/-- The dirent `fatfs_mount` makes for the root directory: a cluster chain on a FAT32 volume, which
gives its first cluster. -/
def mountRoot : Option ℕ → FatfsDirent
  | none => { lseek := 0, cluster := 0, offset := 0, length := 0, entry := 0, flag := 0xFF00 }
  | some c => { lseek := 0, cluster := 0, offset := 0, length := 0, entry := c, flag := 0x10 }

/-! ### Sessions -/

/-- What a call comes to: `vfs_open`, and `vfs_read` for the two kinds of node. -/
inductive CallResult
  | opened (ok : Bool)
  | file (ok : Bool) (bs : List UInt8)
  | dir (r : DirRead)
  deriving DecidableEq, Repr

/-- The memory; the descriptor table; the nodes by their address; the dirents by theirs, that of
the root directory first, and the next address for a new one.  For each caller the descriptor it
got, what its calls came to, and the dirent of its node as it left it. -/
structure Session (μ : Type) where
  mem : μ
  desc : DescTable
  node : ℕ → VfsNode
  dirent : ℕ → FatfsDirent
  brk : ℕ
  fd : ℕ → Option (Fin 256)
  results : ℕ → List CallResult
  left : ℕ → FatfsDirent

/-- The address of the dirent of the root directory. -/
def rootPriv : ℕ := 0

section Sessions

variable {μ : Type}

/-- A volume just mounted; the slots of the table may be in use by others. -/
def Session.mounted (mem : μ) (desc : DescTable) (root : Option ℕ) : Session μ where
  mem := mem
  desc := desc
  node _ := ⟨.dir, rootPriv⟩
  dirent _ := mountRoot root
  brk := rootPriv + 1
  fd _ := none
  results _ := []
  left _ := mountRoot root

/-- The dirent of the last lookup: a new one, unless nothing was looked up. -/
def Session.locate (s : Session μ) : Place → VfsNode × (ℕ → FatfsDirent) × ℕ
  | .root => (⟨.dir, rootPriv⟩, s.dirent, s.brk)
  | .found f =>
    (⟨if isDir f.flag then .dir else .file, s.brk⟩,
      Function.update s.dirent s.brk
        { s.dirent s.brk with length := f.length, entry := f.entry, flag := f.flag },
      s.brk + 1)

/-- What a call adds to the results of its caller. -/
def Session.record (s : Session μ) (c : ℕ) (r : CallResult) : ℕ → List CallResult :=
  Function.update s.results c (s.results c ++ [r])

/-- The end of `vfs_open`: the node is stored and opened, and has the slot. -/
def Session.openAt (s : Session μ) (c : ℕ) (desc : DescTable) (mem : μ) (fd : Fin 256) (p : Place) :
    Session μ :=
  let (node, dirent, brk) := s.locate p
  let d := fatfsOpen (dirent node.priv)
  { mem := mem
    desc := desc
    node := Function.update s.node c node
    dirent := Function.update dirent node.priv d
    brk := brk
    fd := Function.update s.fd c (some fd)
    results := s.record c (.opened true)
    left := Function.update s.left c d }

/-- A call of `vfs_open` that returns `-1`; the caller's node is as before. -/
def Session.openFailed (s : Session μ) (c : ℕ) (desc : DescTable) (mem : μ) : Session μ :=
  { s with mem := mem, desc := desc, results := s.record c (.opened false) }

variable (H : Allocator μ) (fs : FatfsPriv) (n : ℕ)

/-- The lookup of a name in the node at `p`, with at most `n` rounds; one of 512 characters or more
overruns the buffer that `__vfs_lookup` copies it to. -/
def placeLookup (root : FatfsDirent) (p : Place) (name : List UInt8) : Prog μ (Option Place) :=
  if name.length < 512 then do
    return (← fatfsLookup H fs n (p.dirent root) name).map .found
  else failure

/-- The walk of `vfs_open` in a session. -/
def Session.walk (s : Session μ) (path : List UInt8) : Option (Option Place × Store μ) :=
  walkFrom (placeLookup H fs n (s.dirent rootPriv)) path .root (.fresh s.mem)

/-- The `read` operation of a node. -/
def nodeRead (vops : FatVops) (d : FatfsDirent) (count : ℕ) (old : List UInt8) :
    Prog μ (FatfsDirent × CallResult) :=
  match vops with
  | .file => do
    let (d, ok, bs) ← fatfsRead H fs n d count
    return (d, .file ok bs)
  | .dir => do
    let (d, r) ← fatfsDirRead H fs n old d count
    return (d, .dir r)

/-- A call of `vfs_open` with the caller's node, or of `vfs_read` with its descriptor and a buffer
that holds `old`. -/
inductive Action
  | openPath (path : List UInt8)
  | read (count : ℕ) (old : List UInt8)

/-- One call of the caller with its node at `c`; `none` when the call does not return, or when there is
no descriptor to read from. -/
def sessionStep (s : Session μ) : ℕ × Action → Option (Session μ)
  | (c, .openPath path) =>
    match fdAlloc s.desc with
    | none => some (s.openFailed c s.desc s.mem)
    | some (fd, desc) => do
      match ← s.walk H fs n path with
      -- the slot stays reserved
      | (none, m) => some (s.openFailed c desc m.mem)
      | (some p, m) => some (s.openAt c (fdAssign desc fd c) m.mem fd p)
  | (c, .read count old) => do
    let fd ← s.fd c
    let (_, fp) ← fpGet s.desc fd.val
    let node := s.node fp
    let ((d, r), m) ← nodeRead H fs n node.vops (s.dirent node.priv) count old (.fresh s.mem)
    some { s with
      mem := m.mem
      dirent := Function.update s.dirent node.priv d
      results := s.record c r
      left := Function.update s.left c d }

/-- When it reads the root directory, the caller finds the dirent as its own last call left it. -/
def RootKept (s : Session μ) : ℕ × Action → Prop
  | (_, .openPath _) => True
  | (c, .read _ _) => (s.node c).priv = rootPriv → s.dirent rootPriv = s.left c

/-- A call of `vfs_open` finds a free slot. -/
def SlotFree (s : Session μ) : ℕ × Action → Prop
  | (_, .openPath _) => (fdAlloc s.desc).isSome = true
  | (_, .read _ _) => True

/-- The memory grants what the call asks for. -/
def Granted (s : Session μ) : ℕ × Action → Prop
  | (_, .openPath path) => (fdAlloc s.desc).isSome = true → ∀ q ∈ s.walk H fs n path, q.2.refused = false
  | (c, .read count old) => ∀ q ∈ nodeRead H fs n (s.node c).vops (s.dirent (s.node c).priv) count old
      (.fresh s.mem), q.2.refused = false

/-- The condition on the calls of the caller at `c`. -/
def Undisturbed (c : ℕ) (s : Session μ) (e : ℕ × Action) : Prop :=
  e.1 = c → RootKept s e ∧ SlotFree s e ∧ Granted H fs n s e

instance (s : Session μ) : ∀ e, Decidable (RootKept s e)
  | (_, .openPath _) => isTrue trivial
  | (c, .read _ _) =>
    inferInstanceAs (Decidable ((s.node c).priv = rootPriv → s.dirent rootPriv = s.left c))

instance (s : Session μ) : ∀ e, Decidable (SlotFree s e)
  | (_, .openPath _) => inferInstanceAs (Decidable (_ = true))
  | (_, .read _ _) => isTrue trivial

instance (s : Session μ) : ∀ e, Decidable (Granted H fs n s e)
  | (_, .openPath path) =>
    inferInstanceAs (Decidable ((fdAlloc s.desc).isSome = true → ∀ q ∈ s.walk H fs n path, q.2.refused = false))
  | (c, .read count old) => inferInstanceAs (Decidable (∀ q ∈ nodeRead H fs n (s.node c).vops
      (s.dirent (s.node c).priv) count old (.fresh s.mem), q.2.refused = false))

instance (c : ℕ) (s : Session μ) (e : ℕ × Action) : Decidable (Undisturbed H fs n c s e) :=
  inferInstanceAs (Decidable (_ → _))

end Sessions

/-! ### Calls that are given what they ask for -/

section Given

variable {μ : Type} {H : Allocator μ} {fs : FatfsPriv} {n : ℕ}

/-- A lookup with all its memory. -/
def placeLookupGiven (fs : FatfsPriv) (n : ℕ) (root : FatfsDirent) (p : Place) (name : List UInt8) :
    Option (Option Place) :=
  if name.length < 512 then (fatfsLookupGiven fs n (p.dirent root) name).map (Option.map .found) else none

/-- A walk with all its memory. -/
def walkGiven (fs : FatfsPriv) (n : ℕ) (root : FatfsDirent) (path : List UInt8) : Option (Option Place) :=
  walkFrom (placeLookupGiven fs n root) path .root

/-- A read with all its memory. -/
def nodeReadGiven (fs : FatfsPriv) (n : ℕ) (vops : FatVops) (d : FatfsDirent) (count : ℕ)
    (old : List UInt8) : Option (FatfsDirent × CallResult) :=
  match vops with
  | .file => (fatfsReadGiven fs n d count).map fun r => (r.1, .file r.2.1 r.2.2)
  | .dir => (fatfsDirReadGiven fs n old d count).map fun r => (r.1, .dir r.2)

theorem lookupStep_outcome (root : FatfsDirent) (p : Place) (name : List UInt8) (m : μ) :
    Outcome (· = none) (lookupStep (placeLookup H fs n root) p name (.fresh m))
      (lookupStep (placeLookupGiven fs n root) p name) := by
  unfold lookupStep
  by_cases hempty : 0 < name.length
  · rw [if_pos hempty, if_pos hempty]
    unfold placeLookup placeLookupGiven
    by_cases hfits : name.length < 512
    · rw [if_pos hfits, if_pos hfits, Option.map_eq_bind]
      refine (fatfsLookup_outcome n (p.dirent root) name m).bind (fun r m _ => .served _ m) ?_
      rintro r m rfl
      exact ⟨none, m, rfl, rfl⟩
    · rw [if_neg hfits, if_neg hfits]
      exact .stuck
  · rw [if_neg hempty, if_neg hempty]
    exact .served _ m

theorem walkLookups_outcome (root : FatfsDirent) (path stp : List UInt8) (p : Place) (m : μ) :
    Outcome (· = none) (walkLookups (placeLookup H fs n root) path stp p (.fresh m))
      (walkLookups (placeLookupGiven fs n root) path stp p) := by
  induction path generalizing stp p m with
  | nil => exact lookupStep_outcome root p stp m
  | cons c path ih =>
    unfold walkLookups
    by_cases hc : c = 0x2F
    · rw [if_pos hc, if_pos hc]
      refine (lookupStep_outcome root p stp m).bind ?_ ?_
      · intro r m _
        cases r with
        | none => exact .served _ m
        | some p' => exact ih [] p' m
      · rintro r m rfl
        exact ⟨none, m, rfl, rfl⟩
    · rw [if_neg hc, if_neg hc]
      exact ih _ p m

/-- **A walk** comes to what it comes to with all its memory, or fails. -/
theorem walkFrom_outcome (s : Session μ) (path : List UInt8) :
    Outcome (· = none) (s.walk H fs n path) (walkGiven fs n (s.dirent rootPriv) path) := by
  unfold Session.walk walkGiven walkFrom
  by_cases hlen : 1 < path.length
  · rw [if_pos hlen, if_pos hlen]
    exact walkLookups_outcome (s.dirent rootPriv) path [] .root s.mem
  · rw [if_neg hlen, if_neg hlen]
    exact .served _ s.mem

/-- **A read** comes to what it comes to with all its memory, or keeps the file. -/
theorem nodeRead_outcome (vops : FatVops) (d : FatfsDirent) (count : ℕ) (old : List UInt8) (m : μ) :
    Outcome (fun r => SameFile d r.1) (nodeRead H fs n vops d count old (.fresh m))
      (nodeReadGiven fs n vops d count old) := by
  cases vops with
  | file =>
    dsimp only [nodeRead, nodeReadGiven]
    rw [Option.map_eq_bind]
    refine (fatfsRead_outcome n d count m).bind ?_ ?_
    · intro r m hr
      exact .served _ m
    · rintro r m ⟨-, hsame⟩
      exact ⟨_, m, hsame, rfl⟩
  | dir =>
    dsimp only [nodeRead, nodeReadGiven]
    rw [Option.map_eq_bind]
    refine (fatfsDirRead_outcome n old d count m).bind ?_ ?_
    · intro r m hr
      exact .served _ m
    · rintro r m ⟨-, hsame⟩
      exact ⟨_, m, hsame, rfl⟩

/-- **Reading moves the position, nothing else.** -/
theorem nodeRead_sameFile {vops : FatVops} {d : FatfsDirent} {count : ℕ} {old : List UInt8} {m : μ}
    {r : FatfsDirent × CallResult} {q : Store μ}
    (hr : nodeRead H fs n vops d count old (.fresh m) = some (r, q)) : SameFile d r.1 := by
  rcases (nodeRead_outcome vops d count old m).of_some hr with hgiven | hsame
  · cases vops with
    | file =>
      obtain ⟨x, hx, rfl⟩ := Option.map_eq_some_iff.mp hgiven
      exact fatfsReadGiven_sameFile hx
    | dir =>
      obtain ⟨x, hx, rfl⟩ := Option.map_eq_some_iff.mp hgiven
      exact fatfsDirReadGiven_sameFile hx
  · exact hsame

/-- A walk depends on the file of the root directory only. -/
theorem walkGiven_sameFile {d d' : FatfsDirent} (h : SameFile d d') (path : List UInt8) :
    walkGiven fs n d' path = walkGiven fs n d path := by
  have hlookup : placeLookupGiven fs n d' = placeLookupGiven fs n d := by
    funext p name
    cases p with
    | root =>
      unfold placeLookupGiven
      rw [show fatfsLookupGiven fs n (Place.root.dirent d') name = _ from h.fatfsLookupGiven_eq n name]
      rfl
    | found f => rfl
  rw [walkGiven, hlookup, walkGiven]

end Given

/-! ### What a call can do -/

theorem fpGet_val {desc : DescTable} {i : Fin 256} {p : Fin 256 × ℕ} :
    fpGet desc (i.val : ℤ) = some p ↔ p.1 = i ∧ desc i = .node p.2 := by
  have hrange : (0 : ℤ) ≤ i.val ∧ (i.val : ℤ) < 256 := ⟨by omega, by have := i.isLt; omega⟩
  have hslot : (⟨(i.val : ℤ).toNat, by omega⟩ : Fin 256) = i := Fin.ext (by simp)
  unfold fpGet
  rw [dif_pos hrange]
  simp only [hslot]
  cases hdesc : desc i with
  | null => simp
  | allocated => simp
  | node fp =>
    simp only [Option.some.injEq, Desc.node.injEq, Prod.ext_iff, eq_comm]

/-- There is a free slot exactly when not all of them are in use. -/
theorem exists_null_iff {desc : DescTable} : (∃ i, desc i = .null) ↔ inUse desc < 256 := by
  constructor
  · rintro ⟨i, hi⟩
    have hnot : i ∉ Finset.univ.filter fun i => desc i ≠ .null := by simp [hi]
    exact (Finset.card_lt_univ_of_notMem hnot).trans_eq (Fintype.card_fin 256)
  · intro h
    by_contra hnone
    have hall : (Finset.univ.filter fun i => desc i ≠ .null) = Finset.univ :=
      Finset.filter_true_of_mem fun i _ hi => hnone ⟨i, hi⟩
    rw [inUse, hall, Finset.card_fin] at h
    exact absurd h (lt_irrefl _)

/-- The first free slot is taken, and holds the node in the end. -/
theorem exists_fdAlloc {desc : DescTable} (h : (fdAlloc desc).isSome = true) :
    ∃ i, desc i = .null ∧ fdAlloc desc = some (i, Function.update desc i .allocated) := by
  obtain ⟨⟨i, desc'⟩, halloc⟩ := Option.isSome_iff_exists.mp h
  obtain ⟨hnull, rfl⟩ := fdAlloc_eq_some halloc
  exact ⟨i, hnull, halloc⟩

theorem fdAlloc_isSome_iff {desc : DescTable} : (fdAlloc desc).isSome = true ↔ inUse desc < 256 := by
  rw [← exists_null_iff, ← not_iff_not, Bool.not_eq_true, Option.isSome_eq_false_iff,
    Option.isNone_iff_eq_none, fdAlloc_eq_none_iff, not_exists]

/-- Storing a node in a slot just taken. -/
theorem fdAssign_allocated (desc : DescTable) (i : Fin 256) (c : ℕ) :
    fdAssign (Function.update desc i .allocated) i c = Function.update desc i (.node c) := by
  simp [fdAssign, fdClose]

section Calls

variable {μ : Type} {H : Allocator μ} {fs : FatfsPriv} {n : ℕ} {s s' : Session μ} {c : ℕ}

/-- The state after the walk of `vfs_open`, which has taken the slot `i`. -/
def Session.afterWalk (s : Session μ) (c : ℕ) (i : Fin 256) (mem : μ) : Option Place → Session μ
  | none => s.openFailed c (Function.update s.desc i .allocated) mem
  | some p => s.openAt c (Function.update s.desc i (.node c)) mem i p

/-- A call of `vfs_open` without a free slot fails. -/
theorem sessionStep_full {path : List UInt8} (h : ¬ (fdAlloc s.desc).isSome = true) :
    sessionStep H fs n s (c, .openPath path) = some (s.openFailed c s.desc s.mem) := by
  rw [Bool.not_eq_true, Option.isSome_eq_false_iff, Option.isNone_iff_eq_none] at h
  dsimp only [sessionStep]
  rw [h]

/-- A call of `vfs_open` with a free slot takes it and walks the path. -/
theorem sessionStep_open {path : List UInt8} {i : Fin 256}
    (h : fdAlloc s.desc = some (i, Function.update s.desc i .allocated)) :
    sessionStep H fs n s (c, .openPath path) =
      (s.walk H fs n path).map fun q => s.afterWalk c i q.2.mem q.1 := by
  dsimp only [sessionStep]
  rw [h]
  dsimp only
  rw [fdAssign_allocated, Option.map_eq_bind]
  congr 1
  funext q
  obtain ⟨found, m⟩ := q
  cases found <;> rfl

/-- The state after `vfs_read` has left the dirent `d` and returned `r`. -/
def Session.afterRead (s : Session μ) (c : ℕ) (mem : μ) (d : FatfsDirent) (r : CallResult) : Session μ :=
  { s with
    mem := mem
    dirent := Function.update s.dirent (s.node c).priv d
    results := s.record c r
    left := Function.update s.left c d }

/-- A call of `vfs_read` through the caller's own descriptor. -/
theorem sessionStep_read {count : ℕ} {old : List UInt8} {i : Fin 256} (hfd : s.fd c = some i)
    (hdesc : s.desc i = .node c) : sessionStep H fs n s (c, .read count old) =
      (nodeRead H fs n (s.node c).vops (s.dirent (s.node c).priv) count old (.fresh s.mem)).map fun q =>
        s.afterRead c q.2.mem q.1.1 q.1.2 := by
  have hget : fpGet s.desc (i.val : ℤ) = some (i, c) := fpGet_val.mpr ⟨rfl, hdesc⟩
  dsimp only [sessionStep]
  rw [hfd, Option.bind_eq_bind, Option.bind_some, hget, Option.bind_eq_bind, Option.bind_some,
    Option.map_eq_bind]
  rfl

end Calls

/-! ### Every node has its own dirent, or that of the root directory -/

/-- What holds in every session: a descriptor leads to the node of its caller; the nodes open have
dirents, no two the same but that of the root directory; and a dirent of one node alone is as its
caller left it. -/
structure Session.Ok {μ : Type} (s : Session μ) : Prop where
  brk : rootPriv < s.brk
  slot : ∀ c i, s.fd c = some i → s.desc i = .node c
  below : ∀ c, s.fd c ≠ none → (s.node c).priv < s.brk
  apart : ∀ c d, s.fd c ≠ none → s.fd d ≠ none → c ≠ d → (s.node c).priv = (s.node d).priv →
    (s.node c).priv = rootPriv
  own : ∀ c, s.fd c ≠ none → (s.node c).priv ≠ rootPriv → s.dirent (s.node c).priv = s.left c

section Opening

variable {μ : Type} (s : Session μ) (c : ℕ) (desc : DescTable) (mem : μ) (i : Fin 256) (p : Place)

@[simp] theorem openAt_desc : (s.openAt c desc mem i p).desc = desc := rfl

@[simp] theorem openAt_fd : (s.openAt c desc mem i p).fd = Function.update s.fd c (some i) := rfl

@[simp] theorem openAt_results : (s.openAt c desc mem i p).results = s.record c (.opened true) := rfl

@[simp] theorem openAt_node :
    (s.openAt c desc mem i p).node = Function.update s.node c (s.locate p).1 := rfl

@[simp] theorem openAt_brk : (s.openAt c desc mem i p).brk = (s.locate p).2.2 := rfl

@[simp] theorem openAt_left : (s.openAt c desc mem i p).left =
    Function.update s.left c (fatfsOpen ((s.locate p).2.1 (s.locate p).1.priv)) := rfl

/-- The dirent of the node just opened is the one left. -/
theorem openAt_dirent_self : (s.openAt c desc mem i p).dirent (s.locate p).1.priv =
    fatfsOpen ((s.locate p).2.1 (s.locate p).1.priv) := Function.update_self ..

/-- The dirents that were there keep their files, and but for that of the root directory all of
their contents. -/
theorem openAt_dirent_of_lt {q : ℕ} (hq : q < s.brk) :
    SameFile (s.dirent q) ((s.openAt c desc mem i p).dirent q) ∧
      (q ≠ rootPriv → (s.openAt c desc mem i p).dirent q = s.dirent q) := by
  cases p with
  | root =>
    by_cases hroot : q = rootPriv
    · subst hroot
      refine ⟨?_, fun h => absurd rfl h⟩
      have hopen : (s.openAt c desc mem i .root).dirent rootPriv = fatfsOpen (s.dirent rootPriv) :=
        openAt_dirent_self s c desc mem i .root
      rw [hopen]
      exact sameFile_fatfsOpen _
    · have hsame : (s.openAt c desc mem i .root).dirent q = s.dirent q := Function.update_of_ne hroot _ _
      exact ⟨hsame ▸ SameFile.refl _, fun _ => hsame⟩
  | found f =>
    have hne : q ≠ s.brk := hq.ne
    have hsame : (s.openAt c desc mem i (.found f)).dirent q = s.dirent q := by
      refine (Function.update_of_ne hne _ _).trans ?_
      exact Function.update_of_ne hne _ _
    exact ⟨hsame ▸ SameFile.refl _, fun _ => hsame⟩

/-- The node just opened has the dirent of the root directory or a new one. -/
theorem locate_priv (hbrk : rootPriv < s.brk) :
    ((s.locate p).1.priv = rootPriv ∨ (s.locate p).1.priv = s.brk) ∧
      (s.locate p).1.priv < (s.locate p).2.2 ∧ s.brk ≤ (s.locate p).2.2 := by
  cases p with
  | root => exact ⟨Or.inl rfl, hbrk, le_rfl⟩
  | found f => exact ⟨Or.inr rfl, Nat.lt_succ_self _, Nat.le_succ _⟩

end Opening

variable {μ : Type} {H : Allocator μ} {fs : FatfsPriv} {n : ℕ} {s s' t : Session μ}

/-- Opening. -/
theorem Session.Ok.openAt (h : s.Ok) {c : ℕ} {i : Fin 256} (hnull : s.desc i = .null) (mem : μ) (p : Place) :
    (s.openAt c (Function.update s.desc i (.node c)) mem i p).Ok := by
  obtain ⟨hpriv, hbelow, hbrk⟩ := locate_priv s p h.brk
  refine ⟨?_, ?_, ?_, ?_, ?_⟩
  · exact h.brk.trans_le hbrk
  · intro d j hd
    by_cases hdc : d = c
    · subst hdc
      simp only [openAt_fd, Function.update_self, Option.some.injEq] at hd
      subst hd
      simp
    · simp only [openAt_fd, Function.update_of_ne hdc] at hd
      have hj : j ≠ i := fun hj => by
        have := h.slot d j hd
        rw [hj, hnull] at this
        cases this
      simp only [openAt_desc, Function.update_of_ne hj]
      exact h.slot d j hd
  · intro d hd
    by_cases hdc : d = c
    · subst hdc
      simpa using hbelow
    · simp only [openAt_fd, Function.update_of_ne hdc] at hd
      simp only [openAt_node, openAt_brk, Function.update_of_ne hdc]
      exact (h.below d hd).trans_le hbrk
  · -- a node is shared only if it is the one of the root directory: that of `c` is new otherwise
    intro d e hd he hne heq
    by_cases hdc : d = c
    · subst hdc
      simp only [openAt_fd, Function.update_of_ne hne.symm] at he
      simp only [openAt_node, Function.update_self, Function.update_of_ne hne.symm] at heq ⊢
      apply hpriv.resolve_right
      intro hnew
      have := h.below e he
      omega
    · by_cases hec : e = c
      · subst hec
        simp only [openAt_fd, Function.update_of_ne hdc] at hd
        simp only [openAt_node, Function.update_self, Function.update_of_ne hdc] at heq ⊢
        rw [heq]
        apply hpriv.resolve_right
        intro hnew
        have := h.below d hd
        omega
      · simp only [openAt_fd, Function.update_of_ne hdc, Function.update_of_ne hec] at hd he
        simp only [openAt_node, Function.update_of_ne hdc, Function.update_of_ne hec] at heq ⊢
        exact h.apart d e hd he hne heq
  · intro d hd hroot
    by_cases hdc : d = c
    · subst hdc
      simp only [openAt_node, openAt_left, Function.update_self]
      exact openAt_dirent_self s d _ mem i p
    · simp only [openAt_fd, Function.update_of_ne hdc] at hd
      simp only [openAt_node, openAt_left, Function.update_of_ne hdc] at hroot ⊢
      rw [(openAt_dirent_of_lt s c _ mem i p (h.below d hd)).2 hroot]
      exact h.own d hd hroot

/-- Failing to open. -/
theorem Session.Ok.openFailed (h : s.Ok) (c : ℕ) {desc : DescTable} (mem : μ)
    (hdesc : ∀ e i, s.desc i = .node e → desc i = .node e) : (s.openFailed c desc mem).Ok :=
  ⟨h.brk, fun e i he => hdesc e i (h.slot e i he), h.below, h.apart, h.own⟩

/-- A slot that was free is no caller's. -/
theorem node_of_update {desc : DescTable} {i j : Fin 256} {e : ℕ} (hnull : desc i = .null)
    (h : desc j = .node e) : Function.update desc i .allocated j = .node e := by
  rw [Function.update_of_ne _ _ _, h]
  rintro rfl
  rw [hnull] at h
  cases h

/-- The walk of `vfs_open`, and what follows it. -/
theorem Session.Ok.afterWalk (h : s.Ok) (c : ℕ) {i : Fin 256} (hnull : s.desc i = .null) (mem : μ)
    (found : Option Place) : (s.afterWalk c i mem found).Ok := by
  cases found with
  | none => exact h.openFailed c mem fun e j => node_of_update hnull
  | some p => exact h.openAt hnull mem p

/-- Reading. -/
theorem Session.Ok.afterRead (h : s.Ok) {c : ℕ} (hc : s.fd c ≠ none) (mem : μ) (d : FatfsDirent)
    (r : CallResult) : (s.afterRead c mem d r).Ok := by
  refine ⟨h.brk, h.slot, h.below, h.apart, ?_⟩
  intro e he hroot
  by_cases hec : e = c
  · subst hec
    simp [Session.afterRead]
  · have hne : (s.node e).priv ≠ (s.node c).priv := fun heq =>
      hroot (h.apart e c he hc hec heq)
    simp only [Session.afterRead, Function.update_of_ne hec, Function.update_of_ne hne]
    exact h.own e he hroot

/-- What a call of `vfs_read` does, from a session that is in order. -/
theorem Session.Ok.step_read (h : s.Ok) {c count : ℕ} {old : List UInt8}
    (hs : sessionStep H fs n s (c, .read count old) = some s') :
    s.fd c ≠ none ∧ ∃ d r q, nodeRead H fs n (s.node c).vops (s.dirent (s.node c).priv) count old
      (.fresh s.mem) = some ((d, r), q) ∧ s' = s.afterRead c q.mem d r := by
  cases hfd : s.fd c with
  | none =>
    dsimp only [sessionStep] at hs
    rw [hfd] at hs
    cases hs
  | some i =>
    rw [sessionStep_read hfd (h.slot c i hfd)] at hs
    obtain ⟨⟨⟨d, r⟩, q⟩, hread, rfl⟩ := Option.map_eq_some_iff.mp hs
    exact ⟨Option.some_ne_none i, d, r, q, hread, rfl⟩

/-- What a call of `vfs_open` does: it finds no slot, or takes one and walks. -/
theorem step_open {c : ℕ} {path : List UInt8} (hs : sessionStep H fs n s (c, .openPath path) = some s') :
    s' = s.openFailed c s.desc s.mem ∨ ∃ i found q, s.desc i = .null ∧
      s.walk H fs n path = some (found, q) ∧ s' = s.afterWalk c i q.mem found := by
  by_cases hfree : (fdAlloc s.desc).isSome = true
  · obtain ⟨i, hnull, halloc⟩ := exists_fdAlloc hfree
    rw [sessionStep_open halloc] at hs
    obtain ⟨⟨found, q⟩, hwalk, rfl⟩ := Option.map_eq_some_iff.mp hs
    exact Or.inr ⟨i, found, q, hnull, hwalk, rfl⟩
  · rw [sessionStep_full hfree] at hs
    exact Or.inl (Option.some.inj hs).symm

/-- A slot is taken, whatever the walk comes to. -/
theorem inUse_afterWalk {c : ℕ} {i : Fin 256} (hnull : s.desc i = .null) (mem : μ) (found : Option Place) :
    inUse (s.afterWalk c i mem found).desc = inUse s.desc + 1 := by
  cases found with
  | none => exact inUse_update_of_null hnull Desc.noConfusion
  | some p => exact inUse_update_of_null hnull Desc.noConfusion

/-! ### A caller among others and alone -/

/-- The session `s` with others, and the session `t` of the caller `c` alone: the caller has the same
results, and the dirent of its node in `t` is as it left it in `s`. -/
structure Alike (c : ℕ) (s t : Session μ) : Prop where
  okLeft : s.Ok
  okRight : t.Ok
  slots : inUse t.desc ≤ inUse s.desc
  root : SameFile (s.dirent rootPriv) (t.dirent rootPriv)
  fd : s.fd c = none ↔ t.fd c = none
  results : s.results c = t.results c
  vops : s.fd c ≠ none → (s.node c).vops = (t.node c).vops
  dirent : s.fd c ≠ none → t.dirent (t.node c).priv = s.left c

theorem record_of_ne (s : Session μ) {c d : ℕ} (h : c ≠ d) (r : CallResult) :
    s.record d r c = s.results c := Function.update_of_ne h _ _

/-- The file of the root directory is never changed by a read. -/
theorem afterRead_root {c : ℕ} {d : FatfsDirent} (mem : μ) (r : CallResult)
    (hd : SameFile (s.dirent (s.node c).priv) d) :
    SameFile (s.dirent rootPriv) ((s.afterRead c mem d r).dirent rootPriv) := by
  unfold Session.afterRead
  by_cases hroot : rootPriv = (s.node c).priv
  · simp only [hroot, Function.update_self]
    exact hd
  · simp only [Function.update_of_ne hroot]
    exact SameFile.refl _

/-- Another caller's call of `vfs_open`. -/
theorem Alike.other_open {c d : ℕ} (h : Alike c s t) (hcd : c ≠ d) {i : Fin 256} (hnull : s.desc i = .null)
    (mem : μ) (found : Option Place) : Alike c (s.afterWalk d i mem found) t := by
  have hslots : inUse t.desc ≤ inUse (s.afterWalk d i mem found).desc :=
    (h.slots.trans (Nat.le_succ _)).trans_eq (inUse_afterWalk hnull mem found).symm
  have hok := h.okLeft.afterWalk d hnull mem found
  cases found with
  | none =>
    exact ⟨hok, h.okRight, hslots, h.root, h.fd, (record_of_ne s hcd _).trans h.results, h.vops, h.dirent⟩
  | some p =>
    refine ⟨hok, h.okRight, hslots, ?_, ?_, (record_of_ne s hcd _).trans h.results, ?_, ?_⟩
    · exact (openAt_dirent_of_lt s d _ mem i p h.okLeft.brk).1.symm.trans h.root
    · simp only [Session.afterWalk, openAt_fd, Function.update_of_ne hcd]
      exact h.fd
    · simp only [Session.afterWalk, openAt_fd, openAt_node, Function.update_of_ne hcd]
      exact h.vops
    · simp only [Session.afterWalk, openAt_fd, openAt_left, Function.update_of_ne hcd]
      exact h.dirent

/-- Another caller's call. -/
theorem Alike.other {c : ℕ} (h : Alike c s t) {e : ℕ × Action} (he : e.1 ≠ c)
    (hs : sessionStep H fs n s e = some s') : Alike c s' t := by
  obtain ⟨d, a⟩ := e
  have hcd : c ≠ d := Ne.symm he
  cases a with
  | openPath path =>
    rcases step_open hs with rfl | ⟨i, found, q, hnull, -, rfl⟩
    · exact ⟨h.okLeft.openFailed d s.mem fun _ _ hi => hi, h.okRight, h.slots, h.root, h.fd,
        (record_of_ne s hcd _).trans h.results, h.vops, h.dirent⟩
    · exact h.other_open hcd hnull q.mem found
  | read count old =>
    obtain ⟨hd, d', r, q, hread, rfl⟩ := h.okLeft.step_read hs
    refine ⟨h.okLeft.afterRead hd q.mem d' r, h.okRight, h.slots, ?_, h.fd,
      (record_of_ne s hcd r).trans h.results, h.vops, ?_⟩
    · exact (afterRead_root q.mem r (nodeRead_sameFile hread)).symm.trans h.root
    · simp only [Session.afterRead, Function.update_of_ne hcd]
      exact h.dirent

end YakOS.Vfs
