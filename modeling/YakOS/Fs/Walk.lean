import Mathlib.Data.List.Basic
import YakOS.Fs.Closing
import YakOS.Lib.Bytes

/-!
# Walking a path

The walk of `vfs_open` from the root to a node, one lookup for each component of the path.  A path of
one character is not walked: the test for the root directory looks at the second character alone.

## Main definitions

* `pathComponents`, `lookupName` — the components of a path, and a lookup of one of them.
* `OpensRight` — what `vfs_open` is to do with a path.
* `PathOk` — the condition under which it does.

## Main results

* `walk_eq` — the loop folds the lookup over the components.
* `vfsOpen_refines`, `vfsClose_refines` — on the table the calls do what the model without nodes says.
* `open_path_iff` — **a path is opened as it has to be exactly when the condition holds.**
-/

namespace YakOS.Vfs.Nodes

open VfsState

/-- The non-empty components of a path. -/
def pathComponents (path : List UInt8) : List (List UInt8) := (path.splitOn 0x2F).filter (· ≠ [])

/-- The lookup of a name in a directory. -/
def lookupName (ops : ℕ → OpVector) (dir : VfsNode) (name : List UInt8) : Option VfsNode :=
  (ops dir.vops).lookup dir.priv name

section Loop

variable {ops : ℕ → OpVector} {s : VfsState} {path : List UInt8}

/-- One lookup, of a name that fits the buffer: nothing happens with an empty one. -/
theorem vfsLookup_eq (ops : ℕ → OpVector) (dir : VfsNode) {stp : List UInt8} (h : stp.length < 512) :
    VfsState.vfsLookup ops dir stp = some (([stp].filter (· ≠ [])).foldlM (lookupName ops) dir) := by
  unfold VfsState.vfsLookup
  cases stp with
  | nil => rfl
  | cons c stp =>
    rw [if_pos (by simp), if_pos h, List.filter_cons_of_pos (by simp), List.filter_nil, List.foldlM_cons]
    simp only [List.foldlM_nil, bind_pure]
    rfl

theorem modifyHead_nil_append (l : List (List UInt8)) : l.modifyHead ([] ++ ·) = l := by
  cases l <;> rfl

/-- **The loop** looks up the components one after the other, the first one with the characters read
before. -/
theorem walk_eq (path stp : List UInt8) (dir : VfsNode)
    (h : ∀ name ∈ (path.splitOn 0x2F).modifyHead (stp ++ ·), name.length < 512) :
    walk ops path stp dir = some ((((path.splitOn 0x2F).modifyHead (stp ++ ·)).filter (· ≠ [])).foldlM
      (lookupName ops) dir) := by
  induction path generalizing stp dir with
  | nil =>
    have hlen : stp.length < 512 := by simpa using h
    rw [walk, vfsLookup_eq ops dir hlen]
    simp
  | cons c path ih =>
    rw [List.splitOn_cons_eq_if_modifyHead] at h ⊢
    unfold walk
    by_cases hc : c = 0x2F
    · -- the component ends here
      rw [if_pos (beq_iff_eq.mpr hc), List.modifyHead_cons, List.append_nil] at h ⊢
      have hsplit : stp :: path.splitOn 0x2F = [stp] ++ path.splitOn 0x2F := rfl
      rw [if_pos hc, vfsLookup_eq ops dir (h stp List.mem_cons_self), hsplit, List.filter_append,
        List.foldlM_append]
      cases ([stp].filter (· ≠ [])).foldlM (lookupName ops) dir with
      | none => rfl
      | some dir' =>
        have hrest := ih [] dir'
        rw [modifyHead_nil_append] at hrest
        exact hrest fun name hname => h name (List.mem_cons_of_mem _ hname)
    · have hne : ¬ (c == 0x2F) = true := by simpa using hc
      rw [if_neg hne, List.modifyHead_modifyHead] at h ⊢
      rw [if_neg hc]
      have hfun : (fun name => stp ++ name) ∘ List.cons c = fun name => (stp ++ [c]) ++ name := by
        funext name
        simp
      rw [hfun] at h ⊢
      exact ih (stp ++ [c]) dir h

/-- When the components fit the buffer, so does every name of the path. -/
theorem length_lt_of_components (h : ∀ name ∈ pathComponents path, name.length < 512) :
    ∀ name ∈ (path.splitOn 0x2F).modifyHead ([] ++ ·), name.length < 512 := by
  intro name hname
  rw [modifyHead_nil_append] at hname
  by_cases hnil : name = []
  · rw [hnil]
    decide
  · exact h name (List.mem_filter.mpr ⟨hname, by simpa using hnil⟩)

/-- The node a path of two or more characters leads to. -/
theorem resolve_eq (ops : ℕ → OpVector) (s : VfsState) (hlen : 1 < path.length)
    (h : ∀ name ∈ pathComponents path, name.length < 512) :
    s.resolve ops path = some ((pathComponents path).foldlM (lookupName ops) s.vfsroot) := by
  unfold VfsState.resolve
  rw [if_pos hlen, walk_eq path [] s.vfsroot (length_lt_of_components h), modifyHead_nil_append]
  rfl

end Loop

/-! ### What a path leads to -/

/-- The node is stored and opened: the caller gets the first free slot of the table, or `-1` when the
node cannot be opened. -/
structure Opens (ops : ℕ → OpVector) (s : VfsState) (fp : ℕ) (dir : VfsNode)
    (r : VfsState × Option ℤ) : Prop where
  node : r.1.node = Function.update s.node fp dir
  opened : (ops dir.vops).openNode dir.priv = 0 →
    ∃ fd, s.FirstNull fd ∧ r.2 = some fd ∧ r.1.desc fd = .node fp
  failed : (ops dir.vops).openNode dir.priv ≠ 0 → r.2 = some (-1)

/-- `vfs_open` opens the node that the fold of the lookup over the components leads to, if the caller
has a node and there is a free slot; when a lookup fails it returns `-1`. -/
structure OpensRight (ops : ℕ → OpVector) (s : VfsState) (path : List UInt8) (file : Option ℕ) :
    Prop where
  found : ∀ dir, (pathComponents path).foldlM (lookupName ops) s.vfsroot = some dir →
    ∀ fp, file = some fp → (∃ fd, s.FirstNull fd) → Opens ops s fp dir (s.vfsOpen ops path file)
  missing : (pathComponents path).foldlM (lookupName ops) s.vfsroot = none →
    (s.vfsOpen ops path file).2 = some (-1)

/-- The path is the root, or has more than one character, or a call with it returns before the walk; or
the one component is the root itself, or is missing where the root cannot be opened. -/
def PathOk (ops : ℕ → OpVector) (s : VfsState) (path : List UInt8) (file : Option ℕ) : Prop :=
  path.length ≠ 1 ∨ path = [0x2F] ∨ file = none ∨ (∀ fd, ¬ s.FirstNull fd) ∨
    lookupName ops s.vfsroot path = some s.vfsroot ∨
    lookupName ops s.vfsroot path = none ∧ (ops s.vfsroot.vops).openNode s.vfsroot.priv ≠ 0

section Opening

variable {ops : ℕ → OpVector} {s : VfsState} {path : List UInt8} {file : Option ℕ} {dir : VfsNode}

theorem FirstNull.unique {fd fd' : ℤ} (h : s.FirstNull fd) (h' : s.FirstNull fd') : fd = fd' := by
  rcases lt_trichotomy fd fd' with hlt | heq | hlt
  · exact absurd h.null (h'.first fd h.nonneg hlt)
  · exact heq
  · exact absurd h'.null (h.first fd' h'.nonneg hlt)

/-- A call without a node or without a free slot returns `-1`. -/
theorem vfsOpen_early (h : file = none ∨ ∀ fd, ¬ s.FirstNull fd) :
    (s.vfsOpen ops path file).2 = some (-1) := by
  rcases s.vfsOpen_cases ops path file with ⟨-, acc, heq⟩ | ⟨fp, fd, hfile, hfirst, -⟩
  · rw [heq]
  · rcases h with h | h
    · rw [h] at hfile
      cases hfile
    · exact absurd hfirst (h fd)

/-- A call with a node and a free slot whose walk ends at `dir` opens that. -/
theorem opens_of_resolve (fp : ℕ) {fd : ℤ} (hfirst : s.FirstNull fd)
    (h : s.resolve ops path = some (some dir)) :
    Opens ops s fp dir (s.vfsOpen ops path (some fp)) := by
  rcases s.vfsOpen_cases ops path (some fp) with ⟨hearly, -⟩ | ⟨fp', fd', hfile, hfirst',
    ⟨hwalk, -⟩ | ⟨hwalk, -⟩ | ⟨dir', hwalk, hopen⟩⟩
  · rcases hearly with hnone | hfull
    · cases hnone
    · exact absurd hfirst.null (hfull fd hfirst.nonneg hfirst.lt)
  · rw [hwalk] at h
    cases h
  · rw [hwalk] at h
    cases h
  · obtain rfl := Option.some.inj hfile
    obtain rfl : dir' = dir := Option.some.inj (Option.some.inj (hwalk.symm.trans h))
    rcases hopen with ⟨hne, acc, heq⟩ | ⟨hzero, acc, heq⟩
    · rw [heq]
      exact ⟨rfl, fun hzero => absurd hzero hne, fun _ => rfl⟩
    · rw [heq]
      exact ⟨rfl, fun _ => ⟨fd', hfirst', rfl, Function.update_self ..⟩, fun hne => absurd hzero hne⟩

/-- A call whose walk fails returns `-1`. -/
theorem vfsOpen_of_missing (h : s.resolve ops path = some none) :
    (s.vfsOpen ops path file).2 = some (-1) := by
  rcases s.vfsOpen_cases ops path file with ⟨-, acc, heq⟩ | ⟨fp, fd, -, -, ⟨hwalk, -⟩ |
    ⟨-, acc, heq⟩ | ⟨dir, hwalk, -⟩⟩
  · rw [heq]
  · rw [hwalk] at h
    cases h
  · rw [heq]
  · rw [hwalk] at h
    cases h

/-- A call is right when its walk comes to what the fold comes to. -/
theorem opensRight_of_resolve
    (h : s.resolve ops path = some ((pathComponents path).foldlM (lookupName ops) s.vfsroot)) :
    OpensRight ops s path file := by
  constructor
  · rintro dir hfold fp rfl ⟨fd, hfirst⟩
    exact opens_of_resolve _ hfirst (h.trans (congrArg some hfold))
  · intro hfold
    exact vfsOpen_of_missing (h.trans (congrArg some hfold))

/-- A path of one character other than the slash has one component. -/
theorem foldlM_single {c : UInt8} (hc : c ≠ 0x2F) :
    (pathComponents [c]).foldlM (lookupName ops) s.vfsroot = lookupName ops s.vfsroot [c] := by
  have hcomp : pathComponents [c] = [[c]] := by
    unfold pathComponents
    rw [List.splitOn_eq_singleton (by simpa using Ne.symm hc)]
    rfl
  rw [hcomp, List.foldlM_cons]
  simp only [List.foldlM_nil, bind_pure]

/-- A path of one character opens the root. -/
theorem resolve_single (ops : ℕ → OpVector) (s : VfsState) (c : UInt8) :
    s.resolve ops [c] = some (some s.vfsroot) := rfl

/-- **A path of one character** that is not the slash. -/
theorem opensRight_single {c : UInt8} (hc : c ≠ 0x2F) :
    OpensRight ops s [c] file ↔ file = none ∨ (∀ fd, ¬ s.FirstNull fd) ∨
      lookupName ops s.vfsroot [c] = some s.vfsroot ∨
      lookupName ops s.vfsroot [c] = none ∧ (ops s.vfsroot.vops).openNode s.vfsroot.priv ≠ 0 := by
  constructor
  · intro h
    by_contra hnot
    push Not at hnot
    obtain ⟨hfile, ⟨fd, hfirst⟩, hroot, hmissing⟩ := hnot
    obtain ⟨fp, rfl⟩ := Option.ne_none_iff_exists'.mp hfile
    have hopens := opens_of_resolve fp hfirst (resolve_single ops s c)
    cases hlookup : lookupName ops s.vfsroot [c] with
    | none =>
      obtain ⟨fd', hfirst', hret, -⟩ := hopens.opened (hmissing hlookup)
      have hneg := h.missing ((foldlM_single hc).trans hlookup)
      rw [hret] at hneg
      exact absurd hfirst'.nonneg (by rw [Option.some.inj hneg]; decide)
    | some dir =>
      -- the root is stored in place of the node
      have hright := h.found dir ((foldlM_single hc).trans hlookup) fp rfl ⟨fd, hfirst⟩
      have hnode := congrFun (hopens.node.symm.trans hright.node) fp
      rw [Function.update_self, Function.update_self] at hnode
      exact hroot (by rw [hlookup, hnode])
  · intro h
    by_cases hearly : file = none ∨ ∀ fd, ¬ s.FirstNull fd
    · refine ⟨fun dir _ fp hfile hfree => ?_, fun _ => vfsOpen_early hearly⟩
      rcases hearly with hnone | hfull
      · rw [hnone] at hfile
        cases hfile
      · exact absurd hfree (not_exists.mpr hfull)
    · rw [← or_assoc, or_iff_right hearly] at h
      rcases h with hroot | ⟨hnone, hopen⟩
      · refine opensRight_of_resolve ?_
        rw [foldlM_single hc, hroot]
        rfl
      · refine ⟨fun dir hfold => ?_, fun _ => ?_⟩
        · rw [foldlM_single hc, hnone] at hfold
          cases hfold
        · push Not at hearly
          obtain ⟨hfile, fd, hfirst⟩ := hearly
          obtain ⟨fp, rfl⟩ := Option.ne_none_iff_exists'.mp hfile
          exact (opens_of_resolve _ hfirst (resolve_single ops s c)).failed hopen

/-- **Opening a path.**  For every file system and every path that is not empty and whose components fit
the buffer of a name, `vfs_open` does what it has to exactly when the condition holds. -/
theorem open_path_iff (ops : ℕ → OpVector) (s : VfsState) (path : List UInt8) (file : Option ℕ)
    (hpath : path ≠ []) (hnames : ∀ name ∈ pathComponents path, name.length < 512) :
    OpensRight ops s path file ↔ PathOk ops s path file := by
  unfold PathOk
  by_cases hone : path.length = 1
  · rw [or_iff_right (not_not_intro hone)]
    obtain ⟨c, rfl⟩ := List.length_eq_one_iff.mp hone
    by_cases hc : c = 0x2F
    · subst hc
      exact iff_of_true (opensRight_of_resolve (resolve_single ops s 0x2F)) (Or.inl rfl)
    · rw [or_iff_right (by simpa using hc)]
      exact opensRight_single hc
  · have hlen : 1 < path.length := by
      have := List.length_pos_iff.mpr hpath
      omega
    exact iff_of_true (opensRight_of_resolve (resolve_eq ops s hlen hnames)) (Or.inl hone)

end Opening

/-! ### The model without nodes -/

/-- The elements of `desc`. -/
def table (s : VfsState) : DescTable := fun fd => s.desc (fd.val : ℤ)

/-- The mounted file system, by its lookups and opens. -/
def mountedFs (ops : ℕ → OpVector) (s : VfsState) : FileSystem VfsNode where
  root := s.vfsroot
  lookup := lookupName ops
  openOk dir := (ops dir.vops).openNode dir.priv = 0

section Refinement

variable {ops : ℕ → OpVector} {s s' : VfsState} {path : List UInt8} {file : Option ℕ} {fd : ℤ}

theorem vfsLookup_refines {dir : VfsNode} {stp : List UInt8} {r : Option VfsNode}
    (h : VfsState.vfsLookup ops dir stp = some r) : Vfs.vfsLookup (mountedFs ops s) dir stp = r := by
  unfold VfsState.vfsLookup at h
  unfold Vfs.vfsLookup
  split at h
  · next hpos =>
    rw [if_pos hpos]
    split at h
    · exact Option.some.inj h
    · cases h
  · next hpos =>
    rw [if_neg hpos]
    exact Option.some.inj h

/-- The loop over the path, where no name overflows its buffer. -/
theorem walk_refines {stp : List UInt8} {dir : VfsNode} {r : Option VfsNode}
    (h : walk ops path stp dir = some r) : walkPath (mountedFs ops s) path stp dir = r := by
  induction path generalizing stp dir with
  | nil => exact vfsLookup_refines h
  | cons c path ih =>
    unfold walk at h
    unfold walkPath
    split at h
    · next hc =>
      rw [if_pos hc]
      cases hname : VfsState.vfsLookup ops dir stp with
      | none =>
        rw [hname] at h
        cases h
      | some found =>
        rw [vfsLookup_refines hname]
        rw [hname] at h
        cases found with
        | none => exact Option.some.inj h
        | some dir' => exact ih h
    · next hc =>
      rw [if_neg hc]
      exact ih h

theorem resolve_refines {r : Option VfsNode} (h : s.resolve ops path = some r) :
    Vfs.resolve (mountedFs ops s) path = r := by
  unfold VfsState.resolve at h
  unfold Vfs.resolve
  split at h
  · next hlen =>
    rw [if_pos hlen]
    exact walk_refines h
  · next hlen =>
    rw [if_neg hlen]
    exact Option.some.inj h

theorem slot_lt (hfd : 0 ≤ fd ∧ fd < fdMaxNum) : fd.toNat < 256 := by
  unfold fdMaxNum at hfd
  omega

/-- The elements of the table are those of `desc` when one of them is written. -/
theorem table_update (hfd : 0 ≤ fd ∧ fd < fdMaxNum) (p : Desc) {desc : ℤ → Desc} :
    (fun i : Fin 256 => Function.update desc fd p (i.val : ℤ)) =
      Function.update (fun i : Fin 256 => desc i.val) ⟨fd.toNat, slot_lt hfd⟩ p := by
  funext i
  by_cases hi : (i.val : ℤ) = fd
  · have hslot : i = ⟨fd.toNat, slot_lt hfd⟩ := Fin.ext (by simp [← hi])
    rw [hi, Function.update_self, hslot, Function.update_self]
  · rw [Function.update_of_ne hi, Function.update_of_ne]
    intro heq
    exact hi (by rw [heq]; simpa using hfd.1)

/-- `fd_alloc` finds the first free slot. -/
theorem fdAlloc_refines (h : s.FirstNull fd) : ∃ slot : Fin 256, (slot.val : ℤ) = fd ∧
    Vfs.fdAlloc (table s) = some (slot, Function.update (table s) slot .allocated) := by
  have hlt := h.lt
  have hnonneg := h.nonneg
  unfold fdMaxNum at hlt
  refine ⟨⟨fd.toNat, by omega⟩, by simpa using hnonneg, ?_⟩
  unfold Vfs.fdAlloc
  have hfind : (List.finRange 256).find? (fun i => table s i = .null) = some ⟨fd.toNat, by omega⟩ := by
    rw [List.find?_eq_some_iff_getElem]
    refine ⟨?_, fd.toNat, by simp; omega, by simp, fun j hj => ?_⟩
    · have hnull := h.null
      rw [← Int.toNat_of_nonneg hnonneg] at hnull
      exact decide_eq_true hnull
    · have hfirst := h.first j (by omega) (by omega)
      simpa [table] using hfirst
  rw [hfind]
  rfl

/-- **`vfs_open`** does to the table what the model without nodes says. -/
theorem vfsOpen_refines {r : ℤ} (h : s.vfsOpen ops path file = (s', some r)) :
    ∃ slot : Option (Fin 256), Vfs.vfsOpen (mountedFs ops s) (table s) path file = (table s', slot) ∧
      r = slot.elim (-1) fun i => (i.val : ℤ) := by
  rcases s.vfsOpen_cases ops path file with ⟨hearly, acc, heq⟩ | ⟨fp, fd, rfl, hfirst, hcases⟩
  · obtain ⟨rfl, hr⟩ := Prod.mk.inj (heq.symm.trans h)
    refine ⟨none, ?_, (Option.some.inj hr).symm⟩
    rcases hearly with rfl | hfull
    · rfl
    · have hnone : Vfs.fdAlloc (table s) = none :=
        fdAlloc_eq_none_iff.mpr fun i => hfull i.val (by omega) (by unfold fdMaxNum; omega)
      cases file with
      | none => rfl
      | some fp =>
        unfold Vfs.vfsOpen
        rw [hnone]
        rfl
  · obtain ⟨slot, rfl, halloc⟩ := fdAlloc_refines hfirst
    have hnull : table s slot = .null := hfirst.null
    have hslot : ∀ p, (fun i : Fin 256 => Function.update s.desc (slot.val : ℤ) p (i.val : ℤ)) =
        Function.update (table s) slot p := fun p => by
      rw [table_update ⟨hfirst.nonneg, hfirst.lt⟩]
      congr 1
    unfold Vfs.vfsOpen
    rw [halloc]
    dsimp only
    rcases hcases with ⟨-, hnone⟩ | ⟨hwalk, acc, heq⟩ | ⟨dir, hwalk, ⟨hopen, acc, heq⟩ | ⟨hopen, acc, heq⟩⟩
    · rw [h] at hnone
      cases hnone
    · obtain ⟨rfl, hr⟩ := Prod.mk.inj (heq.symm.trans h)
      rw [resolve_refines hwalk]
      exact ⟨none, Prod.ext (hslot _).symm rfl, (Option.some.inj hr).symm⟩
    · obtain ⟨rfl, hr⟩ := Prod.mk.inj (heq.symm.trans h)
      rw [resolve_refines hwalk]
      refine ⟨none, ?_, (Option.some.inj hr).symm⟩
      have hclosed : (mountedFs ops s).openOk dir = false := decide_eq_false hopen
      dsimp only
      rw [hclosed, if_neg (by decide)]
      refine Prod.ext ?_ rfl
      rw [fdFree, Vfs.fdClose, Function.update_idem, Function.update_idem, ← hnull,
        Function.update_eq_self]
      rfl
    · obtain ⟨rfl, hr⟩ := Prod.mk.inj (heq.symm.trans h)
      rw [resolve_refines hwalk]
      refine ⟨some slot, ?_, (Option.some.inj hr).symm⟩
      have hopened : (mountedFs ops s).openOk dir = true := decide_eq_true hopen
      dsimp only
      rw [hopened, if_pos rfl]
      refine Prod.ext ?_ rfl
      rw [fdAssign, Vfs.fdClose, Function.update_idem, Function.update_idem]
      exact (hslot _).symm

/-- **`vfs_close`** of a descriptor whose node can be closed does to the table what the model without
nodes says. -/
theorem vfsClose_refines {fp : ℕ} (hfd : 0 ≤ fd ∧ fd < fdMaxNum) (h : s.desc fd = .node fp)
    (hclose : HasClose ops s fp) :
    Vfs.vfsClose (table s) fd = some (table (s.vfsClose ops fd).1) := by
  have hrej : ¬ Rejects fd := not_or.mpr ⟨not_lt.mpr hfd.1, not_lt.mpr hfd.2.le⟩
  have hslot : 0 ≤ fd ∧ fd < 256 := hfd
  rcases vfsClose_of_node ops hrej h with ⟨-, acc, r, heq⟩ | ⟨hno, -⟩
  · have hnode : table s ⟨fd.toNat, by omega⟩ = .node fp := by
      rw [← h]
      exact congrArg s.desc (Int.toNat_of_nonneg hfd.1)
    have hget : Vfs.fpGet (table s) fd = some (⟨fd.toNat, by omega⟩, fp) := by
      unfold Vfs.fpGet
      rw [dif_pos hslot]
      dsimp only
      rw [hnode]
    rw [heq, Vfs.vfsClose, hget, Option.map_some, Vfs.fdFree, Vfs.fdClose, Function.update_idem]
    exact congrArg some (table_update hfd .null).symm
  · exact absurd hclose hno

end Refinement

/-- A file system with the one file `a` in its root directory. -/
def oneFileOps : ℕ → OpVector := fun _ =>
  { lookup := fun _ name => if name = Bytes.chars "a" then some ⟨2, 8⟩ else none
    read := none
    close := some fun _ => 0
    openNode := fun _ => 0 }

/-- `/a` is opened. -/
theorem open_path_iff_slash : OpensRight oneFileOps mountedBoot (Bytes.chars "/a") (some 9) :=
  (open_path_iff oneFileOps mountedBoot (Bytes.chars "/a") (some 9) (by decide) (by decide)).mpr
    (Or.inl (by decide))

/-- `a` opens the root directory. -/
theorem open_root_for_a : ¬ ∀ (ops : ℕ → OpVector) (s : VfsState) (path : List UInt8)
    (file : Option ℕ), path ≠ [] → (∀ name ∈ pathComponents path, name.length < 512) →
      OpensRight ops s path file := by
  intro h
  have hright := h oneFileOps mountedBoot (Bytes.chars "a") (some 9) (by decide) (by decide)
  have hfirst : mountedBoot.FirstNull 0 := ⟨le_rfl, by decide, rfl, fun j h₁ h₂ => by omega⟩
  have hnode := (hright.found ⟨2, 8⟩ (by decide) 9 rfl ⟨0, hfirst⟩).node
  have hroot := (opens_of_resolve 9 hfirst
    (resolve_single oneFileOps mountedBoot 0x61)).node
  have heq := congrFun (hroot.symm.trans hnode) 9
  rw [Function.update_self, Function.update_self] at heq
  revert heq
  decide

end YakOS.Vfs.Nodes
