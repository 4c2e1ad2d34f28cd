import YakOS.Fs.Nodes
import YakOS.Lib.Run

/-!
# Closing

What `vfs_open` and `vfs_close` do to the table, the nodes and the `close` operations.  `vfs_close`
frees the descriptor, which calls the operation with the node, and then calls it again with the private
data.

## Main definitions

* `table` — the elements of `desc`.
* `FileCall`, `callStep` — runs of opens and closes.
* `ClosedOnce` — the calls of the `close` operation made for a descriptor.

## Main results

* `vfsOpen_cases`, `vfsClose_of_node` — what the two functions do.
* `closed_twice_or_never` — the calls made for a descriptor between its open and its close.
* `never_closed_once` — **in no run are they the one call they should be.**
-/

namespace YakOS.Vfs.Nodes

namespace VfsState

section Slots

variable {ops : ℕ → OpVector} {s : VfsState} {fd : ℤ}

/-- The number is the first free slot of the table. -/
structure FirstNull (s : VfsState) (fd : ℤ) : Prop where
  nonneg : 0 ≤ fd
  lt : fd < fdMaxNum
  null : s.desc fd = .null
  first : ∀ j, 0 ≤ j → j < fd → s.desc j ≠ .null

/-- A slot with a node is another one. -/
theorem FirstNull.ne {fd' : ℤ} {fp : ℕ} (h : s.FirstNull fd') (hnode : s.desc fd = .node fp) : fd ≠ fd' := by
  rintro rfl
  rw [h.null] at hnode
  cases hnode

/-- The loop of `fd_alloc` stops at the first free element, or at the end. -/
theorem allocFrom_cases (s : VfsState) (n : ℕ) (fd : ℤ) :
    (∃ fd', (fd ≤ fd' ∧ fd' < fd + n) ∧ s.desc fd' = .null ∧
        (∀ j, fd ≤ j → j < fd' → s.desc j ≠ .null) ∧ ∃ acc, s.allocFrom n fd =
          ({ s with desc := Function.update s.desc fd' .allocated, accessed := acc }, fd')) ∨
      (∀ j, fd ≤ j → j < fd + n → s.desc j ≠ .null) ∧
        ∃ acc, s.allocFrom n fd = ({ s with accessed := acc }, -1) := by
  induction n generalizing s fd with
  | zero => exact Or.inr ⟨fun j h₁ h₂ => by omega, s.accessed, rfl⟩
  | succ n ih =>
    unfold allocFrom
    dsimp only
    by_cases hnull : s.desc fd = .null
    · rw [if_pos hnull]
      exact Or.inl ⟨fd, by omega, hnull, fun j h₁ h₂ => by omega, _, rfl⟩
    · rw [if_neg hnull]
      have hstep : ∀ j, fd ≤ j → (fd + 1 ≤ j → s.desc j ≠ .null) → s.desc j ≠ .null := by
        intro j hj hlater
        rcases hj.lt_or_eq with hlt | rfl
        · exact hlater hlt
        · exact hnull
      rcases ih (s.load fd) (fd + 1) with ⟨fd', hrange, hnull', hfirst, acc, heq⟩ | ⟨hfull, acc, heq⟩
      · refine Or.inl ⟨fd', by omega, hnull', fun j h₁ h₂ => ?_, acc, heq⟩
        exact hstep j h₁ fun h => hfirst j h h₂
      · refine Or.inr ⟨fun j h₁ h₂ => ?_, acc, heq⟩
        exact hstep j h₁ fun h => hfull j h (by omega)

/-- **`fd_alloc(0)`** reserves the first free slot, if there is one. -/
theorem fdAlloc_cases (s : VfsState) :
    (∃ fd, s.FirstNull fd ∧ ∃ acc, s.fdAlloc 0 =
        ({ s with desc := Function.update s.desc fd .allocated, accessed := acc }, fd)) ∨
      (∀ fd, 0 ≤ fd → fd < fdMaxNum → s.desc fd ≠ .null) ∧
        ∃ acc, s.fdAlloc 0 = ({ s with accessed := acc }, -1) := by
  unfold fdAlloc
  rw [if_neg (by decide)]
  rcases s.allocFrom_cases (fdMaxNum - 0).toNat 0 with
    ⟨fd, ⟨h₁, h₂⟩, hnull, hfirst, hacc⟩ | ⟨hfull, hacc⟩
  · exact Or.inl ⟨fd, ⟨h₁, h₂, hnull, hfirst⟩, hacc⟩
  · exact Or.inr ⟨fun fd h₁ h₂ => hfull fd h₁ h₂, hacc⟩

/-- Freeing a reserved slot calls no operation. -/
theorem fdFree_of_allocated (ops : ℕ → OpVector) (hfd : ¬ Rejects fd) (h : s.desc fd = .allocated) :
    ∃ acc, s.fdFree ops fd =
      ({ s with desc := Function.update s.desc fd .null, accessed := acc }, some 0) := by
  refine ⟨s.accessed ++ [fd] ++ [fd] ++ [fd], ?_⟩
  unfold fdFree fdClose
  rw [if_neg hfd, if_neg hfd, h]
  simp [load, store]

/-- So does filling it. -/
theorem fdAssign_of_allocated (ops : ℕ → OpVector) (hfd : ¬ Rejects fd) (h : s.desc fd = .allocated)
    (fp : ℕ) :
    ∃ acc, s.fdAssign ops fd fp =
      ({ s with desc := Function.update s.desc fd (.node fp), accessed := acc }, some ()) := by
  refine ⟨s.accessed ++ [fd] ++ [fd] ++ [fd], ?_⟩
  unfold fdAssign fdClose
  rw [if_neg hfd, if_neg hfd, h]
  simp [load, store]

/-- Freeing a slot with a node calls the `close` operation of the node, with the node. -/
theorem fdFree_of_node {fp : ℕ} {close : ℕ → ℤ} (hfd : ¬ Rejects fd) (h : s.desc fd = .node fp)
    (hvops : (s.node fp).vops ≠ 0) (hclose : (ops (s.node fp).vops).close = some close) :
    ∃ acc, s.fdFree ops fd =
      ({ s with
          desc := Function.update s.desc fd .null
          accessed := acc
          closes := s.closes ++ [⟨fd, (s.node fp).vops, fp⟩] }, some (close fp)) := by
  refine ⟨s.accessed ++ [fd] ++ [fd] ++ [fd], ?_⟩
  unfold fdFree fdClose
  rw [if_neg hfd, if_neg hfd, h]
  simp [load, store, fpUcountDec, hvops, hclose]

end Slots

/-! ### Opening and closing -/

/-- The node has a `close` operation. -/
def HasClose (ops : ℕ → OpVector) (s : VfsState) (fp : ℕ) : Prop :=
  (s.node fp).vops ≠ 0 ∧ (ops (s.node fp).vops).close ≠ none

section Calls

variable {ops : ℕ → OpVector} {s s' : VfsState} {fd : ℤ}

/-- **`vfs_close`** of a descriptor with a node: the operation is called twice, with the node and with its
private data; without an operation the call fails. -/
theorem vfsClose_of_node (ops : ℕ → OpVector) {fp : ℕ} (hfd : ¬ Rejects fd) (h : s.desc fd = .node fp) :
    (HasClose ops s fp ∧ ∃ acc r, s.vfsClose ops fd =
        ({ s with
            desc := Function.update s.desc fd .null
            accessed := acc
            closes := s.closes ++
              [⟨fd, (s.node fp).vops, fp⟩, ⟨fd, (s.node fp).vops, (s.node fp).priv⟩] }, some r)) ∨
      ¬ HasClose ops s fp ∧ s.vfsClose ops fd = (s.load fd, some (-1)) := by
  unfold vfsClose HasClose
  rw [fpGet_of_node hfd h]
  dsimp only
  cases hclose : (ops (s.node fp).vops).close with
  | none => exact Or.inr ⟨fun hhas => hhas.2 rfl, rfl⟩
  | some close =>
    by_cases hvops : (s.node fp).vops = 0
    · exact Or.inr ⟨fun hhas => hhas.1 hvops, by simp [hvops]⟩
    · obtain ⟨acc, hfree⟩ := fdFree_of_node (s := s.load fd) hfd h hvops hclose
      refine Or.inl ⟨⟨hvops, Option.some_ne_none close⟩, acc, close (s.node fp).priv, ?_⟩
      dsimp only
      rw [if_pos hvops, hfree]
      simp [load]

/-- **What `vfs_open` can do**: nothing, when it has no node or no slot; behave in an undefined way, or
fail and leave its slot reserved, when the walk does; fail in the open and give the slot back; or fill
the slot.  No `close` operation is called. -/
theorem vfsOpen_cases (ops : ℕ → OpVector) (s : VfsState) (path : List UInt8) (file : Option ℕ) :
    ((file = none ∨ ∀ fd, 0 ≤ fd → fd < fdMaxNum → s.desc fd ≠ .null) ∧
        ∃ acc, s.vfsOpen ops path file = ({ s with accessed := acc }, some (-1))) ∨
      ∃ fp fd, file = some fp ∧ s.FirstNull fd ∧
        ((s.resolve ops path = none ∧ (s.vfsOpen ops path file).2 = none) ∨
        (s.resolve ops path = some none ∧ ∃ acc, s.vfsOpen ops path file =
          ({ s with desc := Function.update s.desc fd .allocated, accessed := acc }, some (-1))) ∨
        ∃ dir, s.resolve ops path = some (some dir) ∧
          (((ops dir.vops).openNode dir.priv ≠ 0 ∧ ∃ acc, s.vfsOpen ops path file =
            ({ s with node := Function.update s.node fp dir, accessed := acc }, some (-1))) ∨
          ((ops dir.vops).openNode dir.priv = 0 ∧ ∃ acc, s.vfsOpen ops path file =
            ({ s with
                desc := Function.update s.desc fd (.node fp)
                node := Function.update s.node fp dir
                accessed := acc }, some fd)))) := by
  cases file with
  | none => exact Or.inl ⟨Or.inl rfl, s.accessed, rfl⟩
  | some fp =>
    rcases s.fdAlloc_cases with ⟨fd, hfirst, acc, halloc⟩ | ⟨hfull, acc, halloc⟩
    · refine Or.inr ⟨fp, fd, rfl, hfirst, ?_⟩
      have hnonneg : ¬ fd < 0 := not_lt.mpr hfirst.nonneg
      have hfd : ¬ Rejects fd := not_or.mpr ⟨hnonneg, not_lt.mpr hfirst.lt.le⟩
      have hresolve : ∀ desc acc, VfsState.resolve ops
          { s with desc := desc, accessed := acc } path = s.resolve ops path := fun _ _ => rfl
      unfold vfsOpen
      simp only [halloc, if_neg hnonneg, hresolve]
      cases s.resolve ops path with
      | none => exact Or.inl ⟨rfl, rfl⟩
      | some r =>
        cases r with
        | none => exact Or.inr (Or.inl ⟨rfl, acc, rfl⟩)
        | some dir =>
          refine Or.inr (Or.inr ⟨dir, rfl, ?_⟩)
          -- the node is stored, and the slot is still reserved
          set t : VfsState := { s with
            desc := Function.update s.desc fd .allocated
            node := Function.update s.node fp dir
            accessed := acc } with ht
          have hslot : t.desc fd = .allocated := Function.update_self ..
          by_cases hopen : (ops dir.vops).openNode dir.priv = 0
          · obtain ⟨acc', hassign⟩ := fdAssign_of_allocated ops hfd hslot fp
            refine Or.inr ⟨hopen, acc', ?_⟩
            simp only [if_pos hopen]
            rw [← ht, hassign]
            simp [ht]
          · obtain ⟨acc', hfree⟩ := fdFree_of_allocated ops hfd hslot
            refine Or.inl ⟨hopen, acc', ?_⟩
            have hback : Function.update t.desc fd .null = s.desc := by
              rw [ht, Function.update_idem, ← hfirst.null, Function.update_eq_self]
            simp only [if_neg hopen]
            rw [← ht, hfree, hback]
    · refine Or.inl ⟨Or.inr hfull, acc, ?_⟩
      unfold vfsOpen
      simp [halloc]

end Calls

end VfsState

open VfsState

/-! ### Runs -/

/-- A call of `vfs_open` or `vfs_close`, with what the operations do at that time. -/
inductive FileCall
  | openFile (ops : ℕ → OpVector) (path : List UInt8) (file : Option ℕ)
  | closeFile (ops : ℕ → OpVector) (fd : ℤ)

/-- One call, unless its behaviour is undefined. -/
def callStep (s : VfsState) : FileCall → Option VfsState
  | .openFile ops path file => (s.vfsOpen ops path file).2.map fun _ => (s.vfsOpen ops path file).1
  | .closeFile ops fd => (s.vfsClose ops fd).2.map fun _ => (s.vfsClose ops fd).1

/-- The call is a close of the descriptor. -/
def FileCall.Closes (fd : ℤ) : FileCall → Prop
  | .openFile _ _ _ => False
  | .closeFile _ fd' => fd' = fd

/-- The calls of `close` operations made for a descriptor. -/
def callsFor (s : VfsState) (fd : ℤ) : List CloseCall := s.closes.filter fun c => c.fd = fd

/-- Between the two states the `close` operation of the node was called once for the descriptor, with
the private data. -/
def ClosedOnce (s s' : VfsState) (fd : ℤ) (node : VfsNode) : Prop :=
  callsFor s' fd = callsFor s fd ++ [⟨fd, node.vops, node.priv⟩]

section Runs

variable {ops : ℕ → OpVector} {s s' t : VfsState} {fd : ℤ} {fp : ℕ}

theorem callsFor_append_of_ne {l : List CloseCall} (hs : s'.closes = s.closes ++ l)
    (hl : ∀ c ∈ l, c.fd ≠ fd) : callsFor s' fd = callsFor s fd := by
  unfold callsFor
  rw [hs, List.filter_append, List.append_right_eq_self, List.filter_eq_nil_iff]
  intro c hc
  simpa using hl c hc

theorem callsFor_append_of_eq {l : List CloseCall} (hs : s'.closes = s.closes ++ l)
    (hl : ∀ c ∈ l, c.fd = fd) : callsFor s' fd = callsFor s fd ++ l := by
  have hall : l.filter (fun c => c.fd = fd) = l :=
    List.filter_eq_self.mpr fun c hc => by simpa using hl c hc
  unfold callsFor
  rw [hs, List.filter_append, hall]

/-- A descriptor that a defined `vfs_close` is called with has a node. -/
theorem node_of_vfsClose (h : (s.vfsClose ops fd).2 ≠ none) :
    ¬ Rejects fd ∧ ∃ fp, s.desc fd = .node fp := by
  by_contra hnot
  exact h (vfsClose_of_fpGet (fpGet_eq_none_iff.mpr hnot))

/-- `vfs_open` calls no `close` operation, and leaves every slot that has a node alone. -/
theorem vfsOpen_keeps (fd : ℤ) (ops : ℕ → OpVector) (s : VfsState) (path : List UInt8) (file : Option ℕ)
    (hdef : (s.vfsOpen ops path file).2 ≠ none) :
    (s.vfsOpen ops path file).1.closes = s.closes ∧
      ∀ fp, s.desc fd = .node fp → (s.vfsOpen ops path file).1.desc fd = .node fp := by
  rcases s.vfsOpen_cases ops path file with ⟨-, acc, heq⟩ | ⟨fp', fd', -, hfirst, ⟨-, hnone⟩ |
    ⟨-, acc, heq⟩ | ⟨dir, -, ⟨-, acc, heq⟩ | ⟨-, acc, heq⟩⟩⟩
  · rw [heq]
    exact ⟨rfl, fun _ h => h⟩
  · exact absurd hnone hdef
  · rw [heq]
    exact ⟨rfl, fun fp h => (Function.update_of_ne (hfirst.ne h) _ _).trans h⟩
  · rw [heq]
    exact ⟨rfl, fun fp h => h⟩
  · rw [heq]
    exact ⟨rfl, fun fp h => (Function.update_of_ne (hfirst.ne h) _ _).trans h⟩

/-- **A call** that does not close the descriptor makes no call of a `close` operation for it, and leaves
its node in its slot. -/
theorem callStep_keeps {c : FileCall} (hc : ¬ c.Closes fd) (h : callStep s c = some s') :
    callsFor s' fd = callsFor s fd ∧ ∀ fp, s.desc fd = .node fp → s'.desc fd = .node fp := by
  cases c with
  | openFile ops path file =>
    obtain ⟨r, hr, rfl⟩ := Option.map_eq_some_iff.mp h
    obtain ⟨hcloses, hdesc⟩ := vfsOpen_keeps fd ops s path file (by rw [hr]; exact Option.some_ne_none r)
    exact ⟨congrArg _ hcloses, hdesc⟩
  | closeFile ops fd' =>
    obtain ⟨r, hr, rfl⟩ := Option.map_eq_some_iff.mp h
    obtain ⟨hfd', fp', hnode⟩ := node_of_vfsClose (by rw [hr]; exact Option.some_ne_none r)
    have hne : fd' ≠ fd := hc
    rcases vfsClose_of_node ops hfd' hnode with ⟨-, acc, r', heq⟩ | ⟨-, heq⟩
    · rw [heq]
      refine ⟨callsFor_append_of_ne rfl ?_, fun fp h => (Function.update_of_ne hne.symm _ _).trans h⟩
      simp [hne]
    · rw [heq]
      exact ⟨rfl, fun _ h => h⟩

/-- **A run** that does not close the descriptor makes no call for it, and leaves its node in its
slot. -/
theorem exec_keeps {es : List FileCall} (hes : ∀ c ∈ es, ¬ c.Closes fd)
    (h : Run.exec callStep s es = some t) :
    callsFor t fd = callsFor s fd ∧ ∀ fp, s.desc fd = .node fp → t.desc fd = .node fp := by
  induction es generalizing s with
  | nil =>
    obtain rfl : s = t := by simpa using h
    exact ⟨rfl, fun _ h => h⟩
  | cons c es ih =>
    obtain ⟨s₁, hs₁, hrest⟩ := Run.exec_cons_eq_some.mp h
    obtain ⟨hcalls, hdesc⟩ := callStep_keeps (hes c List.mem_cons_self) hs₁
    obtain ⟨hcalls', hdesc'⟩ := ih (fun c hc => hes c (List.mem_cons_of_mem _ hc)) hrest
    exact ⟨hcalls'.trans hcalls, fun fp hfp => hdesc' fp (hdesc fp hfp)⟩

/-- A successful `vfs_open` fills a slot of the table with the caller's node. -/
theorem desc_of_vfsOpen {path : List UInt8} {file : Option ℕ} (hfd : 0 ≤ fd)
    (h : s.vfsOpen ops path file = (s', some fd)) :
    ∃ fp, file = some fp ∧ ¬ Rejects fd ∧ s'.desc fd = .node fp ∧ callsFor s' fd = callsFor s fd := by
  have hneg : ¬ (-1 : ℤ) = fd := by omega
  rcases s.vfsOpen_cases ops path file with ⟨-, acc, heq⟩ | ⟨fp, fd', hfile, hfirst, ⟨-, hnone⟩ |
    ⟨-, acc, heq⟩ | ⟨dir, -, ⟨-, acc, heq⟩ | ⟨-, acc, heq⟩⟩⟩
  · exact absurd (Option.some.inj (congrArg Prod.snd (heq.symm.trans h))) hneg
  · rw [h] at hnone
    cases hnone
  · exact absurd (Option.some.inj (congrArg Prod.snd (heq.symm.trans h))) hneg
  · exact absurd (Option.some.inj (congrArg Prod.snd (heq.symm.trans h))) hneg
  · obtain ⟨rfl, hfd'⟩ := Prod.mk.inj (heq.symm.trans h)
    obtain rfl := Option.some.inj hfd'
    exact ⟨fp, hfile, not_or.mpr ⟨not_lt.mpr hfd, not_lt.mpr hfirst.lt.le⟩, Function.update_self ..,
      rfl⟩

/-- **What is called for a descriptor**: nothing between its open and its close, and with the close two
calls, the first with the node, or none. -/
theorem closed_twice_or_never {path : List UInt8} {file : Option ℕ} {es : List FileCall} (hfd : 0 ≤ fd)
    (hopen : s.vfsOpen ops path file = (s', some fd)) (hes : ∀ c ∈ es, ¬ c.Closes fd)
    (hrun : Run.exec callStep s' es = some t) (ops' : ℕ → OpVector) :
    ∃ fp, file = some fp ∧
      ((HasClose ops' t fp ∧ callsFor (t.vfsClose ops' fd).1 fd = callsFor s fd ++
          [⟨fd, (t.node fp).vops, fp⟩, ⟨fd, (t.node fp).vops, (t.node fp).priv⟩]) ∨
        ¬ HasClose ops' t fp ∧ callsFor (t.vfsClose ops' fd).1 fd = callsFor s fd) := by
  obtain ⟨fp, hfile, hrej, hdesc, hcalls⟩ := desc_of_vfsOpen hfd hopen
  obtain ⟨hcalls', hdesc'⟩ := exec_keeps hes hrun
  have hbefore : callsFor t fd = callsFor s fd := hcalls'.trans hcalls
  refine ⟨fp, hfile, ?_⟩
  rcases vfsClose_of_node ops' hrej (hdesc' fp hdesc) with ⟨hhas, acc, r, heq⟩ | ⟨hhas, heq⟩
  · refine Or.inl ⟨hhas, ?_⟩
    rw [heq, ← hbefore]
    exact callsFor_append_of_eq rfl (by simp)
  · refine Or.inr ⟨hhas, ?_⟩
    rw [heq, ← hbefore]
    rfl

/-- **The `close` operation of a node** is not called once for any descriptor, in no run of opens and
closes and with no vectors of operations, between the `vfs_open` that gave the descriptor and the
`vfs_close` that follows. -/
theorem never_closed_once {path : List UInt8} {fp : ℕ} {es : List FileCall} (hfd : 0 ≤ fd)
    (hopen : s.vfsOpen ops path (some fp) = (s', some fd)) (hes : ∀ c ∈ es, ¬ c.Closes fd)
    (hrun : Run.exec callStep s' es = some t) (ops' : ℕ → OpVector) :
    ¬ ClosedOnce s (t.vfsClose ops' fd).1 fd (s'.node fp) := by
  intro honce
  obtain ⟨fp', -, ⟨-, hcalls⟩ | ⟨-, hcalls⟩⟩ := closed_twice_or_never hfd hopen hes hrun ops'
  · have hlen := congrArg List.length (honce.symm.trans hcalls)
    simp at hlen
  · have hlen := congrArg List.length (honce.symm.trans hcalls)
    simp at hlen

end Runs

/-- The operations of a file system whose `close` does nothing. -/
def quietOps : ℕ → OpVector := fun _ =>
  { lookup := fun _ _ => none, read := none, close := some fun _ => 0, openNode := fun _ => 0 }

/-- After boot, with the root directory mounted. -/
def mountedBoot : VfsState := { boot with vfsroot := ⟨1, 7⟩ }

/-- The root directory is opened, nothing else happens, and it is closed. -/
theorem never_closed_once_root : ¬ ClosedOnce mountedBoot
    ((mountedBoot.vfsOpen quietOps [0x2F] (some 9)).1.vfsClose quietOps 0).1 0
    ((mountedBoot.vfsOpen quietOps [0x2F] (some 9)).1.node 9) :=
  never_closed_once (le_rfl : (0 : ℤ) ≤ 0) (Prod.ext rfl (by decide +kernel))
    (nofun : ∀ c ∈ ([] : List FileCall), ¬ c.Closes 0) rfl quietOps

/-- Its operation is called with the node, and then with the private data. -/
theorem root_closed_twice : ¬ ∀ (ops ops' : ℕ → OpVector) (s s' t : VfsState) (path : List UInt8)
    (fp : ℕ) (fd : ℤ) (es : List FileCall), 0 ≤ fd → s.vfsOpen ops path (some fp) = (s', some fd) →
      (∀ c ∈ es, ¬ c.Closes fd) → Run.exec callStep s' es = some t →
      ClosedOnce s (t.vfsClose ops' fd).1 fd (s'.node fp) := by
  intro h
  have honce := h quietOps quietOps mountedBoot _ _ [0x2F] 9 0 [] le_rfl
    (Prod.ext rfl (by decide +kernel)) nofun rfl
  have hcalls : callsFor ((mountedBoot.vfsOpen quietOps [0x2F] (some 9)).1.vfsClose quietOps 0).1 0 =
      [⟨0, 1, 9⟩, ⟨0, 1, 7⟩] := by decide +kernel
  have hlen := congrArg List.length (hcalls.symm.trans honce)
  simp [callsFor, mountedBoot, boot] at hlen

end YakOS.Vfs.Nodes
