import Mathlib.Algebra.Order.Group.Int
import YakOS.Lib.Links

/-!
# Kernel objects and sets

`drivers/base/kobject.c`.  A `struct kobject` is part of a bus, a device, a driver or a
`struct kset`, and is linked into the list of the set it belongs to.  The set of a set is
`NULL`, so its own object is on no list.

The calls run by themselves: a semaphore that is not free when it is asked for never
becomes free, and the call is stuck there.  A call that follows a null pointer is stuck as
well.

## Main definitions

* `Kobj`, `Node` — the objects and the nodes of the lists.
* `DriverModel` — the memory of the driver model.
* `kobjectAdd`, `kobjectDel`, `ksetCreateAndAdd`, `ksetUnregister`, `ksetRelease` — the code.

## Main results

* `kobjectAdd_spec`, `kobjectDel_spec` — what the calls do to the list of the set.
-/

namespace YakOS.Driver

open Links

/-- A `struct kobject *`, by the structure it is part of. -/
inductive Kobj
  | bus (bus : ℕ)
  | device (dev : ℕ)
  | driver (drv : ℕ)
  | kset (kset : ℕ)
  deriving DecidableEq, Repr

/-- A `struct list_head *`. -/
inductive Node
  /-- The field `entry` of an object. -/
  | entry (kobj : Kobj)
  /-- The field `list` of a set. -/
  | list (kset : ℕ)
  /-- The field `driver_entry` of a device. -/
  | driverEntry (dev : ℕ)
  /-- The field `list_devices` of a driver. -/
  | listDevices (drv : ℕ)
  deriving DecidableEq, Repr

/-- Why a call does not return. -/
inductive Stuck
  /-- `bus->lock` is taken. -/
  | busLock
  /-- The `list_lock` of a set is taken. -/
  | listLock
  /-- A null pointer is followed. -/
  | null
  /-- A loop has not come to its end yet. -/
  | loop
  deriving DecidableEq, Repr

/-- The memory of the driver model.  A set is named by the number of the call of `kmalloc` it
comes from. -/
structure DriverModel where
  links : Links Node
  /-- The field `kset` of an object. -/
  kset : Kobj → Option ℕ
  parent : Kobj → Option Kobj
  /-- The count of the `list_lock` of a set. -/
  listLock : ℕ → ℕ
  /-- The count of the `lock` of a bus. -/
  busLock : ℕ → ℕ
  busKset : Option ℕ
  devicesKset : ℕ → Option ℕ
  driversKset : ℕ → Option ℕ
  deviceBus : ℕ → Option ℕ
  driverBus : ℕ → Option ℕ
  /-- The calls of `kmalloc` for a set so far. -/
  allocs : ℕ
  /-- The calls of `kset_release` so far. -/
  released : List ℕ

namespace DriverModel

variable (s : DriverModel)

/-- `down(&kset->list_lock)`. -/
def downList (k : ℕ) : Except Stuck DriverModel :=
  if 0 < s.listLock k then
    .ok { s with listLock := Function.update s.listLock k (s.listLock k - 1) }
  else .error .listLock

/-- `up(&kset->list_lock)`. -/
def upList (k : ℕ) : DriverModel :=
  { s with listLock := Function.update s.listLock k (s.listLock k + 1) }

/-- A list operation, which is stuck when it follows a null pointer. -/
def relink (links : Option (Links Node)) : Except Stuck DriverModel :=
  match links with
  | none => .error .null
  | some l => .ok { s with links := l }

end DriverModel

variable (s : DriverModel)

/-- `kobj_kset_join`. -/
def kobjKsetJoin (kobj : Kobj) : Except Stuck DriverModel :=
  match s.kset kobj with
  | none => .ok s
  | some k => do
    let s ← s.downList k
    let s ← s.relink (s.links.listAddTail (.entry kobj) (.list k))
    .ok (s.upList k)

/-- `kobj_kset_leave`. -/
def kobjKsetLeave (kobj : Kobj) : Except Stuck DriverModel :=
  match s.kset kobj with
  | none => .ok s
  | some k => do
    let s ← s.downList k
    let s ← s.relink (s.links.listDelInit (.entry kobj))
    .ok (s.upList k)

/-- `kobject_add`, with the value it returns. -/
def kobjectAdd (kobj : Kobj) : Except Stuck (ℤ × DriverModel) :=
  match s.kset kobj with
  | none => .ok (0, s)
  | some k => do
    let parent := (s.parent kobj).getD (.kset k)
    let s ← kobjKsetJoin s kobj
    .ok (0, { s with parent := Function.update s.parent kobj (some parent) })

/-- `kobject_del`. -/
def kobjectDel (kobj : Kobj) : Except Stuck DriverModel := do
  let s ← kobjKsetLeave s kobj
  .ok { s with parent := Function.update s.parent kobj none }

/-- `kset_create`: `ok` says which calls of `kmalloc` succeed. -/
def ksetCreate (ok : ℕ → Bool) (parent : Kobj) : Option ℕ × DriverModel :=
  let k := s.allocs
  let s := { s with allocs := k + 1 }
  if ok k then
    (some k, { s with
      parent := Function.update s.parent (.kset k) (some parent)
      kset := Function.update s.kset (.kset k) none })
  else (none, s)

/-- `kset_init`. -/
def ksetInit (k : ℕ) : DriverModel :=
  { s with
    links := (s.links.initListHead (.entry (.kset k))).initListHead (.list k)
    listLock := Function.update s.listLock k 1 }

/-- `kset_register`. -/
def ksetRegister (k : ℕ) : Except Stuck (ℤ × DriverModel) := kobjectAdd (ksetInit s k) (.kset k)

/-- `kset_release`: the set is freed. -/
def ksetRelease (k : ℕ) : DriverModel := { s with released := s.released ++ [k] }

/-- `kset_create_and_add`. -/
def ksetCreateAndAdd (ok : ℕ → Bool) (parent : Kobj) : Except Stuck (Option ℕ × DriverModel) :=
  match ksetCreate s ok parent with
  | (none, s) => .ok (none, s)
  | (some k, s) => do
    let (error, s) ← ksetRegister s k
    if error ≠ 0 then .ok (none, ksetRelease s k) else .ok (some k, s)

/-- `kset_unregister`. -/
def ksetUnregister (k : ℕ) : Except Stuck DriverModel := kobjectDel s (.kset k)

/-! ### The list of a set -/

/-- What a call on an object leaves alone. -/
structure Keeps (s s' : DriverModel) : Prop where
  kset : s'.kset = s.kset
  listLock : s'.listLock = s.listLock
  busLock : s'.busLock = s.busLock
  busKset : s'.busKset = s.busKset
  devicesKset : s'.devicesKset = s.devicesKset
  driversKset : s'.driversKset = s.driversKset
  allocs : s'.allocs = s.allocs
  released : s'.released = s.released

variable {s} {s' : DriverModel} {kobj : Kobj} {k : ℕ}

theorem Keeps.refl (s : DriverModel) : Keeps s s := ⟨rfl, rfl, rfl, rfl, rfl, rfl, rfl, rfl⟩

/-- A list operation under the lock of a set. -/
theorem locked_relink {f : Links Node → Option (Links Node)} (hlock : 0 < s.listLock k)
    {l : Links Node} (hf : f s.links = some l) :
    (do
      let s ← s.downList k
      let s ← s.relink (f s.links)
      Except.ok (s.upList k)) = .ok { s with links := l } := by
  have hback : Function.update (Function.update s.listLock k (s.listLock k - 1)) k
      (s.listLock k - 1 + 1) = s.listLock := by
    rw [Function.update_idem, Nat.sub_add_cancel hlock, Function.update_eq_self]
  simp only [DriverModel.downList, if_pos hlock, bind, Except.bind, DriverModel.relink, hf,
    DriverModel.upList, Function.update_self, hback]

/-- `kobject_add` links the object at the end of the list of its set. -/
theorem kobjectAdd_spec {xs : List Node} (hk : s.kset kobj = some k) (hlock : 0 < s.listLock k)
    (hring : Ring s.links (.list k) xs) (hnew : .entry kobj ∉ Node.list k :: xs) :
    ∃ s', kobjectAdd s kobj = .ok (0, s') ∧ Keeps s s' ∧
      Ring s'.links (.list k) (xs ++ [.entry kobj]) := by
  obtain ⟨l, hl, hring', -⟩ := hring.listAddTail hnew
  refine ⟨{ s with
    links := l
    parent := Function.update s.parent kobj (some ((s.parent kobj).getD (.kset k))) }, ?_,
    ⟨rfl, rfl, rfl, rfl, rfl, rfl, rfl, rfl⟩, hring'⟩
  unfold kobjectAdd kobjKsetJoin
  simp only [hk]
  rw [locked_relink (f := fun l => l.listAddTail (.entry kobj) (.list k)) hlock hl]
  rfl

/-- `kobject_del` takes the object off the list of its set; no other list changes. -/
theorem kobjectDel_spec {xs ys : List Node} (hk : s.kset kobj = some k)
    (hlock : 0 < s.listLock k) (hring : Ring s.links (.list k) (xs ++ .entry kobj :: ys)) :
    ∃ s', kobjectDel s kobj = .ok s' ∧ Keeps s s' ∧ Ring s'.links (.list k) (xs ++ ys) ∧
      Frame s.links s'.links (.entry kobj) (.list k :: (xs ++ .entry kobj :: ys)) := by
  obtain ⟨l, hl, hring', -, -, hframe⟩ := hring.listDelInit
  refine ⟨{ s with links := l, parent := Function.update s.parent kobj none }, ?_,
    ⟨rfl, rfl, rfl, rfl, rfl, rfl, rfl, rfl⟩, hring', hframe⟩
  unfold kobjectDel kobjKsetLeave
  simp only [hk]
  rw [locked_relink (f := fun l => l.listDelInit (.entry kobj)) hlock hl]
  rfl

/-- Whatever the list operation does, the lock is given back. -/
theorem keeps_of_locked {f : Links Node → Option (Links Node)}
    (h : (do
      let s ← s.downList k
      let s ← s.relink (f s.links)
      Except.ok (s.upList k)) = .ok s') : Keeps s s' := by
  by_cases hlock : 0 < s.listLock k
  · cases hf : f s.links with
    | none => simp [DriverModel.downList, hlock, bind, Except.bind, DriverModel.relink, hf] at h
    | some l =>
      rw [locked_relink hlock hf] at h
      obtain rfl := Except.ok.inj h
      exact ⟨rfl, rfl, rfl, rfl, rfl, rfl, rfl, rfl⟩
  · simp [DriverModel.downList, hlock, bind, Except.bind] at h

theorem kobjectDel_keeps (h : kobjectDel s kobj = .ok s') : Keeps s s' := by
  unfold kobjectDel at h
  cases hleave : kobjKsetLeave s kobj with
  | error e => simp [hleave, bind, Except.bind] at h
  | ok s₁ =>
    simp only [hleave, bind, Except.bind, Except.ok.injEq] at h
    subst h
    have hkeeps : Keeps s s₁ := by
      unfold kobjKsetLeave at hleave
      split at hleave
      · obtain rfl := Except.ok.inj hleave
        exact Keeps.refl s
      · exact keeps_of_locked (f := fun l => l.listDelInit (.entry kobj)) hleave
    exact ⟨hkeeps.kset, hkeeps.listLock, hkeeps.busLock, hkeeps.busKset, hkeeps.devicesKset,
      hkeeps.driversKset, hkeeps.allocs, hkeeps.released⟩

theorem kobjectAdd_keeps {r : ℤ} (h : kobjectAdd s kobj = .ok (r, s')) : Keeps s s' := by
  unfold kobjectAdd at h
  cases hk : s.kset kobj with
  | none =>
    simp only [hk, Except.ok.injEq, Prod.mk.injEq] at h
    obtain ⟨-, rfl⟩ := h
    exact Keeps.refl s
  | some k =>
    cases hjoin : kobjKsetJoin s kobj with
    | error e => simp [hk, hjoin, bind, Except.bind] at h
    | ok s₁ =>
      simp only [hk, hjoin, bind, Except.bind, Except.ok.injEq, Prod.mk.injEq] at h
      obtain ⟨-, rfl⟩ := h
      have hkeeps : Keeps s s₁ := by
        simp only [kobjKsetJoin, hk] at hjoin
        exact keeps_of_locked (f := fun l => l.listAddTail (.entry kobj) (.list k)) hjoin
      exact ⟨hkeeps.kset, hkeeps.listLock, hkeeps.busLock, hkeeps.busKset, hkeeps.devicesKset,
        hkeeps.driversKset, hkeeps.allocs, hkeeps.released⟩

/-- `kobject_add` and `kobject_del` of an object without a set. -/
theorem kobjectAdd_none (hk : s.kset kobj = none) : kobjectAdd s kobj = .ok (0, s) := by
  unfold kobjectAdd
  simp only [hk]

theorem kobjectDel_none (hk : s.kset kobj = none) :
    kobjectDel s kobj = .ok { s with parent := Function.update s.parent kobj none } := by
  unfold kobjectDel kobjKsetLeave
  simp only [hk]
  rfl

end YakOS.Driver
