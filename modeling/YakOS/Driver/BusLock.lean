import YakOS.Driver.Bus

/-!
# The lock of a bus

The operations of `drivers/base/bus.c` on a bus with devices and drivers, run by
themselves from a state in which `bus->lock` is free.  `bus_probe_device`,
`bus_remove_device` and `bus_add_driver` take the lock and then call an iterator that takes
it again, which never succeeds.  `bus_remove_driver` unlinks a device under the feet of its
own loop, and follows the null pointer that `list_del` leaves behind.

## Main definitions

* `busForEachDev`, `busForEachDrv`, `busFindDevice`, `busProbeDevice`, `busRemoveDevice`,
  `busAddDriver`, `busRemoveDriver` — the code.
* `BusOp` — a call of one of them.
* `LockSafe` — the call returns, with the lock free; `BusOp.Returns` — when it does.

## Main results

* `forEachEntry_ok`, `forEachEntry_unlinked` — the loop over a list that the body leaves alone,
  and over one it takes a node from.
* `bus_lock_safe_iff` — **the calls that return with the lock free.**
-/

namespace YakOS.Driver

open Links

/-- The callbacks of the drivers, which do not touch the bus: what they return for a device. -/
structure Callbacks where
  probe : ℕ → Option (ℕ → ℤ)
  remove : ℕ → Option (ℕ → ℤ)

section Code

variable (s : DriverModel)

/-- `down(&bus->lock)`. -/
def DriverModel.downBus (bus : ℕ) : Except Stuck DriverModel :=
  if 0 < s.busLock bus then
    .ok { s with busLock := Function.update s.busLock bus (s.busLock bus - 1) }
  else .error .busLock

/-- `up(&bus->lock)`. -/
def DriverModel.upBus (bus : ℕ) : DriverModel :=
  { s with busLock := Function.update s.busLock bus (s.busLock bus + 1) }

/-- `list_for_each_entry` from the node `cur` on: the body says whether it breaks out of the
loop. -/
def forEachEntry (head : Node) (body : DriverModel → Node → Except Stuck (DriverModel × Bool)) :
    ℕ → Node → DriverModel → Except Stuck DriverModel
  | 0, _, _ => .error .loop
  | fuel + 1, cur, s =>
    if cur = head then .ok s
    else do
      let (s, break?) ← body s cur
      if break? then .ok s
      else
        match s.links.next cur with
        | none => .error .null
        | some next => forEachEntry head body fuel next s

/-- `list_for_each_entry`. -/
def forEach (fuel : ℕ) (head : Node)
    (body : DriverModel → Node → Except Stuck (DriverModel × Bool)) : Except Stuck DriverModel :=
  match s.links.next head with
  | none => .error .null
  | some first => forEachEntry head body fuel first s

/-- `kobj_to_dev`. -/
def kobjToDev : Node → Option ℕ
  | .entry (.device dev) => some dev
  | _ => none

/-- `kobj_to_drv`. -/
def kobjToDrv : Node → Option ℕ
  | .entry (.driver drv) => some drv
  | _ => none

/-- The loop over the list of a set of the bus, under the lock. -/
def busForEach (fuel : ℕ) (bus : ℕ) (kset : Option ℕ)
    (body : DriverModel → Node → Except Stuck (DriverModel × Bool)) : Except Stuck DriverModel := do
  let s ← s.downBus bus
  match kset with
  | none => .error .null
  | some k =>
    let s ← forEach s fuel (.list k) body
    .ok (s.upBus bus)

/-- A body that calls `fn` for the structure of the node. -/
def callBody (of : Node → Option ℕ) (fn : DriverModel → ℕ → Except Stuck DriverModel)
    (s : DriverModel) (cur : Node) : Except Stuck (DriverModel × Bool) :=
  match of cur with
  | none => .error .null
  | some n => (fn s n).map fun s => (s, false)

/-- `bus_for_each_dev`. -/
def busForEachDev (fuel : ℕ) (bus : ℕ) (fn : DriverModel → ℕ → Except Stuck DriverModel) :
    Except Stuck DriverModel :=
  busForEach s fuel bus (s.devicesKset bus) (callBody kobjToDev fn)

/-- `bus_for_each_drv`. -/
def busForEachDrv (fuel : ℕ) (bus : ℕ) (fn : DriverModel → ℕ → Except Stuck DriverModel) :
    Except Stuck DriverModel :=
  busForEach s fuel bus (s.driversKset bus) (callBody kobjToDrv fn)

/-- `bus_find_device`. -/
def busFindDevice (fuel : ℕ) (bus : ℕ) (isMatch : ℕ → Bool) : Except Stuck DriverModel :=
  busForEach s fuel bus (s.devicesKset bus) fun s cur =>
    match kobjToDev cur with
    | none => .error .null
    | some dev => .ok (s, isMatch dev)

/-- `add_dev`. -/
def addDev (cb : Callbacks) (drv dev : ℕ) : Except Stuck DriverModel :=
  match cb.probe drv with
  | none => .ok s
  | some probe =>
    if probe dev = 0 then s.relink (s.links.listAddTail (.driverEntry dev) (.listDevices drv))
    else .ok s

/-- `add_drv`. -/
def addDrv (cb : Callbacks) (dev drv : ℕ) : Except Stuck DriverModel := addDev s cb drv dev

/-- `remove_dev`, which is also the body of the loop of `bus_remove_driver`. -/
def removeDev (cb : Callbacks) (drv dev : ℕ) : Except Stuck DriverModel :=
  match cb.remove drv with
  | none => .ok s
  | some remove =>
    if remove dev = 0 then s.relink (s.links.listDel (.driverEntry dev)) else .ok s

/-- `bus_probe_device`. -/
def busProbeDevice (fuel : ℕ) (cb : Callbacks) (dev : ℕ) : Except Stuck DriverModel :=
  match s.deviceBus dev with
  | none => .ok s
  | some bus => do
    let s ← s.downBus bus
    let s ← busForEachDrv s fuel bus fun s drv => addDev s cb drv dev
    .ok (s.upBus bus)

/-- `bus_remove_device`. -/
def busRemoveDevice (fuel : ℕ) (cb : Callbacks) (dev : ℕ) : Except Stuck DriverModel :=
  match s.deviceBus dev with
  | none => .ok s
  | some bus => do
    let s ← s.downBus bus
    let s ← busForEachDrv s fuel bus fun s drv => removeDev s cb drv dev
    let s ← kobjectDel s (.device dev)
    .ok (s.upBus bus)

/-- `bus_add_driver`. -/
def busAddDriver (fuel : ℕ) (cb : Callbacks) (drv : ℕ) : Except Stuck DriverModel :=
  match s.driverBus drv with
  | none => .ok s
  | some bus => do
    let s ← s.downBus bus
    let s := { s with kset := Function.update s.kset (.driver drv) (s.driversKset bus) }
    let (_, s) ← kobjectAdd s (.driver drv)
    let s ← busForEachDev s fuel bus fun s dev => addDrv s cb dev drv
    .ok (s.upBus bus)

/-- The device of a node of `list_devices`. -/
def driverEntryToDev : Node → Option ℕ
  | .driverEntry dev => some dev
  | _ => none

/-- `bus_remove_driver`, which does not look whether there is a bus. -/
def busRemoveDriver (fuel : ℕ) (cb : Callbacks) (drv : ℕ) : Except Stuck DriverModel :=
  match s.driverBus drv with
  | none => .error .null
  | some bus => do
    let s ← s.downBus bus
    let s ← kobjectDel s (.driver drv)
    let s ← forEach s fuel (.listDevices drv)
      (callBody driverEntryToDev fun s dev => removeDev s cb drv dev)
    .ok (s.upBus bus)

end Code

/-! ### Loops -/

section Loops

variable {s : DriverModel} {head : Node} {xs : List Node}
  {body : DriverModel → Node → Except Stuck (DriverModel × Bool)}

/-- Where a loop over `xs` starts: at the first node, or at the head. -/
theorem exists_first (xs : List Node) (head : Node) : ∃ first, (xs ++ [head]).head? = some first := by
  cases xs with
  | nil => exact ⟨head, rfl⟩
  | cons x xs => exact ⟨x, rfl⟩

/-- A loop over a list whose links the body leaves alone comes to an end, and keeps what the
body keeps. -/
theorem forEachEntry_ok {l : Links Node} (hring : Ring l head xs) {I : DriverModel → Prop}
    (hnext : ∀ s, I s → ∀ x ∈ xs, s.links.next x = l.next x)
    (hbody : ∀ s, I s → ∀ x ∈ xs, ∃ s' b, body s x = .ok (s', b) ∧ I s') (hI : I s)
    (zs : List Node) {ys : List Node} (hxs : xs = zs ++ ys) {cur : Node}
    (hcur : some cur = (ys ++ [head]).head?) :
    ∃ fuel s', forEachEntry head body fuel cur s = .ok s' ∧ I s' := by
  induction ys generalizing s cur zs with
  | nil =>
    obtain rfl : cur = head := by simpa using hcur
    exact ⟨1, s, if_pos rfl, hI⟩
  | cons y ys ih =>
    obtain rfl : cur = y := by simpa using hcur
    have hmem : cur ∈ xs := by simp [hxs]
    have hne : cur ≠ head := fun h => (List.nodup_cons.mp hring.nodup).1 (h ▸ hmem)
    obtain ⟨s₁, b, hs₁, hI₁⟩ := hbody s hI cur hmem
    cases b with
    | true =>
      refine ⟨1, s₁, ?_, hI₁⟩
      unfold forEachEntry
      simp [hne, hs₁, bind, Except.bind]
    | false =>
      have hring' : Ring l head (zs ++ cur :: ys) := hxs ▸ hring
      have hstep : s₁.links.next cur = (ys ++ [head]).head? :=
        (hnext s₁ hI₁ cur hmem).trans hring'.next_mem
      obtain ⟨next, hnext'⟩ := exists_first ys head
      obtain ⟨fuel, s', hloop, hI'⟩ := ih (s := s₁) hI₁ (zs ++ [cur]) (by simp [hxs])
        hnext'.symm
      refine ⟨fuel + 1, s', ?_, hI'⟩
      unfold forEachEntry
      simp [hne, hs₁, bind, Except.bind, hstep, hnext', hloop]

/-- A loop over a list from which the body takes the node it is called for does not come to an
end. -/
theorem forEachEntry_unlinked (hring : Ring s.links head xs) (bad : Node → Prop)
    (hgood : ∀ x ∈ xs, ¬ bad x → body s x = .ok (s, false))
    (hbad : ∀ x ∈ xs, bad x → ∀ s' b, body s x = .ok (s', b) → b = false ∧ s'.links.next x = none)
    (zs : List Node) {ys : List Node} (hxs : xs = zs ++ ys) (hex : ∃ y ∈ ys, bad y) {cur : Node}
    (hcur : some cur = (ys ++ [head]).head?) (fuel : ℕ) :
    ∀ s', forEachEntry head body fuel cur s ≠ .ok s' := by
  induction ys generalizing cur zs fuel with
  | nil =>
    obtain ⟨y, hy, -⟩ := hex
    cases hy
  | cons y ys ih =>
    obtain rfl : cur = y := by simpa using hcur
    have hmem : cur ∈ xs := by simp [hxs]
    have hne : cur ≠ head := fun h => (List.nodup_cons.mp hring.nodup).1 (h ▸ hmem)
    intro s'
    cases fuel with
    | zero => simp [forEachEntry]
    | succ fuel =>
      unfold forEachEntry
      rw [if_neg hne]
      by_cases hcbad : bad cur
      · cases hb : body s cur with
        | error e => simp [bind, Except.bind]
        | ok r =>
          obtain ⟨hfalse, hnull⟩ := hbad cur hmem hcbad r.1 r.2 hb
          simp [bind, Except.bind, hfalse, hnull]
      · have hring' : Ring s.links head (zs ++ cur :: ys) := hxs ▸ hring
        obtain ⟨next, hnext⟩ := exists_first ys head
        have hex' : ∃ y ∈ ys, bad y := by
          obtain ⟨y, hy, hybad⟩ := hex
          rcases List.mem_cons.mp hy with rfl | hy
          · exact absurd hybad hcbad
          · exact ⟨y, hy, hybad⟩
        simp only [hgood cur hmem hcbad, bind, Except.bind, Bool.false_eq_true, if_false,
          hring'.next_mem, hnext]
        exact ih (zs ++ [cur]) (by simp [hxs]) hex' hnext.symm fuel s'

end Loops

/-! ### Calls on a bus -/

/-- A call on a bus, with the callback it passes. -/
inductive BusOp
  | forEachDev (fn : DriverModel → ℕ → Except Stuck DriverModel)
  | forEachDrv (fn : DriverModel → ℕ → Except Stuck DriverModel)
  | findDevice (isMatch : ℕ → Bool)
  | probeDevice (dev : ℕ)
  | removeDevice (dev : ℕ)
  | addDriver (drv : ℕ)
  | removeDriver (drv : ℕ)

/-- The call, run by itself. -/
def BusOp.run (s : DriverModel) (cb : Callbacks) (bus fuel : ℕ) : BusOp → Except Stuck DriverModel
  | .forEachDev fn => busForEachDev s fuel bus fn
  | .forEachDrv fn => busForEachDrv s fuel bus fn
  | .findDevice isMatch => busFindDevice s fuel bus isMatch
  | .probeDevice dev => busProbeDevice s fuel cb dev
  | .removeDevice dev => busRemoveDevice s fuel cb dev
  | .addDriver drv => busAddDriver s fuel cb drv
  | .removeDriver drv => busRemoveDriver s fuel cb drv

/-- The call returns, and the lock is free again.  From a state in which it is free, a second
`down` in the same call does not return. -/
def LockSafe (s : DriverModel) (cb : Callbacks) (bus : ℕ) (op : BusOp) : Prop :=
  ∃ fuel s', op.run s cb bus fuel = .ok s' ∧ s'.busLock bus = 1

/-- The two sets of the bus exist and their lists are in order. -/
structure BusWf (s : DriverModel) (bus : ℕ) : Prop where
  devices : ∃ (k : ℕ) (devs : List ℕ), s.devicesKset bus = some k ∧
    Ring s.links (.list k) (devs.map fun d => .entry (.device d))
  drivers : ∃ (k : ℕ) (drvs : List ℕ), s.driversKset bus = some k ∧
    Ring s.links (.list k) (drvs.map fun d => .entry (.driver d))

/-- The devices that a driver has taken. -/
def Attached (s : DriverModel) (drv : ℕ) (devs : List ℕ) : Prop :=
  Ring s.links (.listDevices drv) (devs.map .driverEntry)

/-- The lists a driver is part of are in order. -/
structure DriverWf (s : DriverModel) (drv : ℕ) : Prop where
  attached : ∃ devs, Attached s drv devs
  linked : ∀ k, s.kset (.driver drv) = some k → ∃ drvs : List ℕ, drv ∈ drvs ∧
    Ring s.links (.list k) (drvs.map fun d => .entry (.driver d))

/-- A callback that does not touch the bus. -/
def LeavesBus (bus : ℕ) (fn : DriverModel → ℕ → Except Stuck DriverModel) : Prop :=
  ∀ s n, ∃ s', fn s n = .ok s' ∧ s'.busLock bus = s.busLock bus ∧
    ∀ kobj, s'.links.next (.entry kobj) = s.links.next (.entry kobj)

/-- The call is one on this bus, and its callback does not touch it. -/
def BusOp.On (s : DriverModel) (bus : ℕ) : BusOp → Prop
  | .forEachDev fn | .forEachDrv fn => LeavesBus bus fn
  | .findDevice _ => True
  | .probeDevice dev | .removeDevice dev => s.deviceBus dev = some bus
  | .addDriver drv => s.driverBus drv = some bus
  | .removeDriver drv => s.driverBus drv = some bus ∧ DriverWf s drv

/-- When the call returns: an iterator always does; a call that takes the lock and then calls an
iterator never does; and `bus_remove_driver` does when nobody is at work on the set of the driver
and its `remove`, if there is one, fails for every device it has taken. -/
def BusOp.Returns (s : DriverModel) (cb : Callbacks) : BusOp → Prop
  | .forEachDev _ | .forEachDrv _ | .findDevice _ => True
  | .probeDevice _ | .removeDevice _ | .addDriver _ => False
  | .removeDriver drv =>
    (∀ k, s.kset (.driver drv) = some k → 0 < s.listLock k) ∧
      ∀ remove devs, cb.remove drv = some remove → Attached s drv devs → ∀ dev ∈ devs, remove dev ≠ 0

section Calls

variable {s : DriverModel} {cb : Callbacks} {bus : ℕ}

theorem downBus_free (h : s.busLock bus = 1) :
    s.downBus bus = .ok { s with busLock := Function.update s.busLock bus 0 } := by
  unfold DriverModel.downBus
  rw [if_pos (by omega), h]

theorem downBus_taken (h : s.busLock bus = 0) : s.downBus bus = .error .busLock := by
  unfold DriverModel.downBus
  rw [if_neg (by omega)]

/-- The loop over the objects of a set. -/
theorem busForEach_ok (hfree : s.busLock bus = 1) {k : ℕ} {ns : List ℕ} {kobj : ℕ → Kobj}
    (hring : Ring s.links (.list k) (ns.map fun n => .entry (kobj n)))
    {body : DriverModel → Node → Except Stuck (DriverModel × Bool)}
    (hbody : ∀ s n, ∃ s' b, body s (.entry (kobj n)) = .ok (s', b) ∧
      s'.busLock bus = s.busLock bus ∧
      ∀ kobj, s'.links.next (.entry kobj) = s.links.next (.entry kobj)) :
    ∃ fuel s', busForEach s fuel bus (some k) body = .ok s' ∧ s'.busLock bus = 1 := by
  -- the lock stays taken, and the entries stay linked as they are
  let I : DriverModel → Prop := fun t =>
    t.busLock bus = 0 ∧ ∀ kobj, t.links.next (.entry kobj) = s.links.next (.entry kobj)
  obtain ⟨first, hfirst⟩ := exists_first (ns.map fun n => Node.entry (kobj n)) (.list k)
  have hlinks : ∀ t, I t → ∀ x ∈ ns.map fun n => Node.entry (kobj n),
      t.links.next x = s.links.next x := by
    intro t ht x hx
    obtain ⟨n, -, rfl⟩ := List.mem_map.mp hx
    exact ht.2 (kobj n)
  have hkeep : ∀ t, I t → ∀ x ∈ ns.map fun n => Node.entry (kobj n),
      ∃ t' b, body t x = .ok (t', b) ∧ I t' := by
    intro t ht x hx
    obtain ⟨n, -, rfl⟩ := List.mem_map.mp hx
    obtain ⟨t', b, hb, hlock, hnext⟩ := hbody t n
    exact ⟨t', b, hb, hlock.trans ht.1, fun kobj => (hnext kobj).trans (ht.2 kobj)⟩
  have hstart : I { s with busLock := Function.update s.busLock bus 0 } :=
    ⟨Function.update_self _ _ _, fun _ => rfl⟩
  obtain ⟨fuel, s', hloop, hI⟩ :=
    forEachEntry_ok hring hlinks hkeep hstart [] rfl hfirst.symm
  refine ⟨fuel, s'.upBus bus, ?_, ?_⟩
  · unfold busForEach forEach
    simp only [downBus_free hfree, bind, Except.bind, hring.next_head, hfirst, hloop]
  · simp [DriverModel.upBus, hI.1]

theorem callBody_of {of : Node → Option ℕ} {x : Node} {n : ℕ} (hx : of x = some n)
    {fn : DriverModel → ℕ → Except Stuck DriverModel} (hfn : LeavesBus bus fn) (s : DriverModel) :
    ∃ s' b, callBody of fn s x = .ok (s', b) ∧ s'.busLock bus = s.busLock bus ∧
      ∀ kobj, s'.links.next (.entry kobj) = s.links.next (.entry kobj) := by
  obtain ⟨s', hs', hkeep⟩ := hfn s n
  refine ⟨s', false, ?_, hkeep⟩
  unfold callBody
  simp [hx, hs', Except.map]

theorem lockSafe_forEachDev (hfree : s.busLock bus = 1) (hwf : BusWf s bus)
    {fn : DriverModel → ℕ → Except Stuck DriverModel} (hfn : LeavesBus bus fn) :
    LockSafe s cb bus (.forEachDev fn) := by
  obtain ⟨k, devs, hk, hring⟩ := hwf.devices
  unfold LockSafe BusOp.run busForEachDev
  rw [hk]
  apply busForEach_ok hfree hring
  intro t d
  exact callBody_of (n := d) rfl hfn t

theorem lockSafe_forEachDrv (hfree : s.busLock bus = 1) (hwf : BusWf s bus)
    {fn : DriverModel → ℕ → Except Stuck DriverModel} (hfn : LeavesBus bus fn) :
    LockSafe s cb bus (.forEachDrv fn) := by
  obtain ⟨k, drvs, hk, hring⟩ := hwf.drivers
  unfold LockSafe BusOp.run busForEachDrv
  rw [hk]
  apply busForEach_ok hfree hring
  intro t d
  exact callBody_of (n := d) rfl hfn t

theorem lockSafe_findDevice (hfree : s.busLock bus = 1) (hwf : BusWf s bus) (isMatch : ℕ → Bool) :
    LockSafe s cb bus (.findDevice isMatch) := by
  obtain ⟨k, devs, hk, hring⟩ := hwf.devices
  unfold LockSafe BusOp.run busFindDevice
  rw [hk]
  apply busForEach_ok hfree hring
  intro t d
  exact ⟨t, isMatch d, rfl, rfl, fun _ => rfl⟩

/-- An iterator called with the lock taken never returns. -/
theorem busForEach_taken (h : s.busLock bus = 0) (fuel : ℕ) (kset : Option ℕ)
    (body : DriverModel → Node → Except Stuck (DriverModel × Bool)) :
    busForEach s fuel bus kset body = .error .busLock := by
  unfold busForEach
  rw [downBus_taken h]
  rfl

/-- The three calls that take the lock twice. -/
theorem run_probeDevice (hfree : s.busLock bus = 1) {dev : ℕ} (hbus : s.deviceBus dev = some bus)
    (fuel : ℕ) : (BusOp.probeDevice dev).run s cb bus fuel = .error .busLock := by
  unfold BusOp.run busProbeDevice busForEachDrv
  simp only [hbus, downBus_free hfree, bind, Except.bind]
  rw [busForEach_taken (Function.update_self _ _ _)]

theorem run_removeDevice (hfree : s.busLock bus = 1) {dev : ℕ} (hbus : s.deviceBus dev = some bus)
    (fuel : ℕ) : (BusOp.removeDevice dev).run s cb bus fuel = .error .busLock := by
  unfold BusOp.run busRemoveDevice busForEachDrv
  simp only [hbus, downBus_free hfree, bind, Except.bind]
  rw [busForEach_taken (Function.update_self _ _ _)]

theorem run_addDriver (hfree : s.busLock bus = 1) {drv : ℕ} (hbus : s.driverBus drv = some bus)
    (fuel : ℕ) (s' : DriverModel) : (BusOp.addDriver drv).run s cb bus fuel ≠ .ok s' := by
  unfold BusOp.run busAddDriver busForEachDev
  simp only [hbus, downBus_free hfree, bind, Except.bind]
  split
  · simp
  · rename_i r hadd
    have hkeeps := kobjectAdd_keeps hadd
    rw [busForEach_taken (by rw [hkeeps.busLock]; exact Function.update_self _ _ _)]
    simp

/-! ### `bus_remove_driver` -/

/-- Only the nodes of `list_devices` matter to the devices a driver has taken. -/
theorem Attached.congr {s' : DriverModel} {drv : ℕ} {devs : List ℕ} (h : Attached s drv devs)
    (hlist : ∀ n, (∀ kobj, n ≠ .entry kobj) → (∀ k, n ≠ .list k) →
      s'.links.next n = s.links.next n ∧ s'.links.prev n = s.links.prev n) :
    Attached s' drv devs := by
  have hnode : ∀ y ∈ Node.listDevices drv :: devs.map .driverEntry,
      s'.links.next y = s.links.next y ∧ s'.links.prev y = s.links.prev y := by
    intro y hy
    rcases List.mem_cons.mp hy with rfl | hy
    · exact hlist _ (by simp) (by simp)
    · obtain ⟨d, -, rfl⟩ := List.mem_map.mp hy
      exact hlist _ (by simp) (by simp)
  exact Ring.congr h (fun y hy => (hnode y hy).1) fun y hy => (hnode y hy).2

/-- Taking the driver off its set leaves the devices it has taken alone. -/
theorem DriverWf.kobjectDel {drv : ℕ} (hwf : DriverWf s drv)
    (hfree : ∀ k, s.kset (.driver drv) = some k → 0 < s.listLock k) :
    ∃ s', kobjectDel s (.driver drv) = .ok s' ∧ Keeps s s' ∧
      ∀ devs, Attached s drv devs ↔ Attached s' drv devs := by
  rcases Option.eq_none_or_eq_some (s.kset (.driver drv)) with hk | ⟨k, hk⟩
  · exact ⟨_, kobjectDel_none hk, ⟨rfl, rfl, rfl, rfl, rfl, rfl, rfl, rfl⟩, fun _ => Iff.rfl⟩
  · obtain ⟨drvs, hmem, hring⟩ := hwf.linked k hk
    obtain ⟨as, bs, rfl⟩ := List.append_of_mem hmem
    rw [List.map_append, List.map_cons] at hring
    obtain ⟨s', hdel, hkeeps, -, hframe⟩ := kobjectDel_spec hk (hfree k hk) hring
    have hlist : ∀ n, (∀ kobj, n ≠ .entry kobj) → (∀ k, n ≠ .list k) →
        s'.links.next n = s.links.next n ∧ s'.links.prev n = s.links.prev n := by
      intro n hentry hset
      refine hframe n (hentry _) ?_
      intro hmem
      rcases List.mem_cons.mp hmem with rfl | hmem
      · exact hset k rfl
      · rw [← List.map_cons (f := fun d => Node.entry (.driver d)), ← List.map_append] at hmem
        obtain ⟨d, -, rfl⟩ := List.mem_map.mp hmem
        exact hentry _ rfl
    refine ⟨s', hdel, hkeeps, fun devs => ⟨fun h => h.congr hlist, fun h => h.congr ?_⟩⟩
    exact fun n h₁ h₂ => ⟨(hlist n h₁ h₂).1.symm, (hlist n h₁ h₂).2.symm⟩

/-- The loop of `bus_remove_driver`. -/
def removeLoop (s : DriverModel) (fuel : ℕ) (cb : Callbacks) (drv : ℕ) : Except Stuck DriverModel :=
  forEach s fuel (.listDevices drv)
    (callBody driverEntryToDev fun s dev => removeDev s cb drv dev)

theorem Attached.first {drv : ℕ} {devs : List ℕ} (h : Attached s drv devs) :
    ∃ first, s.links.next (.listDevices drv) = some first ∧
      some first = (devs.map Node.driverEntry ++ [Node.listDevices drv]).head? := by
  obtain ⟨first, hfirst⟩ := exists_first (devs.map Node.driverEntry) (.listDevices drv)
  exact ⟨first, (Ring.next_head h).trans hfirst, hfirst.symm⟩

/-- If `remove` fails for every device, the loop leaves everything as it is. -/
theorem removeLoop_ok {drv : ℕ} {devs : List ℕ} (hring : Attached s drv devs)
    (hfails : ∀ remove, cb.remove drv = some remove → ∀ dev ∈ devs, remove dev ≠ 0) :
    ∃ fuel, removeLoop s fuel cb drv = .ok s := by
  obtain ⟨first, hfirst, hhead⟩ := hring.first
  have hbody : ∀ t, t = s → ∀ x ∈ devs.map Node.driverEntry, ∃ t' b,
      callBody driverEntryToDev (fun s dev => removeDev s cb drv dev) t x = .ok (t', b) ∧ t' = s := by
    rintro t rfl x hx
    obtain ⟨d, hd, rfl⟩ := List.mem_map.mp hx
    refine ⟨t, false, ?_, rfl⟩
    unfold callBody removeDev
    cases hrm : cb.remove drv with
    | none => rfl
    | some remove => simp [driverEntryToDev, hfails remove hrm d hd, Except.map]
  obtain ⟨fuel, s', hloop, rfl⟩ := forEachEntry_ok (I := fun t => t = s) hring
    (fun t ht x _ => by rw [ht]) hbody rfl [] rfl hhead
  refine ⟨fuel, ?_⟩
  unfold removeLoop forEach
  rw [hfirst]
  exact hloop

/-- If `remove` succeeds for a device, the loop follows the null pointer that is left of its
entry. -/
theorem removeLoop_stuck {drv : ℕ} {devs : List ℕ} (hring : Attached s drv devs) {remove : ℕ → ℤ}
    (hremove : cb.remove drv = some remove) {dev : ℕ} (hdev : dev ∈ devs) (hzero : remove dev = 0)
    (fuel : ℕ) (s' : DriverModel) : removeLoop s fuel cb drv ≠ .ok s' := by
  obtain ⟨first, hfirst, hhead⟩ := hring.first
  unfold removeLoop forEach
  rw [hfirst]
  refine forEachEntry_unlinked hring (fun x => ∃ d, x = .driverEntry d ∧ remove d = 0) ?_ ?_
    [] rfl ⟨.driverEntry dev, List.mem_map_of_mem hdev, dev, rfl, hzero⟩ hhead fuel s'
  · intro x hx hgood
    obtain ⟨d, -, rfl⟩ := List.mem_map.mp hx
    have hne : remove d ≠ 0 := fun h => hgood ⟨d, rfl, h⟩
    simp [callBody, driverEntryToDev, removeDev, hremove, hne, Except.map]
  · rintro x hx ⟨d, rfl, hd⟩ t b ht
    obtain ⟨as, bs, hsplit⟩ := List.append_of_mem hx
    have hring' : Ring s.links (.listDevices drv) (as ++ .driverEntry d :: bs) := hsplit ▸ hring
    obtain ⟨l, hl, -, hnull, -⟩ := hring'.listDel
    simp only [callBody, driverEntryToDev, removeDev, hremove, hd, if_true, hl,
      DriverModel.relink, Except.map, Except.ok.injEq, Prod.mk.injEq] at ht
    obtain ⟨rfl, rfl⟩ := ht
    exact ⟨rfl, hnull⟩

theorem lockSafe_removeDriver_iff (hfree : s.busLock bus = 1) {drv : ℕ}
    (hbus : s.driverBus drv = some bus) (hwf : DriverWf s drv) :
    LockSafe s cb bus (.removeDriver drv) ↔ (BusOp.removeDriver drv).Returns s cb := by
  set s₁ : DriverModel := { s with busLock := Function.update s.busLock bus 0 } with hs₁
  have hrun : ∀ fuel, (BusOp.removeDriver drv).run s cb bus fuel =
      (kobjectDel s₁ (.driver drv)).bind fun s =>
        (removeLoop s fuel cb drv).map fun s => s.upBus bus := by
    intro fuel
    unfold BusOp.run busRemoveDriver removeLoop
    simp only [hbus, downBus_free hfree, bind, Except.bind, ← hs₁]
    rfl
  have hwf₁ : DriverWf s₁ drv := ⟨hwf.attached, hwf.linked⟩
  unfold LockSafe
  simp only [hrun]
  constructor
  · rintro ⟨fuel, s', hok, -⟩
    -- a call that returns has taken the lock of the kset
    have hlocks : ∀ k, s.kset (.driver drv) = some k → 0 < s.listLock k := by
      intro k hk
      by_contra hzero
      have hdel : kobjectDel s₁ (.driver drv) = .error .listLock := by
        unfold kobjectDel kobjKsetLeave
        simp [hs₁, hk, DriverModel.downList, hzero, bind, Except.bind]
      rw [hdel] at hok
      cases hok
    refine ⟨hlocks, ?_⟩
    intro remove devs hremove hatt dev hdev hzero
    obtain ⟨s₂, hdel, -, hiff⟩ := hwf₁.kobjectDel hlocks
    rw [hdel] at hok
    cases hloop : removeLoop s₂ fuel cb drv with
    | error e => simp [Except.bind, hloop, Except.map] at hok
    | ok s₃ => exact removeLoop_stuck ((hiff devs).mp hatt) hremove hdev hzero fuel s₃ hloop
  · rintro ⟨hlocks, hfails⟩
    obtain ⟨s₂, hdel, hkeeps, hiff⟩ := hwf₁.kobjectDel hlocks
    obtain ⟨devs, hatt⟩ := hwf.attached
    obtain ⟨fuel, hloop⟩ := removeLoop_ok ((hiff devs).mp hatt)
      fun remove hremove => hfails remove devs hremove hatt
    refine ⟨fuel, s₂.upBus bus, ?_, ?_⟩
    · rw [hdel]
      simp [Except.bind, hloop, Except.map]
    · simp [DriverModel.upBus, hkeeps.busLock, hs₁]

end Calls

/-- **The lock of a bus.**  From a state in which `bus->lock` is free, a call run by itself never
asks for the lock while it holds it, and returns with the lock free, exactly as `BusOp.Returns`
says. -/
theorem bus_lock_safe_iff {s : DriverModel} {cb : Callbacks} {bus : ℕ} (hfree : s.busLock bus = 1)
    (hwf : BusWf s bus) {op : BusOp} (hon : op.On s bus) :
    LockSafe s cb bus op ↔ op.Returns s cb := by
  cases op with
  | forEachDev fn => exact ⟨fun _ => trivial, fun _ => lockSafe_forEachDev hfree hwf hon⟩
  | forEachDrv fn => exact ⟨fun _ => trivial, fun _ => lockSafe_forEachDrv hfree hwf hon⟩
  | findDevice isMatch => exact ⟨fun _ => trivial, fun _ => lockSafe_findDevice hfree hwf isMatch⟩
  | probeDevice dev =>
    refine ⟨fun ⟨fuel, s', hok, _⟩ => ?_, False.elim⟩
    rw [run_probeDevice hfree hon] at hok
    cases hok
  | removeDevice dev =>
    refine ⟨fun ⟨fuel, s', hok, _⟩ => ?_, False.elim⟩
    rw [run_removeDevice hfree hon] at hok
    cases hok
  | addDriver drv =>
    exact ⟨fun ⟨fuel, s', hok, _⟩ => run_addDriver hfree hon fuel s' hok, False.elim⟩
  | removeDriver drv => exact lockSafe_removeDriver_iff hfree hon.1 hon.2

/-- Bus 7 without drivers or devices on its lists; its driver 2 has taken no device. -/
def quietBus : DriverModel :=
  { busesInit with
    devicesKset := fun _ => some 1
    driversKset := fun _ => some 2
    deviceBus := fun _ => some 7
    driverBus := fun _ => some 7
    allocs := 3 }

theorem ring_quietBus (head : Node) : Ring quietBus.links head [] where
  nodup := List.nodup_singleton _
  next p hp := by
    obtain rfl : p = (head, head) := by simpa [pairs] using hp
    rfl
  prev p hp := by
    obtain rfl : p = (head, head) := by simpa [pairs] using hp
    rfl

theorem busWf_quietBus : BusWf quietBus 7 :=
  ⟨⟨1, [], rfl, ring_quietBus _⟩, ⟨2, [], rfl, ring_quietBus _⟩⟩

/-- A bus without devices on its list, whose driver 2 has taken device 5. -/
theorem exists_attached : ∃ s : DriverModel, s.busLock 7 = 1 ∧ s.driverBus 2 = some 7 ∧ DriverWf s 2 ∧
    s.kset (.driver 2) = none ∧ Attached s 2 [5] ∧ s.devicesKset 7 = some 1 ∧
    Ring s.links (.list 1) [] ∧ BusWf s 7 := by
  obtain ⟨l, -, hring, hframe⟩ :=
    (ring_quietBus (.listDevices 2)).listAddTail (n := .driverEntry 5) (by simp)
  -- the lists of the two sets are still empty
  have hempty : ∀ k, Ring l (.list k) [] := by
    intro k
    have hother := hframe (.list k) (by simp) (by simp)
    refine (ring_quietBus (.list k)).congr ?_ ?_
    · intro y hy
      rw [List.mem_singleton.mp hy]
      exact hother.1
    · intro y hy
      rw [List.mem_singleton.mp hy]
      exact hother.2
  exact ⟨{ quietBus with links := l }, rfl, rfl, ⟨⟨[5], hring⟩, fun k hk => by cases hk⟩, rfl, hring, rfl,
    hempty 1, ⟨1, [], rfl, hempty 1⟩, ⟨2, [], rfl, hempty 2⟩⟩

/-- `bus_remove_driver` of the driver returns when its `remove` fails for the device. -/
theorem bus_lock_safe_iff_attached : ∃ s : DriverModel, s.busLock 7 = 1 ∧ BusWf s 7 ∧
    (BusOp.removeDriver 2).On s 7 ∧ Attached s 2 [5] ∧
      LockSafe s ⟨fun _ => none, fun _ => some fun _ => -1⟩ 7 (.removeDriver 2) := by
  obtain ⟨s, hfree, hbus, hwf, hkset, hatt, -, -, hlists⟩ := exists_attached
  have hon : (BusOp.removeDriver 2).On s 7 := ⟨hbus, hwf⟩
  refine ⟨s, hfree, hlists, hon, hatt, (bus_lock_safe_iff hfree hlists hon).mpr ⟨fun k hk => ?_, ?_⟩⟩
  · rw [hkset] at hk
    cases hk
  · intro remove devs hremove _ dev _
    obtain rfl := Option.some.inj hremove
    exact (by decide : (-1 : ℤ) ≠ 0)

/-- `bus_probe_device` of a device of the bus waits for the lock it holds. -/
theorem probe_device_stuck :
    ¬ ∀ (s : DriverModel) (cb : Callbacks) (bus : ℕ) (op : BusOp), s.busLock bus = 1 →
      BusWf s bus → op.On s bus → LockSafe s cb bus op := by
  intro h
  obtain ⟨fuel, s', hok, -⟩ :=
    h quietBus ⟨fun _ => none, fun _ => none⟩ 7 (.probeDevice 3) rfl busWf_quietBus rfl
  rw [run_probeDevice rfl rfl] at hok
  cases hok

end YakOS.Driver
