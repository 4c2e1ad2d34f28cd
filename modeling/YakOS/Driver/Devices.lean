import YakOS.Driver.BusLock

/-!
# The devices of a driver and of a bus

What `bus_remove_driver` does to the devices that a driver has taken, and what
`bus_find_device` finds among the devices of a bus.  The first unlinks the node its loop
stands on; the second returns a variable that is only assigned inside its loop.

## Main definitions

* `visited`, `removeCalls` — the nodes a loop comes to, and the devices `remove` is called for.
* `DevicePtr`, `busFindDeviceValue` — `bus_find_device` with the pointer it returns.
* `RemoveContract`, `FindContract` — what the calls are for.

## Main results

* `busFindDevice_eq` — the call with its value runs as the one without.
* `bus_devices_iff` — **when the two calls meet their contracts.**
-/

namespace YakOS.Driver

open Links

section Code

variable (s : DriverModel)

/-- The nodes for which `forEachEntry` runs its body. -/
def visited (head : Node) (body : DriverModel → Node → Except Stuck (DriverModel × Bool)) :
    ℕ → Node → DriverModel → List Node
  | 0, _, _ => []
  | fuel + 1, cur, s =>
    if cur = head then []
    else
      cur :: match body s cur with
        | .error _ => []
        | .ok (s, break?) =>
          if break? then []
          else
            match s.links.next cur with
            | none => []
            | some next => visited head body fuel next s

/-- The devices for which the loop of `bus_remove_driver` calls `remove`. -/
def removeLoopCalls (fuel : ℕ) (cb : Callbacks) (drv : ℕ) : List ℕ :=
  if (cb.remove drv).isNone then []
  else
    match s.links.next (.listDevices drv) with
    | none => []
    | some first =>
      (visited (.listDevices drv) (callBody driverEntryToDev fun s dev => removeDev s cb drv dev)
        fuel first s).filterMap driverEntryToDev

/-- The devices for which `bus_remove_driver` calls `remove`, in the order of the calls. -/
def removeCalls (fuel : ℕ) (cb : Callbacks) (drv : ℕ) : List ℕ :=
  match s.driverBus drv with
  | none => []
  | some bus =>
    match (s.downBus bus).bind fun s => kobjectDel s (.driver drv) with
    | .error _ => []
    | .ok s => removeLoopCalls s fuel cb drv

/-- The variable `dev` of `bus_find_device`. -/
inductive DevicePtr
  /-- Nothing has been assigned yet. -/
  | unassigned
  | null
  | device (dev : ℕ)
  deriving DecidableEq, Repr

/-- The loop of `bus_find_device` from the node `cur` on, with its variable. -/
def findLoop (head : Node) (isMatch : ℕ → Bool) : ℕ → Node → DevicePtr → Except Stuck DevicePtr
  | 0, _, _ => .error .loop
  | fuel + 1, cur, dev =>
    if cur = head then .ok dev
    else
      match kobjToDev cur with
      | none => .error .null
      | some d =>
        if isMatch d then .ok (.device d)
        else
          match s.links.next cur with
          | none => .error .null
          | some next => findLoop head isMatch fuel next .null

/-- `bus_find_device`: the pointer it returns. -/
def busFindDeviceValue (fuel : ℕ) (bus : ℕ) (isMatch : ℕ → Bool) : Except Stuck DevicePtr := do
  let s ← s.downBus bus
  match s.devicesKset bus with
  | none => .error .null
  | some k =>
    match s.links.next (.list k) with
    | none => .error .null
    | some first => findLoop s (.list k) isMatch fuel first .unassigned

end Code

/-- `bus_remove_driver` returns, has called `remove` once for each device the driver had taken, and
leaves exactly those on its list for which the call failed. -/
def RemoveContract (s : DriverModel) (cb : Callbacks) (drv : ℕ) (remove : ℕ → ℤ) (devs : List ℕ) :
    Prop :=
  ∃ fuel s', busRemoveDriver s fuel cb drv = .ok s' ∧ removeCalls s fuel cb drv = devs ∧
    Attached s' drv (devs.filter fun dev => remove dev ≠ 0)

/-- `bus_find_device` returns the first device that matches, and a null pointer if there is none. -/
def FindContract (s : DriverModel) (bus : ℕ) (isMatch : ℕ → Bool) (devs : List ℕ) : Prop :=
  ∃ fuel, busFindDeviceValue s fuel bus isMatch = .ok
    (match devs.find? isMatch with
    | none => .null
    | some dev => .device dev)

/-! ### `bus_remove_driver` -/

section Remove

variable {s : DriverModel} {cb : Callbacks} {bus drv : ℕ} {remove : ℕ → ℤ} {devs : List ℕ}

/-- A loop whose body leaves the state alone visits every node of the list. -/
theorem visited_of_keep {head : Node} {xs : List Node}
    {body : DriverModel → Node → Except Stuck (DriverModel × Bool)} (hring : Ring s.links head xs)
    (hbody : ∀ x ∈ xs, body s x = .ok (s, false)) (zs : List Node) {ys : List Node}
    (hxs : xs = zs ++ ys) {cur : Node} (hcur : some cur = (ys ++ [head]).head?) {fuel : ℕ}
    (hfuel : ys.length < fuel) :
    forEachEntry head body fuel cur s = .ok s ∧ visited head body fuel cur s = ys := by
  induction ys generalizing cur zs fuel with
  | nil =>
    obtain rfl : cur = head := by simpa using hcur
    obtain ⟨fuel, rfl⟩ := Nat.exists_eq_succ_of_ne_zero (Nat.ne_of_gt hfuel)
    exact ⟨if_pos rfl, if_pos rfl⟩
  | cons y ys ih =>
    obtain rfl : cur = y := by simpa using hcur
    obtain ⟨fuel, rfl⟩ := Nat.exists_eq_succ_of_ne_zero (Nat.ne_of_gt (Nat.zero_lt_of_lt hfuel))
    have hmem : cur ∈ xs := by simp [hxs]
    have hne : cur ≠ head := fun h => (List.nodup_cons.mp hring.nodup).1 (h ▸ hmem)
    have hring' : Ring s.links head (zs ++ cur :: ys) := hxs ▸ hring
    obtain ⟨next, hnext⟩ := exists_first ys head
    obtain ⟨hloop, hvisited⟩ := ih (zs ++ [cur]) (by simp [hxs]) hnext.symm
      (by rw [List.length_cons] at hfuel; omega : ys.length < fuel)
    constructor
    · rw [forEachEntry, if_neg hne]
      simp [hbody cur hmem, bind, Except.bind, hring'.next_mem, hnext, hloop]
    · rw [visited, if_neg hne, hbody cur hmem]
      simp [hring'.next_mem, hnext, hvisited]

/-- If `remove` fails for every device, it is called for each of them, and nothing changes. -/
theorem removeLoop_fails (hring : Attached s drv devs) (hremove : cb.remove drv = some remove)
    (hfails : ∀ dev ∈ devs, remove dev ≠ 0) :
    ∃ fuel, removeLoop s fuel cb drv = .ok s ∧ removeLoopCalls s fuel cb drv = devs := by
  obtain ⟨first, hfirst, hhead⟩ := hring.first
  have hbody : ∀ x ∈ devs.map Node.driverEntry,
      callBody driverEntryToDev (fun s dev => removeDev s cb drv dev) s x = .ok (s, false) := by
    intro x hx
    obtain ⟨d, hd, rfl⟩ := List.mem_map.mp hx
    simp [callBody, driverEntryToDev, removeDev, hremove, hfails d hd, Except.map]
  obtain ⟨hloop, hvisited⟩ := visited_of_keep hring hbody [] rfl hhead (Nat.lt_succ_self _)
  refine ⟨(devs.map Node.driverEntry).length + 1, ?_, ?_⟩
  · unfold removeLoop forEach
    rw [hfirst]
    exact hloop
  · unfold removeLoopCalls
    rw [hremove, if_neg (by simp), hfirst]
    dsimp only
    rw [hvisited, List.filterMap_map]
    exact List.filterMap_some

/-- Up to the loop, the call takes the lock and unlinks the driver. -/
theorem busRemoveDriver_eq (cb : Callbacks) (hfree : s.busLock bus = 1)
    (hbus : s.driverBus drv = some bus)
    (hwf : DriverWf s drv) (hlocks : ∀ k, s.kset (.driver drv) = some k → 0 < s.listLock k) :
    ∃ s₁, (∀ devs, Attached s drv devs ↔ Attached s₁ drv devs) ∧ ∀ fuel,
      busRemoveDriver s fuel cb drv = (removeLoop s₁ fuel cb drv).map (fun s => s.upBus bus) ∧
        removeCalls s fuel cb drv = removeLoopCalls s₁ fuel cb drv := by
  have hwf' : DriverWf { s with busLock := Function.update s.busLock bus 0 } drv :=
    ⟨hwf.attached, hwf.linked⟩
  obtain ⟨s₁, hdel, -, hiff⟩ := hwf'.kobjectDel hlocks
  refine ⟨s₁, hiff, fun fuel => ⟨?_, ?_⟩⟩
  · unfold busRemoveDriver
    simp only [hbus, downBus_free hfree, bind, Except.bind, hdel]
    rfl
  · unfold removeCalls
    simp only [hbus, downBus_free hfree, Except.bind, hdel]

theorem removeContract_iff (hfree : s.busLock bus = 1) (hbus : s.driverBus drv = some bus)
    (hwf : DriverWf s drv) (hlocks : ∀ k, s.kset (.driver drv) = some k → 0 < s.listLock k)
    (hremove : cb.remove drv = some remove) (hatt : Attached s drv devs) :
    RemoveContract s cb drv remove devs ↔ ∀ dev ∈ devs, remove dev ≠ 0 := by
  obtain ⟨s₁, hiff, hcall⟩ := busRemoveDriver_eq cb hfree hbus hwf hlocks
  have hatt₁ := (hiff devs).mp hatt
  constructor
  · rintro ⟨fuel, s', hok, -, -⟩ dev hdev hzero
    rw [(hcall fuel).1] at hok
    cases hloop : removeLoop s₁ fuel cb drv with
    | error e => simp [hloop, Except.map] at hok
    | ok s₂ => exact removeLoop_stuck hatt₁ hremove hdev hzero fuel s₂ hloop
  · intro hfails
    obtain ⟨fuel, hloop, hcalls⟩ := removeLoop_fails hatt₁ hremove hfails
    have hall : devs.filter (fun dev => remove dev ≠ 0) = devs :=
      List.filter_eq_self.mpr fun dev hdev => decide_eq_true (hfails dev hdev)
    refine ⟨fuel, s₁.upBus bus, ?_, ?_, ?_⟩
    · rw [(hcall fuel).1, hloop]
      rfl
    · rw [(hcall fuel).2, hcalls]
    · rw [hall]
      exact hatt₁

end Remove

/-! ### `bus_find_device` -/

section Find

variable {s : DriverModel} {bus : ℕ} {isMatch : ℕ → Bool} {devs : List ℕ}

/-- The loop of `busFindDevice` does what the one with the variable does. -/
theorem forEachEntry_findLoop {body : DriverModel → Node → Except Stuck (DriverModel × Bool)}
    (hnone : ∀ cur, kobjToDev cur = none → body s cur = .error .null)
    (hsome : ∀ cur d, kobjToDev cur = some d → body s cur = .ok (s, isMatch d)) (head : Node)
    (fuel : ℕ) (cur : Node) (dev : DevicePtr) :
    forEachEntry head body fuel cur s = (findLoop s head isMatch fuel cur dev).map fun _ => s := by
  induction fuel generalizing cur dev with
  | zero => rfl
  | succ fuel ih =>
    rw [forEachEntry, findLoop]
    split
    · rfl
    · cases hd : kobjToDev cur with
      | none =>
        rw [hnone cur hd]
        rfl
      | some d =>
        rw [hsome cur d hd]
        cases hm : isMatch d with
        | true => simp [hm, bind, Except.bind, Except.map]
        | false =>
          simp only [hm, bind, Except.bind, Bool.false_eq_true, if_false]
          cases s.links.next cur with
          | none => rfl
          | some next => exact ih next .null

/-- `busFindDevice` is this call without its value: the lock is given back, and nothing changes. -/
theorem busFindDevice_eq (hfree : s.busLock bus = 1) (fuel : ℕ) :
    busFindDevice s fuel bus isMatch = (busFindDeviceValue s fuel bus isMatch).map fun _ => s := by
  have hlock : Function.update (Function.update s.busLock bus 0) bus
      (Function.update s.busLock bus 0 bus + 1) = s.busLock := by
    rw [Function.update_idem, Function.update_self, Nat.zero_add, ← hfree, Function.update_eq_self]
  have hup : ({ s with busLock := Function.update s.busLock bus 0 } : DriverModel).upBus bus = s := by
    unfold DriverModel.upBus
    dsimp only
    rw [hlock]
  unfold busFindDevice busForEach forEach busFindDeviceValue
  simp only [downBus_free hfree, bind, Except.bind]
  cases s.devicesKset bus with
  | none => rfl
  | some k =>
    dsimp only
    cases s.links.next (.list k) with
    | none => rfl
    | some first =>
      dsimp only
      rw [forEachEntry_findLoop (fun cur hd => by rw [hd]) (fun cur d hd => by rw [hd]) (.list k) fuel
        first .unassigned]
      cases findLoop _ (.list k) isMatch fuel first .unassigned with
      | error e => rfl
      | ok dev => exact congrArg Except.ok hup

/-- Past the first device, the variable holds a null pointer until a device matches. -/
theorem findLoop_eq {head : Node}
    (hring : Ring s.links head (devs.map fun d => .entry (.device d))) (zs : List Node) {ds : List ℕ}
    (hdevs : (devs.map fun d => Node.entry (.device d)) = zs ++ ds.map fun d => .entry (.device d))
    {cur : Node} (hcur : some cur = ((ds.map fun d => Node.entry (.device d)) ++ [head]).head?)
    (dev : DevicePtr) {fuel : ℕ} (hfuel : ds.length < fuel) :
    findLoop s head isMatch fuel cur dev = .ok
      (match ds.find? isMatch with
      | some d => .device d
      | none => if ds = [] then dev else .null) := by
  induction ds generalizing cur zs dev fuel with
  | nil =>
    obtain rfl : cur = head := by simpa using hcur
    obtain ⟨fuel, rfl⟩ := Nat.exists_eq_succ_of_ne_zero (Nat.ne_of_gt hfuel)
    exact if_pos rfl
  | cons d ds ih =>
    obtain rfl : cur = .entry (.device d) := by simpa using hcur
    obtain ⟨fuel, rfl⟩ := Nat.exists_eq_succ_of_ne_zero (Nat.ne_of_gt (Nat.zero_lt_of_lt hfuel))
    rw [List.map_cons] at hdevs
    have hne : Node.entry (.device d) ≠ head := fun h =>
      (List.nodup_cons.mp hring.nodup).1 (h ▸ by rw [hdevs]; simp)
    have hring' : Ring s.links head
        (zs ++ .entry (.device d) :: ds.map fun d => .entry (.device d)) := hdevs ▸ hring
    obtain ⟨next, hnext⟩ := exists_first (ds.map fun d => Node.entry (.device d)) head
    rw [findLoop, if_neg hne]
    simp only [kobjToDev, List.find?_cons]
    cases hm : isMatch d with
    | true => simp
    | false =>
      have hrest := ih (zs ++ [.entry (.device d)]) (by rw [hdevs]; simp) hnext.symm .null
        (by rw [List.length_cons] at hfuel; omega : ds.length < fuel)
      simp only [Bool.false_eq_true, if_false, hring'.next_mem, hnext, hrest]
      cases ds.find? isMatch with
      | some d' => rfl
      | none => simp

theorem busFindDeviceValue_eq (hfree : s.busLock bus = 1) {k : ℕ} (hk : s.devicesKset bus = some k)
    (hring : Ring s.links (.list k) (devs.map fun d => .entry (.device d))) {fuel : ℕ}
    (hfuel : devs.length < fuel) :
    busFindDeviceValue s fuel bus isMatch = .ok
      (match devs.find? isMatch with
      | some d => .device d
      | none => if devs = [] then .unassigned else .null) := by
  obtain ⟨first, hfirst⟩ := exists_first (devs.map fun d => Node.entry (.device d)) (.list k)
  have hring' : Ring { s with busLock := Function.update s.busLock bus 0 }.links (.list k)
      (devs.map fun d => .entry (.device d)) := hring
  unfold busFindDeviceValue
  simp only [downBus_free hfree, bind, Except.bind, hk, hring.next_head, hfirst]
  exact findLoop_eq hring' [] rfl hfirst.symm .unassigned hfuel

theorem findContract_iff (hfree : s.busLock bus = 1) {k : ℕ} (hk : s.devicesKset bus = some k)
    (hring : Ring s.links (.list k) (devs.map fun d => .entry (.device d))) :
    FindContract s bus isMatch devs ↔ devs ≠ [] := by
  constructor
  · rintro ⟨fuel, hfind⟩ rfl
    cases fuel with
    | zero =>
      unfold busFindDeviceValue at hfind
      simp [downBus_free hfree, bind, Except.bind, hk, hring.next_head, findLoop] at hfind
    | succ fuel =>
      rw [busFindDeviceValue_eq hfree hk hring (Nat.succ_pos fuel)] at hfind
      cases hfind
  · intro hne
    refine ⟨devs.length + 1, ?_⟩
    rw [busFindDeviceValue_eq hfree hk hring (Nat.lt_succ_self _), if_neg hne]
    cases devs.find? isMatch <;> rfl

end Find

/-- **The devices of a driver and of a bus.**  From a state in which nobody is at work on the bus,
`bus_remove_driver` calls `remove` once for each device and leaves those for which it failed exactly when
it fails for all of them; and `bus_find_device` finds the first match, or nothing, exactly when there is
a device to look at. -/
theorem bus_devices_iff {s : DriverModel} {bus : ℕ} (hfree : s.busLock bus = 1) :
    (∀ cb drv remove devs, s.driverBus drv = some bus → DriverWf s drv →
      (∀ k, s.kset (.driver drv) = some k → 0 < s.listLock k) → cb.remove drv = some remove →
      Attached s drv devs →
        (RemoveContract s cb drv remove devs ↔ ∀ dev ∈ devs, remove dev ≠ 0)) ∧
    ∀ k devs isMatch, s.devicesKset bus = some k →
      Ring s.links (.list k) (devs.map fun d => .entry (.device d)) →
        (FindContract s bus isMatch devs ↔ devs ≠ []) :=
  ⟨fun _ _ _ _ hbus hwf hlocks hremove hatt => removeContract_iff hfree hbus hwf hlocks hremove hatt,
    fun _ _ _ hk hring => findContract_iff hfree hk hring⟩

/-- The `remove` of the driver fails for its device. -/
theorem bus_devices_iff_one : ∃ s : DriverModel, s.busLock 7 = 1 ∧ Attached s 2 [5] ∧
    RemoveContract s ⟨fun _ => none, fun _ => some fun _ => -1⟩ 2 (fun _ => -1) [5] := by
  obtain ⟨s, hfree, hbus, hwf, hkset, hatt, -⟩ := exists_attached
  have hlocks : ∀ k, s.kset (.driver 2) = some k → 0 < s.listLock k := fun k hk => by
    rw [hkset] at hk
    cases hk
  refine ⟨s, hfree, hatt, ?_⟩
  exact ((bus_devices_iff hfree).1 _ 2 _ [5] hbus hwf hlocks rfl hatt).mpr fun dev _ => by decide

/-- `remove` succeeds for the only device, and the call follows a null pointer; and no device is
looked for in an empty list. -/
theorem bus_devices_broken :
    (¬ ∀ (s : DriverModel) (cb : Callbacks) (bus drv : ℕ) (remove : ℕ → ℤ) (devs : List ℕ),
      s.busLock bus = 1 → s.driverBus drv = some bus → DriverWf s drv →
      (∀ k, s.kset (.driver drv) = some k → 0 < s.listLock k) → cb.remove drv = some remove →
      Attached s drv devs → RemoveContract s cb drv remove devs) ∧
    ¬ ∀ (s : DriverModel) (bus k : ℕ) (devs : List ℕ) (isMatch : ℕ → Bool), s.busLock bus = 1 →
      s.devicesKset bus = some k → Ring s.links (.list k) (devs.map fun d => .entry (.device d)) →
      FindContract s bus isMatch devs := by
  obtain ⟨s, hfree, hbus, hwf, hkset, hatt, hdevices, hempty, -⟩ := exists_attached
  have hlocks : ∀ k, s.kset (.driver 2) = some k → 0 < s.listLock k := fun k hk => by
    rw [hkset] at hk
    cases hk
  constructor
  · intro hall
    have hcon := hall s ⟨fun _ => none, fun _ => some fun _ => 0⟩ 7 2 (fun _ => 0) [5] hfree hbus hwf
      hlocks rfl hatt
    rw [removeContract_iff hfree hbus hwf hlocks rfl hatt] at hcon
    exact hcon 5 (List.mem_singleton_self 5) rfl
  · intro hall
    have hring : Ring s.links (.list 1) (([] : List ℕ).map fun d => .entry (.device d)) := hempty
    have hcon := hall s 7 1 [] (fun _ => true) hfree hdevices hring
    rw [findContract_iff hfree hdevices hring] at hcon
    exact hcon rfl

end YakOS.Driver
