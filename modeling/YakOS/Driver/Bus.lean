import YakOS.Driver.Kobject

/-!
# Buses

`bus_register` and `bus_unregister` of `drivers/base/bus.c`.  The labels of `bus_register`
undo what was done so far when an allocation fails.  There is no `return` before the first
of them, so a call that succeeds undoes its work as well, apart from the set of drivers,
and returns zero.  `bus_unregister` releases the set of drivers twice.

## Main definitions

* `busRegister`, `busUnregister` — the code.
* `Registered`, `RegisterContract`, `UnregisterContract` — what the calls are for.

## Main results

* `busRegister_spec` — the three ways through `bus_register`.
* `bus_contracts_iff` — **`bus_register` meets its contract exactly when an allocation fails,
  and `bus_unregister` never.**
-/

namespace YakOS.Driver

open Links

section Code

variable (s : DriverModel)

/-- The label `bus_devices_fail`. -/
def busDevicesFail (bus : ℕ) (retval : ℤ) : Except Stuck (ℤ × DriverModel) := do
  let s ← kobjectDel s (.bus bus)
  .ok (retval, s)

/-- The label `bus_drivers_fail`. -/
def busDriversFail (bus devices : ℕ) (retval : ℤ) : Except Stuck (ℤ × DriverModel) := do
  let s ← ksetUnregister s devices
  busDevicesFail (ksetRelease s devices) bus retval

/-- `bus_register` from the creation of the set of drivers on. -/
def busRegisterDrivers (ok : ℕ → Bool) (bus devices : ℕ) (retval : ℤ) :
    Except Stuck (ℤ × DriverModel) := do
  let (drivers, s) ← ksetCreateAndAdd s ok (.bus bus)
  let s := { s with driversKset := Function.update s.driversKset bus drivers }
  match drivers with
  | none => busDriversFail s bus devices (-1)
  | some _ =>
    -- the lock is set up, and the call goes on into the labels
    busDriversFail { s with busLock := Function.update s.busLock bus 1 } bus devices retval

/-- `bus_register` from the creation of the set of devices on. -/
def busRegisterDevices (ok : ℕ → Bool) (bus : ℕ) (retval : ℤ) :
    Except Stuck (ℤ × DriverModel) := do
  let (devices, s) ← ksetCreateAndAdd s ok (.bus bus)
  let s := { s with devicesKset := Function.update s.devicesKset bus devices }
  match devices with
  | none => busDevicesFail s bus (-1)
  | some devices => busRegisterDrivers s ok bus devices retval

/-- `bus_register`. -/
def busRegister (ok : ℕ → Bool) (bus : ℕ) : Except Stuck (ℤ × DriverModel) := do
  let s := { s with kset := Function.update s.kset (.bus bus) s.busKset }
  let (retval, s) ← kobjectAdd s (.bus bus)
  if retval ≠ 0 then .ok (retval, s) else busRegisterDevices s ok bus retval

/-- `kset_unregister` and `kset_release` of a set that may be `NULL`. -/
def ksetUnregister? : Option ℕ → Except Stuck DriverModel
  | none => .ok s
  | some k => ksetUnregister s k

/-- `kset_release(&kset->kobj)`; `kfree` of `NULL` does nothing. -/
def ksetRelease? : Option ℕ → DriverModel
  | none => s
  | some k => ksetRelease s k

/-- `bus_unregister`. -/
def busUnregister (bus : ℕ) : Except Stuck DriverModel := do
  let s ← ksetUnregister? s (s.driversKset bus)
  let s := ksetRelease? s (s.driversKset bus)
  let s ← ksetUnregister? s (s.devicesKset bus)
  -- the set of drivers again
  let s := ksetRelease? s (s.driversKset bus)
  kobjectDel s (.bus bus)

end Code

/-! ### What the calls are for -/

/-- The entries of buses. -/
def busEntries (buses : List ℕ) : List Node := buses.map fun b => .entry (.bus b)

/-- The buses linked in `bus_kset`. -/
def BusKsetHas (s : DriverModel) (buses : List ℕ) : Prop :=
  ∀ k, s.busKset = some k → Ring s.links (.list k) (busEntries buses)

/-- `bus_kset`, if it exists, is a set with these buses, and nobody is at work on it. -/
structure BusesWf (s : DriverModel) (buses : List ℕ) : Prop where
  has : BusKsetHas s buses
  free : ∀ k, s.busKset = some k → 0 < s.listLock k
  old : ∀ k, s.busKset = some k → k < s.allocs

/-- The bus is linked in `bus_kset`, and both its sets exist and are not released. -/
structure Registered (s : DriverModel) (bus : ℕ) : Prop where
  linked : ∃ k buses, s.busKset = some k ∧ Ring s.links (.list k) (busEntries buses) ∧ bus ∈ buses
  devices : ∃ k, s.devicesKset bus = some k ∧ k ∉ s.released
  drivers : ∃ k, s.driversKset bus = some k ∧ k ∉ s.released

/-- `bus_register` returns zero exactly when the bus is registered afterwards; otherwise
`bus_kset` is as before and every set created on the way is released. -/
def RegisterContract (s : DriverModel) (ok : ℕ → Bool) (bus : ℕ) (buses : List ℕ) : Prop :=
  ∃ r s', busRegister s ok bus = .ok (r, s') ∧ (r = 0 ↔ Registered s' bus) ∧
    (r ≠ 0 → s'.busKset = s.busKset ∧ BusKsetHas s' buses ∧
      ∀ k, s.allocs ≤ k → k < s'.allocs → ok k = true → k ∈ s'.released)

/-- `bus_unregister` releases each of the two sets of the bus once. -/
def UnregisterContract (s : DriverModel) (bus : ℕ) : Prop :=
  ∃ s', busUnregister s bus = .ok s' ∧
    ∀ k, s.devicesKset bus = some k ∨ s.driversKset bus = some k →
      s'.released.count k = s.released.count k + 1

/-! ### The ways through `bus_register` -/

/-- The memory after `kset_create_and_add` has set up a new set. -/
def newKset (s : DriverModel) (parent : Kobj) : DriverModel :=
  ksetInit { s with
    allocs := s.allocs + 1
    parent := Function.update s.parent (.kset s.allocs) (some parent)
    kset := Function.update s.kset (.kset s.allocs) none } s.allocs

theorem ksetCreateAndAdd_eq (s : DriverModel) (ok : ℕ → Bool) (parent : Kobj) :
    ksetCreateAndAdd s ok parent =
      if ok s.allocs = true then .ok (some s.allocs, newKset s parent)
      else .ok (none, { s with allocs := s.allocs + 1 }) := by
  unfold ksetCreateAndAdd ksetCreate
  by_cases hok : ok s.allocs = true
  · simp only [hok, if_true]
    unfold ksetRegister
    rw [kobjectAdd_none (Function.update_self _ _ _)]
    rfl
  · simp only [hok, Bool.false_eq_true, if_false]

/-- The memory on the way through `bus_register`: the bus is linked behind the others. -/
structure Joined (s s₁ : DriverModel) (bus : ℕ) (buses : List ℕ) : Prop where
  kset : s₁.kset (.bus bus) = s.busKset
  busKset : s₁.busKset = s.busKset
  free : ∀ k, s.busKset = some k → 0 < s₁.listLock k
  old : ∀ k, s.busKset = some k → k < s₁.allocs
  has : ∀ k, s.busKset = some k →
    Ring s₁.links (.list k) (busEntries buses ++ [.entry (.bus bus)])

section Register

variable {s s₁ : DriverModel} {bus : ℕ} {buses : List ℕ}

theorem mem_busEntries {x : Node} (h : x ∈ busEntries buses) : ∃ b ∈ buses, x = .entry (.bus b) := by
  obtain ⟨b, hb, rfl⟩ := List.mem_map.mp h
  exact ⟨b, hb, rfl⟩

theorem entry_not_mem (hbus : bus ∉ buses) (k : ℕ) :
    Node.entry (.bus bus) ∉ Node.list k :: busEntries buses := by
  intro hmem
  rcases List.mem_cons.mp hmem with h | h
  · cases h
  · obtain ⟨b, hb, heq⟩ := mem_busEntries h
    cases heq
    exact hbus hb

/-- The call of `kobject_add` in `bus_register`. -/
theorem BusesWf.join (hwf : BusesWf s buses) (hbus : bus ∉ buses) :
    ∃ s₁, kobjectAdd { s with kset := Function.update s.kset (.bus bus) s.busKset } (.bus bus) =
        .ok (0, s₁) ∧ Joined s s₁ bus buses ∧ s₁.allocs = s.allocs ∧ s₁.released = s.released := by
  have hkset : Function.update s.kset (.bus bus) s.busKset (.bus bus) = s.busKset :=
    Function.update_self _ _ _
  rcases Option.eq_none_or_eq_some s.busKset with hk | ⟨k, hk⟩
  · have hno : ∀ k, s.busKset ≠ some k := fun k h => by rw [hk] at h; cases h
    refine ⟨_, kobjectAdd_none (hkset.trans hk), ⟨hkset, rfl, ?_, ?_, ?_⟩, rfl, rfl⟩
    all_goals exact fun k h => absurd h (hno k)
  · obtain ⟨s₁, hadd, hkeeps, hring⟩ := kobjectAdd_spec
      (s := { s with kset := Function.update s.kset (.bus bus) s.busKset })
      (hkset.trans hk) (hwf.free k hk) (hwf.has k hk) (entry_not_mem hbus k)
    refine ⟨s₁, hadd, ⟨?_, hkeeps.busKset, ?_, ?_, ?_⟩, hkeeps.allocs, hkeeps.released⟩
    · rw [hkeeps.kset]
      exact hkset
    · intro k' hk'
      rw [hkeeps.listLock]
      exact hwf.free k' hk'
    · intro k' hk'
      rw [hkeeps.allocs]
      exact hwf.old k' hk'
    · intro k' hk'
      obtain rfl := Option.some.inj (hk.symm.trans hk')
      exact hring

/-- A new set is apart from `bus_kset`. -/
theorem Joined.withKset (hj : Joined s s₁ bus buses) (parent : Kobj) :
    Joined s (newKset s₁ parent) bus buses where
  kset := by
    show Function.update s₁.kset (.kset s₁.allocs) none (.bus bus) = s.busKset
    rw [Function.update_of_ne (by simp)]
    exact hj.kset
  busKset := hj.busKset
  free k hk := by
    have hold := hj.old k hk
    show 0 < Function.update s₁.listLock s₁.allocs 1 k
    rw [Function.update_of_ne (by omega)]
    exact hj.free k hk
  old k hk := Nat.lt_succ_of_lt (hj.old k hk)
  has k hk := by
    have hold := hj.old k hk
    have hother : ∀ y ∈ Node.list k :: (busEntries buses ++ [.entry (.bus bus)]),
        y ≠ .entry (.kset s₁.allocs) ∧ y ≠ .list s₁.allocs := by
      intro y hy
      rcases List.mem_cons.mp hy with rfl | hy
      · exact ⟨by simp, by simpa using hold.ne⟩
      · rcases List.mem_append.mp hy with hy | hy
        · obtain ⟨b, -, rfl⟩ := mem_busEntries hy
          simp
        · rw [List.mem_singleton.mp hy]
          simp
    refine (hj.has k hk).congr (fun y hy => ?_) fun y hy => ?_
    · simp [newKset, ksetInit, initListHead, setNext, setPrev,
        Function.update_of_ne (hother y hy).1, Function.update_of_ne (hother y hy).2]
    · simp [newKset, ksetInit, initListHead, setNext, setPrev,
        Function.update_of_ne (hother y hy).1, Function.update_of_ne (hother y hy).2]

/-- The fields that `Joined` looks at. -/
theorem Joined.congr {s₂ : DriverModel} (hj : Joined s s₁ bus buses)
    (hlinks : s₂.links = s₁.links) (hkset : s₂.kset = s₁.kset) (hbus : s₂.busKset = s₁.busKset)
    (hlock : s₂.listLock = s₁.listLock) (hallocs : s₁.allocs ≤ s₂.allocs) :
    Joined s s₂ bus buses where
  kset := by
    rw [hkset]
    exact hj.kset
  busKset := hbus.trans hj.busKset
  free k hk := by
    rw [hlock]
    exact hj.free k hk
  old k hk := (hj.old k hk).trans_le hallocs
  has k hk := by
    rw [hlinks]
    exact hj.has k hk

/-- The label `bus_devices_fail` leaves `bus_kset` as it was before the call. -/
theorem Joined.devicesFail (hj : Joined s s₁ bus buses) (retval : ℤ) :
    ∃ s₂, busDevicesFail s₁ bus retval = .ok (retval, s₂) ∧ s₂.busKset = s.busKset ∧
      BusKsetHas s₂ buses ∧ Keeps s₁ s₂ := by
  unfold busDevicesFail
  rcases Option.eq_none_or_eq_some s.busKset with hk | ⟨k, hk⟩
  · rw [kobjectDel_none (hj.kset.trans hk)]
    refine ⟨_, rfl, hj.busKset, fun k hcon => ?_, ⟨rfl, rfl, rfl, rfl, rfl, rfl, rfl, rfl⟩⟩
    exact absurd (hj.busKset.symm.trans hcon) (by rw [hk]; simp)
  · obtain ⟨s₂, hdel, hkeeps, hring, -⟩ :=
      kobjectDel_spec (hj.kset.trans hk) (hj.free k hk) (hj.has k hk)
    rw [hdel]
    refine ⟨s₂, rfl, hkeeps.busKset.trans hj.busKset, fun k' hk' => ?_, hkeeps⟩
    rw [hkeeps.busKset, hj.busKset, hk] at hk'
    obtain rfl := Option.some.inj hk'
    rwa [List.append_nil] at hring

/-- The label `bus_drivers_fail` releases the set of devices. -/
theorem Joined.driversFail (hj : Joined s s₁ bus buses) {devices : ℕ}
    (hset : s₁.kset (.kset devices) = none) (retval : ℤ) :
    ∃ s₂, busDriversFail s₁ bus devices retval = .ok (retval, s₂) ∧ s₂.busKset = s.busKset ∧
      BusKsetHas s₂ buses ∧ s₂.released = s₁.released ++ [devices] ∧ s₂.allocs = s₁.allocs ∧
      s₂.devicesKset = s₁.devicesKset ∧ s₂.driversKset = s₁.driversKset := by
  unfold busDriversFail ksetUnregister
  rw [kobjectDel_none hset]
  have hj' : Joined s (ksetRelease { s₁ with
      parent := Function.update s₁.parent (.kset devices) none } devices) bus buses :=
    hj.congr rfl rfl rfl rfl le_rfl
  obtain ⟨s₂, hfail, hbus, hhas, hkeeps⟩ := hj'.devicesFail retval
  exact ⟨s₂, hfail, hbus, hhas, hkeeps.released, hkeeps.allocs, hkeeps.devicesKset,
    hkeeps.driversKset⟩

/-- The set of drivers is created or not; the set of devices is released in both cases. -/
theorem Joined.registerDrivers (hj : Joined s s₁ bus buses) {devices : ℕ}
    (hold : devices < s₁.allocs) (hset : s₁.kset (.kset devices) = none) (ok : ℕ → Bool) :
    ∃ r s₂, busRegisterDrivers s₁ ok bus devices 0 = .ok (r, s₂) ∧ s₂.busKset = s.busKset ∧
      BusKsetHas s₂ buses ∧ s₂.released = s₁.released ++ [devices] ∧
      s₂.allocs = s₁.allocs + 1 ∧ s₂.devicesKset = s₁.devicesKset ∧
      (ok s₁.allocs = false ∧ r = -1 ∧ s₂.driversKset bus = none ∨
        ok s₁.allocs = true ∧ r = 0) := by
  unfold busRegisterDrivers
  rw [ksetCreateAndAdd_eq]
  by_cases hok : ok s₁.allocs = true
  · rw [if_pos hok]
    have hset' : (newKset s₁ (.bus bus)).kset (.kset devices) = none := by
      show Function.update s₁.kset (.kset s₁.allocs) none (.kset devices) = none
      rw [Function.update_of_ne (by simpa using hold.ne)]
      exact hset
    have hj' : Joined s { newKset s₁ (.bus bus) with
        driversKset := Function.update (newKset s₁ (.bus bus)).driversKset bus (some s₁.allocs)
        busLock := Function.update (newKset s₁ (.bus bus)).busLock bus 1 } bus buses :=
      (hj.withKset (.bus bus)).congr rfl rfl rfl rfl le_rfl
    obtain ⟨s₂, hfail, hbus, hhas, hreleased, hallocs, hdevices, -⟩ := hj'.driversFail hset' 0
    exact ⟨0, s₂, hfail, hbus, hhas, hreleased, hallocs, hdevices, Or.inr ⟨hok, rfl⟩⟩
  · rw [if_neg hok]
    have hj' : Joined s { s₁ with
        allocs := s₁.allocs + 1
        driversKset := Function.update s₁.driversKset bus none } bus buses :=
      hj.congr rfl rfl rfl rfl (Nat.le_succ _)
    obtain ⟨s₂, hfail, hbus, hhas, hreleased, hallocs, hdevices, hdrivers⟩ :=
      hj'.driversFail hset (-1)
    refine ⟨-1, s₂, hfail, hbus, hhas, hreleased, hallocs, hdevices, Or.inl ⟨?_, rfl, ?_⟩⟩
    · simpa using hok
    · rw [hdrivers]
      exact Function.update_self _ _ _

/-- What `bus_register` has done when it returns. -/
inductive RegisterCase (s : DriverModel) (ok : ℕ → Bool) (bus : ℕ) (r : ℤ) (s' : DriverModel) : Prop
  /-- The set of devices could not be allocated. -/
  | noDevices (hok : ok s.allocs = false) (hr : r = -1) (hallocs : s'.allocs = s.allocs + 1)
      (hdevices : s'.devicesKset bus = none)
  /-- The set of drivers could not be allocated. -/
  | noDrivers (hok : ok (s.allocs + 1) = false) (hr : r = -1) (hallocs : s'.allocs = s.allocs + 2)
      (hdrivers : s'.driversKset bus = none) (hreleased : s.allocs ∈ s'.released)
  /-- Both allocations have succeeded. -/
  | both (hok : ok s.allocs = true) (hok' : ok (s.allocs + 1) = true) (hr : r = 0)
      (hdevices : s'.devicesKset bus = some s.allocs) (hreleased : s.allocs ∈ s'.released)

/-- **`bus_register`** returns, `bus_kset` is as before, and the set of devices is released if it
was created. -/
theorem busRegister_spec (hwf : BusesWf s buses) (hbus : bus ∉ buses) (ok : ℕ → Bool) :
    ∃ r s', busRegister s ok bus = .ok (r, s') ∧ s'.busKset = s.busKset ∧ BusKsetHas s' buses ∧
      RegisterCase s ok bus r s' := by
  obtain ⟨s₁, hadd, hj, hallocs, -⟩ := hwf.join hbus
  have hcall : busRegister s ok bus = busRegisterDevices s₁ ok bus 0 := by
    unfold busRegister
    simp [hadd, bind, Except.bind]
  rw [hcall]
  unfold busRegisterDevices
  rw [ksetCreateAndAdd_eq]
  by_cases hok : ok s₁.allocs = true
  · rw [if_pos hok]
    have hj' : Joined s { newKset s₁ (.bus bus) with
        devicesKset := Function.update (newKset s₁ (.bus bus)).devicesKset bus (some s₁.allocs) }
        bus buses := (hj.withKset (.bus bus)).congr rfl rfl rfl rfl le_rfl
    -- the new set belongs to no set
    obtain ⟨r, s₂, hdrivers, hbus', hhas, hreleased, hallocs₂, hdevices, hcases⟩ :=
      hj'.registerDrivers (Nat.lt_succ_self s₁.allocs) (Function.update_self _ _ _) ok
    have hmem : s.allocs ∈ s₂.released := by
      rw [hreleased, ← hallocs]
      simp
    have hnext : (newKset s₁ (.bus bus)).allocs = s.allocs + 1 := congrArg (· + 1) hallocs
    simp only [hnext] at hcases hallocs₂
    refine ⟨r, s₂, hdrivers, hbus', hhas, ?_⟩
    rcases hcases with ⟨hok', hr, hnone⟩ | ⟨hok', hr⟩
    · exact .noDrivers hok' hr hallocs₂ hnone hmem
    · refine .both (hallocs ▸ hok) hok' hr ?_ hmem
      rw [hdevices, hallocs]
      exact Function.update_self _ _ _
  · rw [if_neg hok]
    have hj' : Joined s { s₁ with
        allocs := s₁.allocs + 1
        devicesKset := Function.update s₁.devicesKset bus none } bus buses :=
      hj.congr rfl rfl rfl rfl (Nat.le_succ _)
    obtain ⟨s₂, hfail, hbus', hhas, hkeeps⟩ := hj'.devicesFail (-1)
    refine ⟨-1, s₂, hfail, hbus', hhas, .noDevices ?_ rfl ?_ ?_⟩
    · rw [← hallocs]
      simpa using hok
    · rw [hkeeps.allocs, hallocs]
    · rw [hkeeps.devicesKset]
      exact Function.update_self _ _ _

theorem registerContract_iff (hwf : BusesWf s buses) (hbus : bus ∉ buses) (ok : ℕ → Bool) :
    RegisterContract s ok bus buses ↔ ok s.allocs = false ∨ ok (s.allocs + 1) = false := by
  obtain ⟨r, s', hreg, hbus', hhas, hcase⟩ := busRegister_spec hwf hbus ok
  -- the call has one outcome
  have hone : ∀ r₁ s₁, busRegister s ok bus = .ok (r₁, s₁) → r₁ = r ∧ s₁ = s' := by
    intro r₁ s₁ h₁
    rw [hreg] at h₁
    exact ⟨(congrArg Prod.fst (Except.ok.inj h₁)).symm, (congrArg Prod.snd (Except.ok.inj h₁)).symm⟩
  cases hcase with
  | noDevices hok hr hallocs hdevices =>
    refine ⟨fun _ => Or.inl hok, fun _ => ⟨r, s', hreg, ?_, fun _ => ⟨hbus', hhas, ?_⟩⟩⟩
    · refine ⟨fun h => by omega, ?_⟩
      intro h
      obtain ⟨k, hk, -⟩ := h.devices
      rw [hdevices] at hk
      cases hk
    · intro k hk hk' hokk
      obtain rfl : k = s.allocs := by omega
      rw [hok] at hokk
      cases hokk
  | noDrivers hok hr hallocs hdrivers hreleased =>
    refine ⟨fun _ => Or.inr hok, fun _ => ⟨r, s', hreg, ?_, fun _ => ⟨hbus', hhas, ?_⟩⟩⟩
    · refine ⟨fun h => by omega, ?_⟩
      intro h
      obtain ⟨k, hk, -⟩ := h.drivers
      rw [hdrivers] at hk
      cases hk
    · intro k hk hk' hokk
      rcases Nat.lt_or_ge s.allocs k with hlt | hge
      · obtain rfl : k = s.allocs + 1 := by omega
        rw [hok] at hokk
        cases hokk
      · obtain rfl : k = s.allocs := by omega
        exact hreleased
  | both hok hok' hr hdevices hreleased =>
    refine ⟨fun ⟨r₁, s₁, h₁, hiff, _⟩ => ?_, fun h => ?_⟩
    · obtain ⟨rfl, rfl⟩ := hone r₁ s₁ h₁
      -- zero is returned, and the set of devices is released
      obtain ⟨k, hk, hnot⟩ := (hiff.mp hr).devices
      rw [hdevices] at hk
      obtain rfl := Option.some.inj hk
      exact absurd hreleased hnot
    · rw [hok, hok'] at h
      simp at h

/-- `bus_unregister` releases the set of drivers twice. -/
theorem released_busUnregister {s' : DriverModel} {drivers : ℕ}
    (hdrivers : s.driversKset bus = some drivers) (h : busUnregister s bus = .ok s') :
    s'.released = s.released ++ [drivers] ++ [drivers] := by
  unfold busUnregister at h
  simp only [hdrivers, ksetUnregister?, ksetUnregister, ksetRelease?] at h
  cases h₁ : kobjectDel s (.kset drivers) with
  | error e => simp [h₁, bind, Except.bind] at h
  | ok s₁ =>
    have hkeeps₁ := kobjectDel_keeps h₁
    have hdrivers₁ : s₁.driversKset bus = some drivers := by
      rw [hkeeps₁.driversKset]
      exact hdrivers
    simp only [h₁, bind, Except.bind, hdrivers₁] at h
    split at h
    · cases h
    · rename_i s₂ h₂
      have hkeeps₂ : Keeps (ksetRelease s₁ drivers) s₂ := by
        cases hdev : (ksetRelease s₁ drivers).devicesKset bus with
        | none =>
          rw [hdev] at h₂
          obtain rfl := Except.ok.inj h₂
          exact Keeps.refl _
        | some devices =>
          rw [hdev] at h₂
          exact kobjectDel_keeps h₂
      have hdrivers₂ : s₂.driversKset bus = some drivers := by
        rw [hkeeps₂.driversKset]
        exact hdrivers₁
      simp only [hdrivers₂] at h
      rw [(kobjectDel_keeps h).released]
      show s₂.released ++ [drivers] = _
      rw [hkeeps₂.released]
      show s₁.released ++ [drivers] ++ [drivers] = _
      rw [hkeeps₁.released]

theorem not_unregisterContract (hreg : Registered s bus) : ¬ UnregisterContract s bus := by
  rintro ⟨s', h, hcount⟩
  obtain ⟨drivers, hdrivers, -⟩ := hreg.drivers
  have htwice := hcount drivers (Or.inr hdrivers)
  rw [released_busUnregister hdrivers h] at htwice
  simp at htwice

end Register

/-- **Registering and unregistering a bus.**  Whatever buses are registered, `bus_register` meets
its contract exactly when one of its two allocations fails; and `bus_unregister` of a registered
bus never meets its own. -/
theorem bus_contracts_iff {s : DriverModel} {bus : ℕ} :
    (∀ buses ok, BusesWf s buses → bus ∉ buses →
      (RegisterContract s ok bus buses ↔ ok s.allocs = false ∨ ok (s.allocs + 1) = false)) ∧
    (Registered s bus → ¬ UnregisterContract s bus) :=
  ⟨fun _ ok hwf hbus => registerContract_iff hwf hbus ok, not_unregisterContract⟩

/-- The memory after `buses_init`: an empty `bus_kset`. -/
def busesInit : DriverModel where
  links := ⟨fun n => some n, fun n => some n⟩
  kset _ := none
  parent _ := none
  listLock _ := 1
  busLock _ := 1
  busKset := some 0
  devicesKset _ := none
  driversKset _ := none
  deviceBus _ := none
  driverBus _ := none
  allocs := 1
  released := []

theorem busesWf_busesInit : BusesWf busesInit [] where
  has k _ := by
    refine ⟨List.nodup_singleton _, ?_, ?_⟩
    all_goals
      intro p hp
      obtain rfl : p = (.list k, .list k) := by simpa [busEntries, pairs] using hp
      rfl
  free _ _ := Nat.one_pos
  old k hk := by
    obtain rfl : 0 = k := by simpa [busesInit] using hk
    exact Nat.one_pos

/-- There is a state with a registered bus. -/
theorem exists_registered : ∃ s, Registered s 7 := by
  have hnew : Node.entry (.bus 7) ∉ Node.list 0 :: busEntries [] := entry_not_mem List.not_mem_nil 0
  obtain ⟨l, -, hring, -⟩ := (busesWf_busesInit.has 0 rfl).listAddTail hnew
  refine ⟨{ busesInit with
    links := l, devicesKset := fun _ => some 1, driversKset := fun _ => some 2, allocs := 3 },
    ⟨0, [7], rfl, hring, List.mem_singleton_self 7⟩, ⟨1, rfl, ?_⟩, ⟨2, rfl, ?_⟩⟩
  · exact List.not_mem_nil
  · exact List.not_mem_nil

/-- The second allocation fails; and a bus that is registered is unregistered. -/
theorem bus_contracts_iff_busesInit :
    BusesWf busesInit [] ∧ RegisterContract busesInit (fun k => k = 1) 7 [] ∧
      ∃ s, Registered s 7 ∧ ¬ UnregisterContract s 7 := by
  refine ⟨busesWf_busesInit, ?_, ?_⟩
  · exact (bus_contracts_iff.1 [] (fun k => k = 1) busesWf_busesInit (by simp)).mpr
      (Or.inr (by decide))
  · obtain ⟨s, hreg⟩ := exists_registered
    exact ⟨s, hreg, bus_contracts_iff.2 hreg⟩

/-- The first bus, with memory enough: `bus_register` returns zero and the set of devices is
released. -/
theorem first_bus_not_registered :
    ¬ ∀ (s : DriverModel) (ok : ℕ → Bool) (bus : ℕ) (buses : List ℕ), BusesWf s buses →
      bus ∉ buses → RegisterContract s ok bus buses := by
  intro h
  have hcon := h busesInit (fun _ => true) 7 [] busesWf_busesInit (by simp)
  rw [registerContract_iff busesWf_busesInit (by simp)] at hcon
  simp at hcon

end YakOS.Driver
