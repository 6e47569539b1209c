import DevOs.Lib.Chained
import DevOs.Lib.Runs

/-!
# The registry of devices

Devices are entries of a chain of lists of `MAX_DEVICE_INDEX` entries and are never removed. The
installer takes the first entry whose `Present` is not set. The iterator goes by `Index` of a list,
which nothing sets, so it ends before the first device. Ids and validation go by the entries and are
right.

Drivers are numbers, and pool memory is always there. A function yields `none` where the system
stops or reads through a `NULL` pointer.
-/

namespace DevOs.Management

open Chained Runs

abbrev maxDeviceIndex : ℕ := 100
def maxDriverDevices : ℕ := 0x200

def deviceSourcePci : ℕ := 0
def deviceSourceSystemReserved : ℕ := 3
def deviceSourceParentController : ℕ := 4

def deviceSearchByClass : ℕ := 0
def deviceSearchById : ℕ := 1

def dataUnmaskSubclass : ℕ := 1
def dataUnmaskVendorId : ℕ := 2
def dataUnmaskClass : ℕ := 4
def dataUnmaskProgramInterface : ℕ := 8

/-- A device pointer: `NULL`, the place of an entry, or the address of a record that lies
elsewhere. -/
inductive DevicePointer where
  | null
  | entry (k : ℕ)
  | other (address : ℕ)
deriving DecidableEq, Repr

/-- `DEVICE_OBJECT` -/
structure DeviceObject where
  present : Bool
  id : ℕ
  parentDevice : DevicePointer
  deviceControl : Bool
  accessMethod : ℕ
  deviceSource : ℕ
  deviceClass : ℕ
  deviceSubclass : ℕ
  programInterface : ℕ
  deviceType : ℕ
  vendorId : ℕ
  deviceId : ℕ
  deviceConfiguration : ℕ
  bus : ℕ
  deviceNumber : ℕ
  function : ℕ
  pciAccessType : ℕ
  driver : Option ℕ
deriving DecidableEq, Repr

def zeroDevice : DeviceObject :=
  ⟨false, 0, .null, false, 0, 0, 0, 0, 0, 0, 0, 0, 0, 0, 0, 0, 0, none⟩

/-- `DRIVER_IDENTIFICATION_DATA` -/
structure DriverIdentification where
  present : Bool
  enabled : Bool
  deviceSearchType : ℕ
  dataUnmask : ℕ
  deviceClass : ℕ
  deviceSubclass : ℕ
  programInterface : ℕ
  vendorId : ℕ
  deviceId : ℕ
  deviceSource : ℕ
deriving DecidableEq, Repr

/-- The fields of a PCI configuration header that an installation reads. -/
structure PciHeader where
  deviceClass : ℕ
  deviceSubclass : ℕ
  programInterface : ℕ
  vendorId : ℕ
  deviceId : ℕ
deriving DecidableEq, Repr

/-- What an installation finds: the driver table, the drivers that are there or can be loaded, the
headers by bus, device and function and by address, and the result of `AllocateIoMemory`. -/
structure Platform where
  drivers : List DriverIdentification
  loads : ℕ → Bool
  ioPciRead : ℕ → ℕ → ℕ → PciHeader
  pciConfig : ℕ → PciHeader
  ioMemory : Option ℕ

/-- `NumDevices` and `Devices` of a driver object. -/
structure DriverObject where
  numDevices : ℕ
  devices : ℕ → Option ℕ

/-- `DeviceManagementTable`, with `Index` of every list, the records elsewhere that look like
devices, and the driver objects. -/
structure DeviceTable where
  numDevices : ℕ
  devices : Chain DeviceObject
  index : ℕ → ℕ
  others : ℕ → DeviceObject
  drivers : ℕ → DriverObject

def freeDevice (d : DeviceObject) : Bool := !d.present

/-- The checks of `FindDeviceDriver` for one entry of the driver table. -/
def drives (device : DeviceObject) (x : DriverIdentification) : Bool :=
  let unmasked (flag : ℕ) : Bool := x.dataUnmask &&& flag != 0
  x.present && x.enabled && x.deviceSource == device.deviceSource &&
    if x.deviceSearchType = deviceSearchByClass then
      device.deviceClass == x.deviceClass &&
        !(unmasked dataUnmaskSubclass && device.deviceSubclass != x.deviceSubclass) &&
        !(unmasked dataUnmaskProgramInterface && device.programInterface != x.programInterface) &&
        !(unmasked dataUnmaskVendorId && device.vendorId != x.vendorId)
    else if x.deviceSearchType = deviceSearchById then
      device.deviceId == x.deviceId && device.vendorId == x.vendorId &&
        !(unmasked dataUnmaskClass && x.deviceClass != device.deviceClass) &&
        !(unmasked dataUnmaskSubclass && x.deviceSubclass != device.deviceSubclass) &&
        !(unmasked dataUnmaskProgramInterface && x.programInterface != device.programInterface)
    else true

def findDeviceDriver (platform : Platform) (device : DeviceObject) : Option ℕ :=
  platform.drivers.findIdx? (drives device)

/-- The PCI part of `InstallDevice`. -/
def configureDevice (platform : Platform) (device : DeviceObject) : Option DeviceObject :=
  let config := device.deviceConfiguration
  if device.deviceSource ≠ deviceSourcePci then some device
  else if config.testBit 63 then
    let bus := (config >>> 16) % 2 ^ 8
    let deviceNumber := (config >>> 8) % 2 ^ 8
    let function := config % 2 ^ 8
    let h := platform.ioPciRead bus deviceNumber function
    some { device with
      bus, deviceNumber, function
      deviceClass := h.deviceClass
      deviceSubclass := h.deviceSubclass
      programInterface := h.programInterface
      vendorId := h.vendorId
      deviceId := h.deviceId
      pciAccessType := 1 }
  else
    let raw := config >>> 12
    let h := platform.pciConfig config
    platform.ioMemory.map fun ioMemory => { device with
      function := raw &&& 0b111
      deviceNumber := (raw >>> 3) &&& 0b11111
      bus := (raw >>> 8) % 2 ^ 8
      deviceClass := h.deviceClass
      deviceSubclass := h.deviceSubclass
      programInterface := h.programInterface
      vendorId := h.vendorId
      deviceId := h.deviceId
      deviceConfiguration := ioMemory }

namespace DeviceTable

def initial (others : ℕ → DeviceObject) : DeviceTable :=
  ⟨0, .initial zeroDevice, fun _ => 0, others, fun _ => ⟨0, fun _ => none⟩⟩

def record (t : DeviceTable) : DevicePointer → DeviceObject
  | .null => zeroDevice
  | .entry k => t.devices.entry k
  | .other a => t.others a

def validateDevice (t : DeviceTable) (device : DevicePointer) : Bool :=
  if device = .null || !(t.record device).present then false
  else
    let deviceListIndex := (t.record device).id / maxDeviceIndex
    let deviceIndex := (t.record device).id % maxDeviceIndex
    if deviceListIndex < t.devices.lists then
      decide (DevicePointer.entry (deviceListIndex * maxDeviceIndex + deviceIndex) = device)
    else false

def controlDevice (driver k : ℕ) (t : DeviceTable) : DeviceTable × Bool :=
  let object := t.drivers driver
  if object.numDevices = maxDriverDevices ∨ (t.devices.entry k).deviceControl = true then (t, false)
  else
    let devices :=
      match (List.range maxDriverDevices).find? fun i => (object.devices i).isNone with
      | some i => Function.update object.devices i (some k)
      | none => object.devices
    ({ t with
      devices := t.devices.set k
        { t.devices.entry k with deviceControl := true, driver := some driver }
      drivers := Function.update t.drivers driver ⟨object.numDevices + 1, devices⟩ }, true)

/-- The driver part of `InstallDevice`. A device that no driver can take stops the system. -/
def driveDevice (platform : Platform) (parent : DevicePointer) (k : ℕ) (t : DeviceTable) :
    Option DeviceTable :=
  let device := t.devices.entry k
  let control (driver : ℕ) : Option DeviceTable :=
    if (t.controlDevice driver k).2 then some (t.controlDevice driver k).1 else none
  if device.deviceSource ≠ deviceSourceParentController ∧
    device.deviceSource ≠ deviceSourceSystemReserved then
    match findDeviceDriver platform device with
    | none => some t
    | some i => if platform.loads i then control i else none
  else if parent ≠ .null then (t.record parent).driver.bind control
  else some t

def installDevice (platform : Platform) (parent : DevicePointer)
    (source type class' subclass vendor config : ℕ) (t : DeviceTable) :
    Option (DeviceTable × Option ℕ) :=
  if parent ≠ .null ∧ t.validateDevice parent = false then some (t, none)
  else
    let (devices, k) := t.devices.place maxDeviceIndex freeDevice zeroDevice
    -- a list that is made anew has no index
    let index := if devices.lists = t.devices.lists then t.index
      else Function.update t.index t.devices.lists 0
    let device := { zeroDevice with
      present := true
      id := k
      deviceSource := source
      parentDevice := parent
      deviceConfiguration := config
      deviceType := type
      deviceClass := class'
      deviceSubclass := subclass
      vendorId := vendor
      accessMethod := 1 }
    (configureDevice platform device).bind fun device =>
      (driveDevice platform parent k { t with devices := devices.set k device, index }).map fun t =>
        ({ t with numDevices := t.numDevices + 1 }, some k)

end DeviceTable

/-- `DEVICE_ITERATOR`, with the number of its list. -/
structure DeviceIterator where
  deviceIndex : ℕ
  present : Bool
  finish : Bool
  list : ℕ
deriving DecidableEq, Repr

def startDeviceIterator (it : DeviceIterator) : DeviceIterator × Bool :=
  if it.present then (it, false) else (⟨0, true, false, 0⟩, true)

namespace DeviceTable

/-- The loop of `GetNextDevice`, with the number of lists behind the one it looks at. -/
def nextLoop (t : DeviceTable) : ℕ → DeviceIterator → DeviceIterator × Option ℕ
  | behind, it =>
    if it.deviceIndex < t.index it.list then
      ({ it with deviceIndex := it.deviceIndex + 1 },
        some (it.list * maxDeviceIndex + it.deviceIndex))
    else
      match behind with
      | 0 => ({ it with finish := true }, none)
      | behind + 1 => nextLoop t behind { it with deviceIndex := 0, list := it.list + 1 }

def getNextDevice (t : DeviceTable) (it : DeviceIterator) : DeviceIterator × Option ℕ :=
  if !it.present || it.finish then (it, none) else t.nextLoop (t.devices.lists - 1 - it.list) it

/-- What `GetNextDevice` returns, call after call, until it returns `NULL`. -/
inductive Yields (t : DeviceTable) : DeviceIterator → List ℕ → Prop
  | done {it : DeviceIterator} (h : (t.getNextDevice it).2 = none) : Yields t it []
  | next {it : DeviceIterator} {k : ℕ} {rest : List ℕ} (h : (t.getNextDevice it).2 = some k)
      (hrest : Yields t (t.getNextDevice it).1 rest) : Yields t it (k :: rest)

end DeviceTable

/-- A call of `InstallDevice`. -/
structure InstallCall where
  platform : Platform
  parent : DevicePointer
  source : ℕ
  type : ℕ
  class' : ℕ
  subclass : ℕ
  vendor : ℕ
  config : ℕ

def InstallCall.result (t : DeviceTable) (c : InstallCall) : Option (DeviceTable × Option ℕ) :=
  t.installDevice c.platform c.parent c.source c.type c.class' c.subclass c.vendor c.config

def InstallCall.run (t : DeviceTable) (c : InstallCall) : Option DeviceTable :=
  (c.result t).map Prod.fst

def InstallCall.note (t : DeviceTable) (c : InstallCall) (installed : List ℕ) : List ℕ :=
  match c.result t with
  | some (_, some k) => installed ++ [k]
  | _ => installed

namespace DeviceTable

variable {t t' : DeviceTable} {installed : List ℕ} {j k : ℕ}

def device (t : DeviceTable) (k : ℕ) : Option DeviceObject :=
  t.devices.used maxDeviceIndex freeDevice k

/-- What the registry promises for the devices that were installed: distinct ids, validation, and an
iteration that yields them in order. -/
structure Enumerated (t : DeviceTable) (installed : List ℕ) : Prop where
  nodup : installed.Nodup
  ids_distinct : ∀ j ∈ installed, ∀ k ∈ installed,
    (t.devices.entry j).id = (t.devices.entry k).id → j = k
  validated : ∀ k ∈ installed, t.validateDevice (.entry k) = true
  yielded : ∀ it, it.present = false → t.Yields (startDeviceIterator it).1 installed

/-- What every call keeps. -/
structure Counted (s : DeviceTable × List ℕ) : Prop where
  used_iff : ∀ k, s.1.device k ≠ none ↔ k < s.1.numDevices
  numbered : ∀ k d, s.1.device k = some d → d.id = k
  index_zero : ∀ l, s.1.index l = 0
  installed_eq : s.2 = List.range s.1.numDevices

theorem configureDevice_eq_some {platform : Platform} {d d' : DeviceObject}
    (h : configureDevice platform d = some d') : d'.present = d.present ∧ d'.id = d.id := by
  rw [configureDevice] at h
  split at h
  · cases h
    exact ⟨rfl, rfl⟩
  · split at h
    · cases h
      exact ⟨rfl, rfl⟩
    · obtain ⟨a, -, rfl⟩ := Option.map_eq_some_iff.mp h
      exact ⟨rfl, rfl⟩

/-- The table with another entry for the same device. -/
structure Driven (t t' : DeviceTable) (k : ℕ) : Prop where
  numDevices_eq : t'.numDevices = t.numDevices
  index_eq : t'.index = t.index
  devices_eq : t'.devices = t.devices ∨
    ∃ d, d.present = (t.devices.entry k).present ∧ d.id = (t.devices.entry k).id ∧
    t'.devices = t.devices.set k d

theorem controlDevice_driven (driver : ℕ) : t.Driven (t.controlDevice driver k).1 k := by
  rw [controlDevice]
  dsimp only
  split
  · exact ⟨rfl, rfl, Or.inl rfl⟩
  · exact ⟨rfl, rfl,
      Or.inr ⟨{ t.devices.entry k with deviceControl := true, driver := some driver }, rfl,
      rfl, rfl⟩⟩

theorem driveDevice_driven {platform : Platform} {parent : DevicePointer}
    (h : t.driveDevice platform parent k = some t') : t.Driven t' k := by
  have hcontrol : ∀ {driver : ℕ},
      (if (t.controlDevice driver k).2 then some (t.controlDevice driver k).1 else none) = some t' →
      t.Driven t' k := by
    intro driver hd
    split at hd
    · cases hd
      exact controlDevice_driven driver
    · cases hd
  rw [driveDevice] at h
  dsimp only at h
  split at h
  · split at h
    · cases h
      exact ⟨rfl, rfl, Or.inl rfl⟩
    · split at h
      · exact hcontrol h
      · cases h
  · split at h
    · obtain ⟨driver, -, hd⟩ := Option.bind_eq_some_iff.mp h
      exact hcontrol hd
    · cases h
      exact ⟨rfl, rfl, Or.inl rfl⟩

/-- What a completed installation does: one more device, at the first free place and under its
number. -/
structure Installed (t t' : DeviceTable) (k : ℕ) : Prop where
  place_eq : k = (t.devices.place maxDeviceIndex freeDevice zeroDevice).2
  numDevices_eq : t'.numDevices = t.numDevices + 1
  index_zero : (∀ l, t.index l = 0) → ∀ l, t'.index l = 0
  device_eq : ∃ d : DeviceObject, d.id = k ∧ ∀ j, t'.device j = if j = k then some d else t.device j

theorem installDevice_cases {platform : Platform} {parent : DevicePointer}
    {source type class' subclass vendor config : ℕ} {result : Option ℕ}
    (h : t.installDevice platform parent source type class' subclass vendor config =
      some (t', result)) :
    t' = t ∧ result = none ∨ ∃ k, result = some k ∧ t.Installed t' k := by
  rw [installDevice] at h
  split at h
  · cases h
    exact Or.inl ⟨rfl, rfl⟩
  · right
    have hin : (t.devices.place maxDeviceIndex freeDevice zeroDevice).1.InChain maxDeviceIndex
        (t.devices.place maxDeviceIndex freeDevice zeroDevice).2 := Chain.place_inChain (by decide)
    have hused : ∀ j,
      (t.devices.place maxDeviceIndex freeDevice zeroDevice).1.used maxDeviceIndex freeDevice j =
        t.device j := fun j => Chain.place_used rfl j
    generalize hq : t.devices.place maxDeviceIndex freeDevice zeroDevice = q at h hin hused
    obtain ⟨devices, k⟩ := q
    dsimp only at h hin hused
    obtain ⟨d, hd, h⟩ := Option.bind_eq_some_iff.mp h
    obtain ⟨t₁, ht₁, h⟩ := Option.map_eq_some_iff.mp h
    cases h
    obtain ⟨hpresent, hid⟩ := configureDevice_eq_some hd
    have hdriven := driveDevice_driven ht₁
    have hfree : freeDevice d = false := by
      rw [freeDevice, hpresent]
      rfl
    refine ⟨k, rfl, (congrArg Prod.snd hq).symm, congrArg (· + 1) hdriven.numDevices_eq,
      fun hindex l => ?_, ?_⟩
    · change t₁.index l = 0
      rw [hdriven.index_eq]
      dsimp only
      split
      · exact hindex l
      · by_cases hl : l = t.devices.lists
        · rw [hl, Function.update_self]
        · rw [Function.update_of_ne hl]
          exact hindex l
    · have hset := fun j => Chain.used_set hin hfree j
      have hentry : (devices.set k d).entry k = d := Function.update_self _ _ _
      rcases hdriven.devices_eq with hsame | ⟨d', hpresent', hid', hdevices⟩
      · refine ⟨d, hid, fun j => ?_⟩
        change t₁.devices.used maxDeviceIndex freeDevice j = _
        rw [hsame, hset, hused]
      · rw [hentry] at hpresent' hid'
        have hfree' : freeDevice d' = false := by
          rw [freeDevice, hpresent', hpresent]
          rfl
        refine ⟨d', hid'.trans hid, fun j => ?_⟩
        change t₁.devices.used maxDeviceIndex freeDevice j = _
        rw [hdevices]
        refine (Chain.used_set (c := devices.set k d) hin hfree' j).trans ?_
        rw [hset, hused]
        by_cases hj : j = k
        · rw [if_pos hj, if_pos hj]
        · rw [if_neg hj, if_neg hj, if_neg hj]

theorem counted_initial (others : ℕ → DeviceObject) : Counted (.initial others, []) where
  used_iff := fun k => iff_of_false (not_not.mpr (Chain.used_initial rfl)) (Nat.not_lt_zero k)
  numbered := fun k d hd => by cases (Chain.used_initial rfl).symm.trans hd
  index_zero := fun _ => rfl
  installed_eq := rfl

theorem Counted.install (h : Counted (t, installed)) (hi : t.Installed t' k) :
    Counted (t', installed ++ [k]) := by
  obtain ⟨d, hid, hdevice⟩ := hi.device_eq
  have hk : k = t.numDevices := hi.place_eq.trans (Chain.place_eq_of_used h.used_iff)
  refine ⟨fun j => ?_, fun j e he => ?_, hi.index_zero h.index_zero, ?_⟩
  · change t'.device j ≠ none ↔ j < t'.numDevices
    rw [hdevice, hi.numDevices_eq]
    by_cases hj : j = k
    · rw [if_pos hj]
      exact iff_of_true (Option.some_ne_none d) (by omega)
    · rw [if_neg hj]
      refine (h.used_iff j).trans ?_
      change j < t.numDevices ↔ j < t.numDevices + 1
      omega
  · change t'.device j = some e at he
    rw [hdevice] at he
    by_cases hj : j = k
    · rw [if_pos hj] at he
      rw [← Option.some.inj he, hj, hid]
    · rw [if_neg hj] at he
      exact h.numbered j e he
  · change installed ++ [k] = List.range t'.numDevices
    rw [hi.numDevices_eq, List.range_succ, hk,
      show installed = List.range t.numDevices from h.installed_eq]

theorem Counted.step {s s' : DeviceTable × List ℕ} {c : InstallCall} (h : Counted s)
    (hs : watched InstallCall.run (fun t c => c.note t) s c = some s') : Counted s' := by
  obtain ⟨hrun, hnote⟩ := watched_eq_some.mp hs
  obtain ⟨t', installed'⟩ := s'
  obtain rfl : installed' = _ := hnote
  obtain ⟨⟨t₁, result⟩, hresult, rfl⟩ := Option.map_eq_some_iff.mp hrun
  rw [InstallCall.note, hresult]
  rcases installDevice_cases hresult with ⟨rfl, rfl⟩ | ⟨k, rfl, hi⟩
  · exact h
  · exact Counted.install h hi

theorem Counted.validated (h : Counted (t, installed)) (hk : k ∈ installed) :
    (t.devices.entry k).id = k ∧ t.validateDevice (.entry k) = true := by
  have hlt : k < t.numDevices := by
    rw [show installed = List.range t.numDevices from h.installed_eq] at hk
    exact List.mem_range.mp hk
  obtain ⟨d, hd⟩ := Option.ne_none_iff_exists'.mp ((h.used_iff k).mpr hlt)
  obtain ⟨hin, hfree, hentry⟩ := Chain.used_eq_some.mp hd
  have hid : (t.devices.entry k).id = k := by
    rw [hentry]
    exact h.numbered k d hd
  have hpresent : (t.devices.entry k).present = true := by
    rw [freeDevice, Bool.not_eq_false'] at hfree
    exact hfree
  refine ⟨hid, ?_⟩
  rw [validateDevice, record, hpresent,
    decide_eq_false (show ¬DevicePointer.entry k = .null by nofun), if_neg (by decide)]
  dsimp only
  have hlist : k / maxDeviceIndex < t.devices.lists := (Nat.div_lt_iff_lt_mul (by decide)).mpr hin
  rw [hid, if_pos hlist, Nat.div_add_mod', decide_eq_true rfl]

theorem nextLoop_eq_none (hindex : ∀ l, t.index l = 0) (behind : ℕ) (it : DeviceIterator) :
    (t.nextLoop behind it).2 = none := by
  induction behind generalizing it with
  | zero =>
    rw [nextLoop, hindex, if_neg (Nat.not_lt_zero _)]
  | succ behind ih =>
    rw [nextLoop, hindex, if_neg (Nat.not_lt_zero _)]
    exact ih _

theorem Counted.yields_nil (h : Counted (t, installed)) (it : DeviceIterator) {l : List ℕ}
    (hl : t.Yields it l) :
    l = [] := by
  have hnone : (t.getNextDevice it).2 = none := by
    rw [getNextDevice]
    split
    · rfl
    · exact nextLoop_eq_none h.index_zero _ _
  cases hl with
  | done => rfl
  | next hsome =>
    rw [hnone] at hsome
    cases hsome

theorem Counted.enumerated_iff (h : Counted (t, installed)) :
    t.Enumerated installed ↔ installed = [] := by
  constructor
  · intro he
    exact h.yields_nil _ (he.yielded ⟨0, false, false, 0⟩ rfl)
  · rintro rfl
    refine ⟨List.nodup_nil, fun j hj => absurd hj List.not_mem_nil,
      fun k hk => absurd hk List.not_mem_nil, fun it _ => .done ?_⟩
    rw [getNextDevice]
    split
    · rfl
    · exact nextLoop_eq_none h.index_zero _ _

end DeviceTable

open DeviceTable

/-- In every state that installations reach, the ids of the installed devices are distinct and the
validator accepts them, and the iteration yields them if and only if there are none. -/
theorem devices_enumerated_iff (others : ℕ → DeviceObject) (s : DeviceTable × List ℕ)
    (h : Reaches (watched InstallCall.run fun t c => c.note t) anyStep (.initial others, []) s) :
    (s.2.Nodup ∧ ∀ k ∈ s.2, (s.1.devices.entry k).id = k ∧ s.1.validateDevice (.entry k) = true) ∧
      (s.1.Enumerated s.2 ↔ s.2 = []) := by
  have hc : Counted s := h.invariant (fun _ _ _ hi _ hs => hi.step hs) (counted_initial others)
  refine ⟨⟨?_, fun k hk => hc.validated hk⟩, hc.enumerated_iff⟩
  rw [hc.installed_eq]
  exact List.nodup_range

def barePlatform : Platform :=
  ⟨[], fun _ => false, fun _ _ _ => ⟨0, 0, 0, 0, 0⟩, fun _ => ⟨0, 0, 0, 0, 0⟩, none⟩

def oneDevice : DeviceTable × List ℕ :=
  ({ DeviceTable.initial fun _ => zeroDevice with
    numDevices := 1
    devices := (Chain.initial zeroDevice).set 0
      { zeroDevice with present := true, deviceSource := 2, deviceType := 3, accessMethod := 1 } },
      [0])

theorem oneDevice_reached :
    Reaches (watched InstallCall.run fun t c => c.note t) anyStep
      (.initial fun _ => zeroDevice, []) oneDevice :=
  Reaches.head (a := ⟨barePlatform, .null, 2, 3, 0, 0, 0, 0⟩) trivial rfl (Reaches.refl _)

theorem oneDevice_validated : oneDevice.1.validateDevice (.entry 0) = true ∧
    (oneDevice.1.Enumerated oneDevice.2 ↔ oneDevice.2 = []) :=
  have h := devices_enumerated_iff (fun _ => zeroDevice) oneDevice oneDevice_reached
  ⟨(h.1.2 0 (List.mem_singleton_self 0)).2, h.2⟩

/-- The timer is installed and the iteration ends before it. -/
theorem oneDevice_skipped :
    Reaches (watched InstallCall.run fun t c => c.note t) anyStep
      (.initial fun _ => zeroDevice, []) oneDevice ∧
      oneDevice.2 = [0] ∧
      (oneDevice.1.getNextDevice (startDeviceIterator ⟨0, false, false, 0⟩).1).2 = none ∧
      ¬oneDevice.1.Enumerated oneDevice.2 := by
  refine ⟨oneDevice_reached, rfl, rfl, fun h => ?_⟩
  cases h.yielded ⟨0, false, false, 0⟩ rfl with
  | next hsome => cases hsome

end DevOs.Management
