import MtpxCore.CaseFolding
import MtpxCore.DevicePaths
import MtpxCore.LocalScan
import MtpxCore.TransferErrors

/-! Which device and which storage a command works on: the listing of `discovery.rs`, the flags, the
pickers, and the open device of `device/mod.rs`. The USB stack is a parameter, and every call of it
may fail; a virtual device, which needs no USB, is left out. -/
namespace MtpxCore

inductive UsbSpeed where
  | low
  | full
  | high
  | super
  | superPlus
  deriving DecidableEq, Repr

/-- One MTP device visible on the USB bus. -/
structure DeviceSummary where
  serial : Option String
  label : String
  vendorId : ℕ
  productId : ℕ
  locationId : ℕ
  speed : Option UsbSpeed
  deriving DecidableEq, Repr

/-- One storage on a device. -/
structure StorageSummary where
  index : ℕ
  name : String
  free : ℕ
  total : ℕ
  deriving DecidableEq, Repr

/-- What the device tells about a storage. -/
structure StorageInfo where
  description : String
  volumeIdentifier : String
  freeSpace : ℕ
  totalCapacity : ℕ
  deriving DecidableEq, Repr

/-- Which device to open when more than one may be attached. -/
inductive DeviceSelector where
  | only
  | serial (serial : String)
  | index (position : ℕ)
  deriving DecidableEq, Repr

/-- The errors raised before a transfer begins, and those of `Error`. -/
inductive ChoiceError where
  | noDevice
  | ambiguousDevice (devices : List DeviceSummary)
  | deviceNotFound (selector : String) (available : List DeviceSummary)
  | deviceUnresponsive
  | noStorage
  | storageRequired (storages : List StorageSummary)
  | storageNotFound (wanted : String) (available : List StorageSummary)
  | raised (e : Error)
  deriving DecidableEq, Repr

/-- What a picker came back with. -/
inductive Choice where
  | picked (index : ℕ)
  | dismissed
  | interrupted
  deriving DecidableEq, Repr

/-! The device -/

/-- `DeviceSelector::from`: digits select by index, anything else is a serial. -/
def DeviceSelector.from (value : String) : DeviceSelector :=
  match parseUsize value with
  | some position => .index position
  | none => .serial value

def SERIAL_PREFIX : String := "serial:"

/-- `Global::device_selector`, of the flag `--device`. -/
def deviceSelector : Option String → DeviceSelector
  | none => .only
  | some value =>
    match stripPrefix value SERIAL_PREFIX with
    | some serial => .serial serial
    | none => .from value

def positionOfSerial (devices : List DeviceSummary) (serial : String) : Option ℕ :=
  devices.findIdx? fun device => decide (device.serial = some serial)

def selectOnly : List DeviceSummary → Except ChoiceError DeviceSummary
  | [device] => .ok device
  | devices => .error (.ambiguousDevice devices)

def selectAt (devices : List DeviceSummary) (position : Option ℕ) (wanted : String) :
    Except ChoiceError DeviceSummary :=
  match position.bind fun i => devices[i]? with
  | some device => .ok device
  | none => .error (.deviceNotFound wanted devices)

/-- Picks the device `selector` names out of a listing. -/
def selectDevice (devices : List DeviceSummary) (selector : DeviceSelector) :
    Except ChoiceError DeviceSummary :=
  if devices = [] then .error .noDevice
  else match selector with
    | .only => selectOnly devices
    | .serial serial => selectAt devices (positionOfSerial devices serial) serial
    | .index i => selectAt devices (if i < devices.length then some i else none) i.repr

/-- A serial that only the chosen device has; some firmwares ship one serial on every unit. -/
def uniqueSerial (devices : List DeviceSummary) (chosen : DeviceSummary) : Option String :=
  match chosen.serial with
  | none => none
  | some serial =>
    if serial = "" then none
    else if (devices.filter fun device => decide (device.serial = some serial)).length = 1 then
      some serial
    else none

/-- The USB stack: what each call answers in a state of the bus, and the state it leaves. Devices
may come and go between two calls. What is listed or opened is attached at that moment, and a bus
location has one device at a time. -/
structure Usb (ω δ α : Type) where
  attached : ω → List DeviceSummary
  listDevices : ω → Except MtpError (List DeviceSummary) × ω
  openBySerial : String → ω → Except MtpError δ × ω
  openByLocation : ℕ → ω → Except MtpError δ × ω
  storages : δ → ω → Except MtpError (List α) × ω
  isTimeout : MtpError → Bool
  listed : δ → DeviceSummary
  fits : ∀ w, (attached w).length ≤ USIZE_MAX
  locations : ∀ w, ((attached w).map DeviceSummary.locationId).Nodup
  lists : ∀ w devices w', listDevices w = (.ok devices, w') → devices = attached w
  bySerial : ∀ serial w inner w', openBySerial serial w = (.ok inner, w') →
    listed inner ∈ attached w ∧ (listed inner).serial = some serial
  byLocation : ∀ location w inner w', openByLocation location w = (.ok inner, w') →
    listed inner ∈ attached w ∧ (listed inner).locationId = location

/-- An open device. -/
structure Device (δ α : Type) where
  inner : δ
  storages : List α
  summary : DeviceSummary
  deriving DecidableEq, Repr

section Opening

variable {ω δ α : Type} (usb : Usb ω δ α)

/-- A timeout while opening means the phone is not talking at all. -/
def answered {τ : Type} : Except MtpError τ → Except ChoiceError τ
  | .ok a => .ok a
  | .error e => .error (if usb.isTimeout e then .deviceUnresponsive else .raised (.ofMtp e))

/-- How `open` asks the USB stack for the device it has selected. -/
def openListed (devices : List DeviceSummary) (summary : DeviceSummary) (w : ω) :
    Except ChoiceError δ × ω :=
  match uniqueSerial devices summary with
  | some serial =>
    let (opened, w) := usb.openBySerial serial w
    (answered usb opened, w)
  | none =>
    let (opened, w) := usb.openByLocation summary.locationId w
    (answered usb opened, w)

def Device.load (inner : δ) (summary : DeviceSummary) (w : ω) :
    Except ChoiceError (Device δ α) × ω :=
  let (storages, w) := usb.storages inner w
  ((answered usb storages).map fun storages => ⟨inner, storages, summary⟩, w)

def Device.open (selector : DeviceSelector) (w : ω) : Except ChoiceError (Device δ α) × ω :=
  match usb.listDevices w with
  | (.error e, w) => (.error (.raised (.ofMtp e)), w)
  | (.ok devices, w) =>
    match selectDevice devices selector with
    | .error e => (.error e, w)
    | .ok summary =>
      match openListed usb devices summary w with
      | (.error e, w) => (.error e, w)
      | (.ok inner, w) => Device.load usb inner summary w

/-- `open_device`: the device the flag names or, when there are several, the one at the picked
place of the listing that is made then. -/
def openDevice (flag : Option String) (prompts : Bool) (pick : List DeviceSummary → Choice) (w : ω) :
    Except ChoiceError (Device δ α) × ω :=
  match Device.open usb (deviceSelector flag) w with
  | (.error (.ambiguousDevice devices), w) =>
    if prompts then
      match pick devices with
      | .picked i => Device.open usb (.index i) w
      | .dismissed => (.error (.ambiguousDevice devices), w)
      | .interrupted => (.error (.raised .cancelled), w)
    else (.error (.ambiguousDevice devices), w)
  | opened => opened

end Opening

/-! The storage -/

section Storages

variable {α : Type} (info : α → StorageInfo) (storages : List α)

def storageSummary (index : ℕ) (info : StorageInfo) : StorageSummary :=
  ⟨index, info.description, info.freeSpace, info.totalCapacity⟩

/-- `Device::storages`, in enumeration order. -/
def storageSummaries : List StorageSummary :=
  storages.zipIdx.map fun (storage, index) => storageSummary index (info storage)

def isNamed (tables : CaseTables) (info : StorageInfo) (name : String) : Bool :=
  let wanted := tables.toLowercase name
  decide (tables.toLowercase info.description = wanted) ||
    decide (tables.toLowercase info.volumeIdentifier = wanted)

def storageNotFound (wanted : String) : ChoiceError :=
  .storageNotFound wanted (storageSummaries info storages)

def onlyStorage : List α → Except ChoiceError α
  | [] => .error .noStorage
  | [only] => .ok only
  | storages => .error (.storageRequired (storageSummaries info storages))

def selectStorage (tables : CaseTables) : StorageSelector → Except ChoiceError α
  | .default => onlyStorage info storages
  | .index index =>
    match storages[index]? with
    | some storage => .ok storage
    | none => .error (storageNotFound info storages index.repr)
  | .named name =>
    match storages.find? fun storage => isNamed tables (info storage) name with
    | some storage => .ok storage
    | none => .error (storageNotFound info storages name)

end Storages

/-- `Ctx::resolve`: the flag `--storage` wins over the path's own prefix. -/
def resolveStorage (flag : Option String) (path : DevicePath) : DevicePath :=
  match flag with
  | none => path
  | some value => { path with storage := .from value }

/-- The path on the storage that the user has picked. -/
def onStorage (path : DevicePath) (storages : List StorageSummary) (picked : ℕ) : DevicePath :=
  { path with storage := .index ((storages[picked]?).elim picked StorageSummary.index) }

def pickStorage (prompts : Bool) (pick : List StorageSummary → Choice) (path : DevicePath) :
    ChoiceError → Except ChoiceError DevicePath
  | .storageRequired storages =>
    if prompts then
      match pick storages with
      | .picked index => .ok (onStorage path storages index)
      | .dismissed => .error (.storageRequired storages)
      | .interrupted => .error (.raised .cancelled)
    else .error (.storageRequired storages)
  | e => .error e

/-- Runs `op` on `path`, and once more on the storage that is picked when one is required. -/
def withStorage {ω τ : Type} (prompts : Bool) (pick : List StorageSummary → Choice)
    (path : DevicePath) (op : DevicePath → ω → Except ChoiceError τ × ω) (w : ω) :
    Except ChoiceError τ × ω :=
  match op path w with
  | (.error e, w) =>
    match pickStorage prompts pick path e with
    | .ok picked => op picked w
    | .error e => (.error e, w)
  | done => done

/-- What `ls` and `plan_pull` do with a path: they select its storage, and go on there with what
raises no error about storages any more. -/
def onSelected {ω α τ : Type} (info : α → StorageInfo) (storages : List α) (tables : CaseTables)
    (op : RemotePath → α → ω → Except Error τ × ω) (path : DevicePath) (w : ω) :
    Except ChoiceError τ × ω :=
  match selectStorage info storages tables path.storage with
  | .error e => (.error e, w)
  | .ok storage =>
    let (done, w) := op path.path storage w
    (done.mapError .raised, w)

end MtpxCore
