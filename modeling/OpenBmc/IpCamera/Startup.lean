import OpenBmc.IpCamera.Service
import OpenBmc.Py.Int
import OpenBmc.Py.JsonText
import OpenBmc.Py.Quote

/-!
# Starting from any state file

The constructor of the service and the export loop of `start`, from the bytes of the state file and
on whatever JSON value they hold. Only a missing file and a syntax error are caught: the service
starts exactly when the file is one of these or holds a store whose records can all be exported
(`Startable`), and then its objects are the store's (`survives_iff`).
-/

namespace OpenBmc
namespace IpCamera
namespace Startup
open Py

/-- What the library of the bus and the interpreter decide: the valid object paths, `int` of a
string and of a float (none when it raises), and what `json.load` raises on a text over one of the
interpreter's limits. -/
structure Host where
  isPath : Str → Bool
  isPath_manager : isPath managerPath
  intOfStr : Str → Option Int
  intOfFloat : Str → Option Int
  limit : Str → Option PyError

/-- The values of a device's properties. -/
structure Device where
  address : Str
  endpoint : Str
  name : Str
  authStatus : Str
  managed : Bool
  lastSeenUsec : Int
  lastRefreshUsec : Int
  lastError : Str
  profiles : List Str
  streamNames : List Str
  snapshotSupport : Bool
  rawInfo : Str
  firmwareVersion : Str
  hardwareId : Str

def Device.initial : Device where
  address := []
  endpoint := []
  name := []
  authStatus := "unknown"
  managed := true
  lastSeenUsec := 0
  lastRefreshUsec := 0
  lastError := []
  profiles := []
  streamNames := []
  snapshotSupport := false
  rawInfo := []
  firmwareVersion := []
  hardwareId := []

/-- A `CameraObject` and the values of its properties. -/
structure Exported where
  present : Bool
  functional : Bool
  asset : AssetProps
  device : Device
  streams : Dict Str StreamProps

def Exported.initial : Exported := ⟨false, false, ⟨[], [], [], [], []⟩, Device.initial, Dict.empty⟩

/-- The service while it starts; `cameras` is what the file has under that key. -/
structure Service where
  cameras : Json
  bus : List (Str × Iface)
  objects : Dict Str Exported
  manager : ManagerProps

abbrev Boot := EStateM PyError Service

/-! ### Reading values -/

/-- A dictionary: nothing else has the attribute `attr`. -/
def asDict (attr : Str) : Json → Except PyError (Dict Str Json)
  | .obj items => .ok (Dict.ofList items)
  | _ => .error (.attributeError attr)

/-- `d.get(key, default)`. -/
def getItem (d : Dict Str Json) (key : Str) (default : Json) : Json := (d.get? key).getD default

/-- `bytes.decode("utf-8")`: the replacement characters of an ill-formed text encode to other bytes. -/
def decodeUtf8 (bytes : List Nat) : Option Str :=
  if utf8Encode (utf8Replace bytes) = bytes then some (utf8Replace bytes) else none

theorem decodeUtf8_eq_some {bytes : List Nat} {text : Str} :
    decodeUtf8 bytes = some text ↔ bytes = utf8Encode text := by
  unfold decodeUtf8
  constructor
  · intro h
    split at h
    · rename_i he
      cases h
      exact he.symm
    · cases h
  · rintro rfl
    rw [utf8Replace_utf8Encode, if_pos rfl]

section Reading
variable [UnicodeData] (host : Host)

/-- `int(v)`. -/
def toInt : Json → Except PyError Int
  | .bool b => .ok (if b then 1 else 0)
  | .int i => .ok i
  | .float r => match host.intOfFloat r with
    | some i => .ok i
    | none => .error (.valueError "cannot convert float to integer")
  | .str s => match host.intOfStr s with
    | some i => .ok i
    | none => .error (.valueError "invalid literal for int()")
  | _ => .error (.typeError "int() argument must be a string or a number")

/-- `str(camera.get("name") or extract_address(str(camera.get("endpoint", ""))))`. -/
def displayName (camera : Dict Str Json) : Except PyError Str :=
  let name := getItem camera "name" .null
  if name.truthy then .ok name.toStr else extractAddress (getItem camera "endpoint" (.str [])).toStr

/-- The arguments of the update of the asset interface. -/
def assetProps (camera : Dict Str Json) (name : Str) : AssetProps where
  manufacturer := textOr (camera.get? "manufacturer") (splitName name).1
  model := textOr (camera.get? "model") (splitName name).2
  partNumber := textOf (camera.get? "hardware_id")
  serialNumber := textOf (camera.get? "serial_number")
  buildDate := textOf (camera.get? "build_date")

/-- `StreamInterface.update`. -/
def streamProps (stream : Dict Str Json) : StreamProps where
  profileToken := textOf (stream.get? "profile_token")
  streamName := textOf (stream.get? "stream_name")
  streamUrl := textOf (stream.get? "stream_url")
  snapshot := (getItem stream "snapshot" (.bool false)).truthy
  profileName := textOf (stream.get? "profile_name")

def streamName (stream : Json) : Except PyError Str := do
  let stream ← asDict "get" stream
  return textOf (stream.get? "stream_name")

/-- What `CameraInterface.update` sets. -/
def deviceValues (camera : Dict Str Json) (profiles : List Str) : Except PyError Device := do
  let lastSeenUsec ← toInt host (getItem camera "last_seen_usec" (.int 0))
  let lastRefreshUsec ← toInt host (getItem camera "last_refresh_usec" (.int 0))
  let streams ← asDict "values" (getItem camera "streams" (.obj []))
  let streamNames ← streams.values.mapM streamName
  return {
    address := textOf (camera.get? "address")
    endpoint := textOf (camera.get? "endpoint")
    name := textOf (camera.get? "name")
    authStatus := (getItem camera "auth_status" (.str "unknown")).toStr
    managed := (getItem camera "managed" (.bool true)).truthy
    lastSeenUsec
    lastRefreshUsec
    lastError := textOf (camera.get? "last_error")
    profiles
    streamNames
    snapshotSupport := (getItem camera "snapshot_support" (.bool false)).truthy
    rawInfo := textOf (camera.get? "raw_info")
    firmwareVersion := textOf (camera.get? "firmware_version")
    hardwareId := textOf (camera.get? "hardware_id") }

end Reading

/-! ### The bus -/

section Running
variable [UnicodeData] (host : Host) (cfg : Config)

def cameraPath (slug : Str) : Str := cfg.inventoryRoot ++ '/' :: slug

def streamPath (slug streamSlug : Str) : Str :=
  cameraPath cfg slug ++ "/stream/".toList ++ streamSlug

/-- `bus.export`. -/
def busExport (path : Str) (iface : Iface) : Boot Unit := do
  if ¬ host.isPath path then throw (.other "InvalidObjectPathError")
  else if (path, iface) ∈ (← get).bus then throw (.valueError "already exported")
  else modify fun w => { w with bus := w.bus ++ [(path, iface)] }

/-- `bus.unexport`. -/
def busUnexport (path : Str) (iface : Iface) : Boot Unit :=
  modify fun w => { w with bus := w.bus.filter (· ≠ (path, iface)) }

/-- The signal about a changed number whose type has `bits` bits and no sign. -/
def announceNumber (bits : Nat) (old new : Int) : Boot Unit :=
  if new = old ∨ 0 ≤ new ∧ new < 2 ^ bits then pure ()
  else throw (.other "SignatureBodyMismatchError")

/-- The signal about a changed list of object paths. -/
def announcePaths (old new : List Str) : Boot Unit :=
  if new = old ∨ ∀ path ∈ new, host.isPath path then pure ()
  else throw (.other "SignatureBodyMismatchError")

def cameraPaths (cameras : Dict Str Json) : List Str := cameras.sorted.keys.map (cameraPath cfg)

/-- `_sync_manager`. -/
def syncManager : Boot Unit := do
  let w ← get
  let cameras ← liftExcept (asDict "keys" w.cameras)
  let manager : ManagerProps :=
    ⟨cameraPaths cfg cameras, cfg.autoAddDiscovered, cfg.pollIntervalSec⟩
  modify fun w => { w with manager }
  announcePaths host w.manager.cameras manager.cameras
  announceNumber 32 w.manager.pollIntervalSec manager.pollIntervalSec

/-- `_export_camera`. -/
def exportCamera (slug : Str) : Boot Unit := do
  if slug ∈ (← get).objects then return
  modify fun w => { w with objects := w.objects.set slug Exported.initial }
  forM cameraIfaces (busExport host (cameraPath cfg slug))

def modifyObject (slug : Str) (f : Exported → Exported) : Boot Unit :=
  modify fun w => match w.objects.get? slug with
    | none => w
    | some obj => { w with objects := w.objects.set slug (f obj) }

/-- The object of a camera. -/
def objectOf (w : Service) (slug : Str) : Exported := (w.objects.get? slug).getD Exported.initial

/-- The body of the loop over the streams. -/
def syncStream (slug : Str) (existing : List Str) (e : Str × Json) : Boot Unit := do
  (if e.1 ∈ existing then pure () else do
    busExport host (streamPath cfg slug e.1) .stream
    modifyObject slug fun obj => { obj with streams := obj.streams.set e.1 StreamProps.initial })
  let stream ← liftExcept (asDict "get" e.2)
  modifyObject slug fun obj => { obj with streams := obj.streams.set e.1 (streamProps stream) }

/-- The part of `_sync_camera_interfaces` about the streams. -/
def syncStreams (slug : Str) (streams : Dict Str Json) : Boot Unit := do
  let existing := (objectOf (← get) slug).streams.keys
  forM (existing.filter (· ∉ streams)) fun removed => do
    modifyObject slug fun obj => { obj with streams := obj.streams.erase removed }
    busUnexport (streamPath cfg slug removed) .stream
  forM streams.sorted.entries (syncStream host cfg slug existing)

/-- `obj.device.update(camera, profile_paths)`. -/
def updateDevice (slug : Str) (camera : Dict Str Json) (profiles : List Str) : Boot Unit := do
  let old := (objectOf (← get) slug).device
  let device ← liftExcept (deviceValues host camera profiles)
  modifyObject slug fun obj => { obj with device }
  announceNumber 64 old.lastSeenUsec device.lastSeenUsec
  announceNumber 64 old.lastRefreshUsec device.lastRefreshUsec
  announcePaths host old.profiles device.profiles

/-- `_sync_camera_interfaces`. -/
def syncCameraInterfaces (slug : Str) : Boot Unit := do
  let cameras ← liftExcept (asDict "keys" (← get).cameras)
  match cameras.get? slug with
  | none => throw (.keyError slug)
  | some record => do
    exportCamera host cfg slug
    let camera ← liftExcept (asDict "get" record)
    let name ← liftExcept (displayName camera)
    modifyObject slug fun obj => { obj with
      present := (getItem camera "present" (.bool false)).truthy
      functional := (getItem camera "functional" (.bool false)).truthy
      asset := assetProps camera name }
    let streams ← liftExcept (asDict "keys" (getItem camera "streams" (.obj [])))
    syncStreams host cfg slug streams
    updateDevice host slug camera (streams.sorted.keys.map (streamPath cfg slug))
    syncManager host cfg

/-- `start`, up to its first discovery. -/
def start : Boot Unit := do
  busExport host managerPath .manager
  let cameras ← liftExcept (asDict "keys" (← get).cameras)
  forM cameras.keys fun slug => do
    exportCamera host cfg slug
    syncCameraInterfaces host cfg slug
  syncManager host cfg

/-! ### The state file -/

variable [FloatData]

/-- `load_json`; no bytes mean no file. -/
def loadJson (file : Option (List Nat)) (default : Json) : Except PyError Json :=
  match file with
  | none => .ok default
  | some bytes => match decodeUtf8 bytes with
    | none => .error (.valueError "UnicodeDecodeError")
    | some text => match host.limit text with
      | some e => .error e
      | none => .ok ((loads text).getD default)

/-- The constructor. -/
def init (file : Option (List Nat)) : Except PyError Service := do
  let state ← loadJson host file (.obj [("cameras", .obj [])])
  let state ← asDict "get" state
  return ⟨getItem state "cameras" (.obj []), [], Dict.empty, ⟨[], true, 60⟩⟩

/-- The constructor and `start`. -/
def boot (file : Option (List Nat)) : Except PyError Service := do
  let service ← init host file
  match start host cfg service with
  | .ok _ service => return service
  | .error e _ => throw e

end Running

/-! ### The records that can be exported -/

/-- The items of a value; only a dictionary has any. -/
def items : Json → Dict Str Json
  | .obj entries => Dict.ofList entries
  | _ => Dict.empty

def IsMap (v : Json) : Prop := ∃ entries, v = .obj entries

theorem asDict_ok_iff {attr : Str} {v : Json} {d : Dict Str Json} :
    asDict attr v = .ok d ↔ IsMap v ∧ d = items v := by
  cases v with
  | obj entries =>
    constructor
    · rintro ⟨⟩
      exact ⟨⟨entries, rfl⟩, rfl⟩
    · rintro ⟨-, rfl⟩
      rfl
  | _ => exact ⟨nofun, fun ⟨⟨_, h⟩, _⟩ => nomatch h⟩

section Records
variable [UnicodeData] (host : Host) (cfg : Config)

/-- A count of microseconds that a property of type `t` can hold. -/
def CounterOk (v : Json) : Prop := ∃ i, toInt host v = .ok i ∧ 0 ≤ i ∧ i < 2 ^ 64

def streamsOf (v : Json) : Dict Str Json := items (getItem (items v) "streams" (.obj []))

/-- The object paths of the streams of a record. -/
def profilePaths (slug : Str) (v : Json) : List Str :=
  (streamsOf v).sorted.keys.map (streamPath cfg slug)

/-- A record that has a name or an endpoint whose address can be read. -/
def NameOk (v : Json) : Prop :=
  (getItem (items v) "name" .null).truthy ∨
    ∃ address, extractAddress (getItem (items v) "endpoint" (.str [])).toStr = .ok address

/-- A well-formed camera record: what the export of this record alone requires. -/
structure RecordOk (slug : Str) (v : Json) : Prop where
  path : host.isPath (cameraPath cfg slug)
  isMap : IsMap v
  name : NameOk v
  streams : IsMap (getItem (items v) "streams" (.obj []))
  stream_paths : ∀ path ∈ profilePaths cfg slug v, host.isPath path
  stream : ∀ e ∈ (streamsOf v).sorted.entries, IsMap e.2
  last_seen : CounterOk host (getItem (items v) "last_seen_usec" (.int 0))
  last_refresh : CounterOk host (getItem (items v) "last_refresh_usec" (.int 0))

def nameOf (v : Json) : Str := (displayName (items v)).toOption.getD []

def deviceOf (slug : Str) (v : Json) : Device :=
  (deviceValues host (items v) (profilePaths cfg slug v)).toOption.getD Device.initial

/-- The object of a well-formed record. -/
def published (slug : Str) (v : Json) : Exported where
  present := (getItem (items v) "present" (.bool false)).truthy
  functional := (getItem (items v) "functional" (.bool false)).truthy
  asset := assetProps (items v) (nameOf v)
  device := deviceOf host cfg slug v
  streams := Dict.ofList ((streamsOf v).sorted.entries.map fun e => (e.1, streamProps (items e.2)))

/-- What is exported for a record. -/
def exportsOf (slug : Str) (v : Json) : List (Str × Iface) :=
  cameraIfaces.map (fun iface => (cameraPath cfg slug, iface)) ++
    (profilePaths cfg slug v).map fun path => (path, .stream)

theorem displayName_ok_iff {v : Json} {name : Str} :
    displayName (items v) = .ok name ↔ NameOk v ∧ name = nameOf v := by
  have hname : (∃ name, displayName (items v) = .ok name) ↔ NameOk v := by
    unfold displayName NameOk
    dsimp only
    generalize getItem (items v) _ _ = name
    generalize extractAddress _ = address
    cases name.truthy <;> simp
  rw [ok_iff_toOption, hname, nameOf]

end Records

/-! ### One record -/

/-- The state with more exports and an object for `slug`. -/
def Service.holding (w : Service) (l : List (Str × Iface)) (slug : Str) (obj : Exported) : Service :=
  { w with bus := w.bus ++ l, objects := w.objects.set slug obj }

theorem nodup_concat_iff {α : Type} {bus : List α} {e : α} {rest : List α} :
    (bus ++ e :: rest).Nodup ↔ e ∉ bus ∧ (bus ++ [e] ++ rest).Nodup := by
  rw [List.append_assoc, List.singleton_append]
  refine ⟨fun h => ⟨fun he => ?_, h⟩, And.right⟩
  exact (List.nodup_append.1 h).2.2 e he e (by simp) rfl

section Steps
variable {host : Host} {cfg : Config} {w w' : Service} {slug : Str} {obj : Exported}
  {l : List (Str × Iface)}

theorem modifyObject_holding (f : Exported → Exported) :
    modifyObject slug f (w.holding l slug obj) = .ok () (w.holding l slug (f obj)) := by
  show EStateM.Result.ok () _ = _
  congr 1
  simp [Service.holding, Dict.set_set]

theorem objectOf_holding : objectOf (w.holding l slug obj) slug = obj := by
  simp [objectOf, Service.holding]

theorem busExport_ok_iff {path : Str} {iface : Iface} :
    busExport host path iface w = .ok () w' ↔
      host.isPath path ∧ (path, iface) ∉ w.bus ∧ w' = { w with bus := w.bus ++ [(path, iface)] } := by
  unfold busExport
  by_cases hpath : host.isPath path
  · rw [if_neg (by simpa using hpath), get_bind]
    split_ifs with hmem
    · exact ⟨nofun, fun h => absurd hmem h.2.1⟩
    · constructor
      · rintro ⟨⟩
        exact ⟨hpath, hmem, rfl⟩
      · rintro ⟨-, -, rfl⟩
        rfl
  · rw [if_pos hpath]
    exact ⟨nofun, fun h => absurd h.1 hpath⟩

theorem forM_busExport {ifaces : List Iface} {path : Str} (hbus : w.bus.Nodup) :
    forM ifaces (busExport host path) w = .ok () w' ↔
      (∀ iface ∈ ifaces, host.isPath path) ∧
        (w.bus ++ ifaces.map fun iface => (path, iface)).Nodup ∧
        w' = { w with bus := w.bus ++ ifaces.map fun iface => (path, iface) } := by
  induction ifaces generalizing w with
  | nil =>
    rw [List.forM_nil, pure_ok_iff]
    simp [hbus]
  | cons iface ifaces ih =>
    rw [List.forM_cons, bind_ok_iff, List.map_cons, nodup_concat_iff]
    constructor
    · rintro ⟨⟨⟩, t, h, h'⟩
      obtain ⟨hpath, hnew, rfl⟩ := busExport_ok_iff.1 h
      have hbus' : (w.bus ++ [(path, iface)]).Nodup := by
        rw [nodup_concat_iff, List.append_nil]
        exact ⟨hnew, List.nodup_append_comm.1 (List.nodup_cons.2 ⟨hnew, hbus⟩)⟩
      obtain ⟨-, hnodup, rfl⟩ := (ih hbus').1 h'
      refine ⟨fun _ _ => hpath, ⟨hnew, hnodup⟩, ?_⟩
      simp [List.append_assoc]
    · rintro ⟨hpath, ⟨hnew, hnodup⟩, rfl⟩
      have hpath := hpath iface (by simp)
      refine ⟨(), _, busExport_ok_iff.2 ⟨hpath, hnew, rfl⟩, (ih hnodup.of_append_left).2 ?_⟩
      refine ⟨fun _ _ => hpath, hnodup, ?_⟩
      simp [List.append_assoc]

/-- The export of a camera that has no object yet. -/
theorem exportCamera_ok_iff (hnew : slug ∉ w.objects) (hbus : w.bus.Nodup) :
    exportCamera host cfg slug w = .ok () w' ↔
      host.isPath (cameraPath cfg slug) ∧
        (w.bus ++ cameraIfaces.map fun iface => (cameraPath cfg slug, iface)).Nodup ∧
        w' = w.holding (cameraIfaces.map fun iface => (cameraPath cfg slug, iface)) slug
          Exported.initial := by
  have hrun : exportCamera host cfg slug w = forM cameraIfaces (busExport host (cameraPath cfg slug))
      { w with objects := w.objects.set slug Exported.initial } := by
    unfold exportCamera
    rw [get_bind, if_neg hnew]
    rfl
  rw [hrun, forM_busExport (w := { w with objects := w.objects.set slug Exported.initial }) hbus]
  refine and_congr_left fun _ => ⟨fun h => h .inventory (by simp [cameraIfaces]), fun h _ _ => h⟩

/-- A camera that has an object is not exported again. -/
theorem exportCamera_holding :
    exportCamera host cfg slug (w.holding l slug obj) = .ok () (w.holding l slug obj) := by
  have hmem : slug ∈ (w.holding l slug obj).objects := Dict.mem_set.2 (.inl rfl)
  unfold exportCamera
  rw [get_bind, if_pos hmem]
  rfl

theorem announceNumber_ok_iff {bits : Nat} {old new : Int} :
    announceNumber bits old new w = .ok () w' ↔
      (new = old ∨ 0 ≤ new ∧ new < 2 ^ bits) ∧ w' = w := by
  unfold announceNumber
  split_ifs with h
  · simp [pure_ok_iff, h]
  · exact ⟨nofun, fun h' => absurd h'.1 h⟩

theorem announcePaths_ok_iff {old new : List Str} :
    announcePaths host old new w = .ok () w' ↔
      (new = old ∨ ∀ path ∈ new, host.isPath path) ∧ w' = w := by
  unfold announcePaths
  split_ifs with h
  · simp [pure_ok_iff, h]
  · exact ⟨nofun, fun h' => absurd h'.1 h⟩

section Props
variable [UnicodeData]

theorem syncStream_ok_iff {e : Str × Json} :
    syncStream host cfg slug [] e (w.holding l slug obj) = .ok () w' ↔
      host.isPath (streamPath cfg slug e.1) ∧ (streamPath cfg slug e.1, Iface.stream) ∉ w.bus ++ l ∧
        IsMap e.2 ∧
        w' = w.holding (l ++ [(streamPath cfg slug e.1, .stream)]) slug
          { obj with streams := obj.streams.set e.1 (streamProps (items e.2)) } := by
  have hadd : ∀ {t : Service}, t = { w.holding l slug obj with
      bus := (w.holding l slug obj).bus ++ [(streamPath cfg slug e.1, Iface.stream)] } →
      t = w.holding (l ++ [(streamPath cfg slug e.1, .stream)]) slug obj := by
    rintro _ rfl
    simp [Service.holding, List.append_assoc]
  unfold syncStream
  rw [if_neg (by simp)]
  constructor
  · intro h
    obtain ⟨⟨⟩, t, h, h'⟩ := bind_ok_iff.1 h
    obtain ⟨⟨⟩, t', h, hmod⟩ := bind_ok_iff.1 h
    obtain ⟨hpath, hnew, ht'⟩ := busExport_ok_iff.1 h
    rw [hadd ht', modifyObject_holding] at hmod
    cases hmod
    obtain ⟨stream, t, h, hmod⟩ := bind_ok_iff.1 h'
    obtain ⟨hstream, rfl⟩ := liftExcept_ok_iff.1 h
    obtain ⟨hmap, rfl⟩ := asDict_ok_iff.1 hstream
    rw [modifyObject_holding, Dict.set_set] at hmod
    cases hmod
    exact ⟨hpath, hnew, hmap, rfl⟩
  · rintro ⟨hpath, hnew, hmap, rfl⟩
    refine bind_ok_iff.2 ⟨(), w.holding (l ++ [(streamPath cfg slug e.1, .stream)]) slug
      { obj with streams := obj.streams.set e.1 StreamProps.initial }, ?_, ?_⟩
    · refine bind_ok_iff.2 ⟨(), _, busExport_ok_iff.2 ⟨hpath, hnew, rfl⟩, ?_⟩
      rw [hadd rfl, modifyObject_holding]
    · refine bind_ok_iff.2 ⟨_, _, liftExcept_ok_iff.2 ⟨asDict_ok_iff.2 ⟨hmap, rfl⟩, rfl⟩, ?_⟩
      rw [modifyObject_holding, Dict.set_set]

/-- The loop over the streams of a camera none of whose streams is exported. -/
theorem forM_syncStream_ok_iff {es : List (Str × Json)} (hbus : (w.bus ++ l).Nodup) :
    forM es (syncStream host cfg slug []) (w.holding l slug obj) = .ok () w' ↔
      (∀ e ∈ es, host.isPath (streamPath cfg slug e.1) ∧ IsMap e.2) ∧
        (w.bus ++ (l ++ es.map fun e => (streamPath cfg slug e.1, Iface.stream))).Nodup ∧
        w' = w.holding (l ++ es.map fun e => (streamPath cfg slug e.1, Iface.stream)) slug
          { obj with streams :=
              obj.streams.assign (es.map fun e => (e.1, streamProps (items e.2))) } := by
  induction es generalizing l obj with
  | nil =>
    rw [List.forM_nil, pure_ok_iff]
    simpa using fun _ => hbus
  | cons e es ih =>
    have hstep : ∀ m : List (Str × Iface), l ++ (streamPath cfg slug e.1, Iface.stream) :: m =
        l ++ [(streamPath cfg slug e.1, Iface.stream)] ++ m := by simp
    rw [List.forM_cons, bind_ok_iff, List.map_cons, hstep, List.forall_mem_cons]
    constructor
    · rintro ⟨⟨⟩, t, h, h'⟩
      obtain ⟨hpath, hnew, hmap, rfl⟩ := syncStream_ok_iff.1 h
      have hbus' : (w.bus ++ (l ++ [(streamPath cfg slug e.1, Iface.stream)])).Nodup := by
        rw [← List.append_assoc]
        exact List.nodup_append_comm.1 (List.nodup_cons.2 ⟨hnew, hbus⟩)
      obtain ⟨hrest, hnodup, rfl⟩ := (ih hbus').1 h'
      exact ⟨⟨⟨hpath, hmap⟩, hrest⟩, hnodup, rfl⟩
    · rintro ⟨⟨⟨hpath, hmap⟩, hrest⟩, hnodup, rfl⟩
      have hbus' : (w.bus ++ (l ++ [(streamPath cfg slug e.1, Iface.stream)])).Nodup := by
        rw [← List.append_assoc] at hnodup
        exact hnodup.of_append_left
      have hnew : (streamPath cfg slug e.1, Iface.stream) ∉ w.bus ++ l := by
        rw [← List.append_assoc] at hbus'
        exact (nodup_concat_iff.1 hbus').1
      exact ⟨(), _, syncStream_ok_iff.2 ⟨hpath, hnew, hmap, rfl⟩, (ih hbus').2 ⟨hrest, hnodup, rfl⟩⟩

/-- The streams of a camera that has none yet. -/
theorem syncStreams_ok_iff {streams : Dict Str Json} (hobj : obj.streams = Dict.empty)
    (hbus : (w.bus ++ l).Nodup) :
    syncStreams host cfg slug streams (w.holding l slug obj) = .ok () w' ↔
      (∀ e ∈ streams.sorted.entries, host.isPath (streamPath cfg slug e.1) ∧ IsMap e.2) ∧
        (w.bus ++ (l ++ streams.sorted.entries.map fun e =>
          (streamPath cfg slug e.1, Iface.stream))).Nodup ∧
        w' = w.holding (l ++ streams.sorted.entries.map fun e =>
            (streamPath cfg slug e.1, Iface.stream)) slug
          { obj with streams :=
              Dict.ofList (streams.sorted.entries.map fun e => (e.1, streamProps (items e.2))) } := by
  have hrun : syncStreams host cfg slug streams (w.holding l slug obj) =
      forM streams.sorted.entries (syncStream host cfg slug []) (w.holding l slug obj) := by
    have hkeys : (objectOf (w.holding l slug obj) slug).streams.keys = [] := by
      rw [objectOf_holding, hobj, Dict.keys_empty]
    unfold syncStreams
    rw [get_bind, hkeys]
    rfl
  rw [hrun, forM_syncStream_ok_iff hbus, hobj]
  rfl

theorem streamName_isOk {v : Json} (h : IsMap v) : ∃ name, streamName v = .ok name := by
  obtain ⟨entries, rfl⟩ := h
  exact ⟨_, rfl⟩

theorem mapM_streamName_isOk {vs : List Json} (h : ∀ v ∈ vs, IsMap v) :
    ∃ names, vs.mapM streamName = .ok names := by
  induction vs with
  | nil => exact ⟨[], rfl⟩
  | cons v vs ih =>
    obtain ⟨name, hname⟩ := streamName_isOk (h v (by simp))
    obtain ⟨names, hnames⟩ := ih fun v hv => h v (by simp [hv])
    exact ⟨name :: names, by simp [List.mapM_cons, hname, hnames, bind, Except.bind, pure, Except.pure]⟩

theorem deviceValues_ok {camera : Dict Str Json} {profiles : List Str} {d : Device}
    (h : deviceValues host camera profiles = .ok d) :
    toInt host (getItem camera "last_seen_usec" (.int 0)) = .ok d.lastSeenUsec ∧
      toInt host (getItem camera "last_refresh_usec" (.int 0)) = .ok d.lastRefreshUsec ∧
      d.profiles = profiles := by
  unfold deviceValues at h
  obtain ⟨seen, hseen, h⟩ := bindExcept_ok_iff.1 h
  obtain ⟨refresh, hrefresh, h⟩ := bindExcept_ok_iff.1 h
  obtain ⟨streams, -, h⟩ := bindExcept_ok_iff.1 h
  obtain ⟨names, -, h⟩ := bindExcept_ok_iff.1 h
  cases h
  exact ⟨hseen, hrefresh, rfl⟩

theorem deviceValues_isOk {camera : Dict Str Json} {profiles : List Str} {seen refresh : Int}
    (hseen : toInt host (getItem camera "last_seen_usec" (.int 0)) = .ok seen)
    (hrefresh : toInt host (getItem camera "last_refresh_usec" (.int 0)) = .ok refresh)
    (hstreams : IsMap (getItem camera "streams" (.obj [])))
    (hstream : ∀ v ∈ (items (getItem camera "streams" (.obj []))).values, IsMap v) :
    ∃ d, deviceValues host camera profiles = .ok d := by
  obtain ⟨names, hnames⟩ := mapM_streamName_isOk hstream
  unfold deviceValues
  exact ⟨_, bindExcept_ok_iff.2 ⟨_, hseen, bindExcept_ok_iff.2 ⟨_, hrefresh, bindExcept_ok_iff.2
    ⟨_, asDict_ok_iff.2 ⟨hstreams, rfl⟩, bindExcept_ok_iff.2 ⟨_, hnames, rfl⟩⟩⟩⟩⟩

/-- The update of a device that still has its initial values. -/
theorem updateDevice_ok_iff {v : Json} (hobj : obj.device = Device.initial)
    (hstreams : IsMap (getItem (items v) "streams" (.obj [])))
    (hstream : ∀ e ∈ (streamsOf v).sorted.entries, IsMap e.2)
    (hpaths : ∀ path ∈ profilePaths cfg slug v, host.isPath path) :
    updateDevice host slug (items v) (profilePaths cfg slug v) (w.holding l slug obj) = .ok () w' ↔
      (CounterOk host (getItem (items v) "last_seen_usec" (.int 0)) ∧
        CounterOk host (getItem (items v) "last_refresh_usec" (.int 0))) ∧
      w' = w.holding l slug { obj with device := deviceOf host cfg slug v } := by
  have hold : objectOf (w.holding l slug obj) slug = obj := objectOf_holding
  have hcounter : ∀ {i : Int} {v : Json}, toInt host v = .ok i →
      (CounterOk host v ↔ i = 0 ∨ 0 ≤ i ∧ i < 2 ^ 64) := by
    intro i v hi
    constructor
    · rintro ⟨j, hj, hrange⟩
      cases hi.symm.trans hj
      exact .inr hrange
    · intro hrange
      exact ⟨i, hi, by omega⟩
  unfold updateDevice
  rw [get_bind, hold, hobj]
  constructor
  · intro h
    obtain ⟨d, t, h₁, h⟩ := bind_ok_iff.1 h
    obtain ⟨hd, rfl⟩ := liftExcept_ok_iff.1 h₁
    obtain ⟨⟨⟩, t, h₂, h⟩ := bind_ok_iff.1 h
    rw [modifyObject_holding] at h₂
    cases h₂
    obtain ⟨⟨⟩, t, h₃, h⟩ := bind_ok_iff.1 h
    obtain ⟨hseen, rfl⟩ := announceNumber_ok_iff.1 h₃
    obtain ⟨⟨⟩, t, h₄, h⟩ := bind_ok_iff.1 h
    obtain ⟨hrefresh, rfl⟩ := announceNumber_ok_iff.1 h₄
    obtain ⟨-, rfl⟩ := announcePaths_ok_iff.1 h
    obtain ⟨hi, hj, -⟩ := deviceValues_ok hd
    refine ⟨⟨(hcounter hi).2 hseen, (hcounter hj).2 hrefresh⟩, ?_⟩
    rw [deviceOf, hd]
    rfl
  · rintro ⟨⟨⟨i, hi, hseen⟩, ⟨j, hj, hrefresh⟩⟩, rfl⟩
    have hvalues : ∀ u ∈ (streamsOf v).values, IsMap u := by
      intro u hu
      obtain ⟨k, hk⟩ := Dict.mem_values_iff.1 hu
      rw [← Dict.get?_sorted] at hk
      exact hstream (k, u) (Dict.get?_eq_some_iff.1 hk)
    obtain ⟨d, hd⟩ : ∃ d, deviceValues host (items v) (profilePaths cfg slug v) = .ok d :=
      deviceValues_isOk hi hj hstreams hvalues
    obtain ⟨hi', hj', hprofiles⟩ := deviceValues_ok hd
    cases hi.symm.trans hi'
    cases hj.symm.trans hj'
    have hdev : deviceOf host cfg slug v = d := by
      rw [deviceOf, hd]
      rfl
    refine bind_ok_iff.2 ⟨d, _, liftExcept_ok_iff.2 ⟨hd, rfl⟩, bind_ok_iff.2
      ⟨(), _, modifyObject_holding _, bind_ok_iff.2 ⟨(), _, announceNumber_ok_iff.2
        ⟨.inr hseen, rfl⟩, bind_ok_iff.2 ⟨(), _, announceNumber_ok_iff.2 ⟨.inr hrefresh, rfl⟩,
          announcePaths_ok_iff.2 ⟨.inr ?_, ?_⟩⟩⟩⟩⟩
    · rw [hprofiles]
      exact hpaths
    · rw [hdev]

/-- What the signals of the manager need, for a store with these records. -/
def ManagerOk (host : Host) (cfg : Config) (cameras : Dict Str Json) (manager : ManagerProps) : Prop :=
  (cameraPaths cfg cameras = manager.cameras ∨ ∀ path ∈ cameraPaths cfg cameras, host.isPath path) ∧
    (cfg.pollIntervalSec = manager.pollIntervalSec ∨ cfg.pollIntervalSec < 2 ^ 32)

def managerOf (cfg : Config) (cameras : Dict Str Json) : ManagerProps :=
  ⟨cameraPaths cfg cameras, cfg.autoAddDiscovered, cfg.pollIntervalSec⟩

omit [UnicodeData] in
theorem managerOk_managerOf {cameras : Dict Str Json} :
    ManagerOk host cfg cameras (managerOf cfg cameras) := ⟨.inl rfl, .inl rfl⟩

omit [UnicodeData] in
theorem syncManager_ok_iff (hmap : IsMap w.cameras) :
    syncManager host cfg w = .ok () w' ↔
      ManagerOk host cfg (items w.cameras) w.manager ∧
        w' = { w with manager := managerOf cfg (items w.cameras) } := by
  have hpoll : ((cfg.pollIntervalSec : Int) = w.manager.pollIntervalSec ∨
      0 ≤ (cfg.pollIntervalSec : Int) ∧ (cfg.pollIntervalSec : Int) < 2 ^ 32) ↔
      (cfg.pollIntervalSec = w.manager.pollIntervalSec ∨ cfg.pollIntervalSec < 2 ^ 32) := by omega
  unfold syncManager ManagerOk
  rw [get_bind, ← hpoll]
  constructor
  · intro h
    obtain ⟨d, t, h₁, h⟩ := bind_ok_iff.1 h
    obtain ⟨hd, rfl⟩ := liftExcept_ok_iff.1 h₁
    obtain ⟨-, rfl⟩ := asDict_ok_iff.1 hd
    obtain ⟨⟨⟩, t, h₂, h⟩ := bind_ok_iff.1 h
    cases h₂
    obtain ⟨⟨⟩, t, h₃, h⟩ := bind_ok_iff.1 h
    obtain ⟨hpaths, rfl⟩ := announcePaths_ok_iff.1 h₃
    obtain ⟨hpoll, rfl⟩ := announceNumber_ok_iff.1 h
    exact ⟨⟨hpaths, hpoll⟩, rfl⟩
  · rintro ⟨⟨hpaths, hpoll⟩, rfl⟩
    exact bind_ok_iff.2 ⟨_, _, liftExcept_ok_iff.2 ⟨asDict_ok_iff.2 ⟨hmap, rfl⟩, rfl⟩,
      bind_ok_iff.2 ⟨(), _, rfl, bind_ok_iff.2 ⟨(), _, announcePaths_ok_iff.2 ⟨hpaths, rfl⟩,
        announceNumber_ok_iff.2 ⟨hpoll, rfl⟩⟩⟩⟩

omit [UnicodeData] in
theorem exportsOf_eq {v : Json} : exportsOf cfg slug v =
    cameraIfaces.map (fun iface => (cameraPath cfg slug, iface)) ++
      (streamsOf v).sorted.entries.map fun e => (streamPath cfg slug e.1, Iface.stream) := by
  simp [exportsOf, profilePaths, Dict.keys]

/-- One pass through the export loop. -/
theorem record_ok_iff {v : Json} (hmap : IsMap w.cameras) (hv : (items w.cameras).get? slug = some v)
    (hnew : slug ∉ w.objects) (hbus : w.bus.Nodup) :
    (do exportCamera host cfg slug; syncCameraInterfaces host cfg slug : Boot Unit) w = .ok () w' ↔
      RecordOk host cfg slug v ∧ (w.bus ++ exportsOf cfg slug v).Nodup ∧
        ManagerOk host cfg (items w.cameras) w.manager ∧
        w' = { w.holding (exportsOf cfg slug v) slug (published host cfg slug v) with
          manager := managerOf cfg (items w.cameras) } := by
  have hpaths : (∀ e ∈ (streamsOf v).sorted.entries, host.isPath (streamPath cfg slug e.1)) ↔
      ∀ path ∈ profilePaths cfg slug v, host.isPath path := by
    simp only [profilePaths, Dict.keys, List.forall_mem_map]
  set l := cameraIfaces.map fun iface => (cameraPath cfg slug, iface) with hl
  set l' := (streamsOf v).sorted.entries.map fun e => (streamPath cfg slug e.1, Iface.stream) with hl'
  have hexports : exportsOf cfg slug v = l ++ l' := exportsOf_eq
  rw [hexports]
  constructor
  · intro h
    obtain ⟨⟨⟩, t, h₁, h⟩ := bind_ok_iff.1 h
    obtain ⟨hpath, hnodup, rfl⟩ := (exportCamera_ok_iff hnew hbus).1 h₁
    unfold syncCameraInterfaces at h
    rw [get_bind] at h
    obtain ⟨d, t, h₂, h⟩ := bind_ok_iff.1 h
    obtain ⟨hd, rfl⟩ := liftExcept_ok_iff.1 h₂
    obtain ⟨-, rfl⟩ := asDict_ok_iff.1 hd
    have hget : (items (w.holding l slug Exported.initial).cameras).get? slug = some v := hv
    rw [hget] at h
    obtain ⟨⟨⟩, t, h₃, h⟩ := bind_ok_iff.1 h
    rw [exportCamera_holding] at h₃
    cases h₃
    obtain ⟨d, t, h₄, h⟩ := bind_ok_iff.1 h
    obtain ⟨hd, rfl⟩ := liftExcept_ok_iff.1 h₄
    obtain ⟨hisMap, rfl⟩ := asDict_ok_iff.1 hd
    obtain ⟨name, t, h₅, h⟩ := bind_ok_iff.1 h
    obtain ⟨hd, rfl⟩ := liftExcept_ok_iff.1 h₅
    obtain ⟨hname, rfl⟩ := displayName_ok_iff.1 hd
    obtain ⟨⟨⟩, t, h₆, h⟩ := bind_ok_iff.1 h
    rw [modifyObject_holding] at h₆
    cases h₆
    obtain ⟨d, t, h₇, h⟩ := bind_ok_iff.1 h
    obtain ⟨hd, rfl⟩ := liftExcept_ok_iff.1 h₇
    obtain ⟨hstreams, rfl⟩ := asDict_ok_iff.1 hd
    obtain ⟨⟨⟩, t, h₈, h⟩ := bind_ok_iff.1 h
    obtain ⟨hstream, hnodup', rfl⟩ := (syncStreams_ok_iff rfl hnodup).1 h₈
    obtain ⟨⟨⟩, t, h₉, h⟩ := bind_ok_iff.1 h
    have hprofiles := hpaths.1 fun e he => (hstream e he).1
    obtain ⟨⟨hseen, hrefresh⟩, rfl⟩ := (updateDevice_ok_iff rfl hstreams
      (fun e he => (hstream e he).2) hprofiles).1 h₉
    obtain ⟨hmanager, rfl⟩ := (syncManager_ok_iff (by exact hmap)).1 h
    exact ⟨⟨hpath, hisMap, hname, hstreams, hprofiles, fun e he => (hstream e he).2, hseen, hrefresh⟩,
      hnodup', hmanager, rfl⟩
  · rintro ⟨hok, hnodup, hmanager, rfl⟩
    have hnodup' : (w.bus ++ l).Nodup := by
      rw [← List.append_assoc] at hnodup
      exact hnodup.of_append_left
    refine bind_ok_iff.2 ⟨(), _, (exportCamera_ok_iff hnew hbus).2 ⟨hok.path, hnodup', rfl⟩, ?_⟩
    unfold syncCameraInterfaces
    rw [get_bind]
    have hget : (items (w.holding l slug Exported.initial).cameras).get? slug = some v := hv
    refine bind_ok_iff.2 ⟨_, _, liftExcept_ok_iff.2 ⟨asDict_ok_iff.2 ⟨hmap, rfl⟩, rfl⟩, ?_⟩
    rw [hget]
    refine bind_ok_iff.2 ⟨(), _, exportCamera_holding, ?_⟩
    refine bind_ok_iff.2 ⟨_, _, liftExcept_ok_iff.2 ⟨asDict_ok_iff.2 ⟨hok.isMap, rfl⟩, rfl⟩, ?_⟩
    refine bind_ok_iff.2 ⟨_, _, liftExcept_ok_iff.2 ⟨displayName_ok_iff.2 ⟨hok.name, rfl⟩, rfl⟩, ?_⟩
    refine bind_ok_iff.2 ⟨(), _, modifyObject_holding _, ?_⟩
    refine bind_ok_iff.2 ⟨_, _, liftExcept_ok_iff.2 ⟨asDict_ok_iff.2 ⟨hok.streams, rfl⟩, rfl⟩, ?_⟩
    refine bind_ok_iff.2 ⟨(), _, (syncStreams_ok_iff rfl hnodup').2 ⟨fun e he =>
      ⟨hpaths.2 hok.stream_paths e he, hok.stream e he⟩, hnodup, rfl⟩, ?_⟩
    refine bind_ok_iff.2 ⟨(), _, (updateDevice_ok_iff rfl hok.streams hok.stream
      hok.stream_paths).2 ⟨⟨hok.last_seen, hok.last_refresh⟩, rfl⟩, ?_⟩
    exact (syncManager_ok_iff (by exact hmap)).2 ⟨hmanager, rfl⟩

/-- The export loop. Its first pass announces the paths of all cameras, the later ones no new path. -/
theorem forM_record_ok_iff {es : List (Str × Json)} (hmap : IsMap w.cameras)
    (hes : ∀ e ∈ es, (items w.cameras).get? e.1 = some e.2) (hkeys : (es.map Prod.fst).Nodup)
    (hnew : ∀ e ∈ es, e.1 ∉ w.objects) (hbus : w.bus.Nodup) :
    forM (es.map Prod.fst) (fun slug => (do
      exportCamera host cfg slug
      syncCameraInterfaces host cfg slug : Boot Unit)) w = .ok () w' ↔
      (∀ e ∈ es, RecordOk host cfg e.1 e.2) ∧
        (w.bus ++ es.flatMap fun e => exportsOf cfg e.1 e.2).Nodup ∧
        (es ≠ [] → ManagerOk host cfg (items w.cameras) w.manager) ∧
        w' = { w with
          bus := w.bus ++ es.flatMap fun e => exportsOf cfg e.1 e.2
          objects := w.objects.assign (es.map fun e => (e.1, published host cfg e.1 e.2))
          manager := if es.isEmpty then w.manager else managerOf cfg (items w.cameras) } := by
  induction es generalizing w with
  | nil =>
    rw [List.map_nil, List.forM_nil, pure_ok_iff]
    simp [hbus]
  | cons e es ih =>
    obtain ⟨he, hkeys⟩ := List.nodup_cons.1 hkeys
    have hv := hes e (by simp)
    -- the state after the first pass meets the assumptions for the rest
    have hnext := fun hbus' => ih (w := { w.holding (exportsOf cfg e.1 e.2) e.1
        (published host cfg e.1 e.2) with manager := managerOf cfg (items w.cameras) })
      hmap (fun e' he' => hes e' (by simp [he'])) hkeys (fun e' he' hmem => by
        rcases Dict.mem_set.1 hmem with heq | hmem
        · exact he (heq ▸ List.mem_map_of_mem he')
        · exact hnew e' (by simp [he']) hmem) hbus'
    rw [List.map_cons, List.forM_cons, bind_ok_iff, List.forall_mem_cons, List.flatMap_cons,
      ← List.append_assoc]
    constructor
    · rintro ⟨⟨⟩, t, h₁, h₂⟩
      obtain ⟨hok, hnodup, hmanager, rfl⟩ := (record_ok_iff hmap hv (hnew e (by simp)) hbus).1 h₁
      obtain ⟨hrest, hnodup', -, rfl⟩ := (hnext hnodup).1 h₂
      refine ⟨⟨hok, hrest⟩, hnodup', fun _ => hmanager, ?_⟩
      simp [Service.holding]
    · rintro ⟨⟨hok, hrest⟩, hnodup, hmanager, rfl⟩
      have hnodup' := hnodup.of_append_left
      refine ⟨(), _, (record_ok_iff hmap hv (hnew e (by simp)) hbus).2
        ⟨hok, hnodup', hmanager (by simp), rfl⟩, (hnext hnodup').2 ⟨hrest, hnodup,
          fun _ => managerOk_managerOf, ?_⟩⟩
      simp [Service.holding]

end Props

end Steps

/-! ### Which state files the service starts from -/

section Files
variable [UnicodeData] [FloatData] (host : Host) (cfg : Config)

/-- The file holds the JSON value `v`. -/
def Holds (file : Option (List Nat)) (v : Json) : Prop :=
  ∃ text, file = some (utf8Encode text) ∧ host.limit text = none ∧ loads text = some v

/-- The file is text, but not JSON. -/
def Malformed (file : Option (List Nat)) : Prop :=
  ∃ text, file = some (utf8Encode text) ∧ host.limit text = none ∧ loads text = none

/-- The camera records of a state. -/
def storeOf (state : Json) : Dict Str Json := items (getItem (items state) "cameras" (.obj []))

/-- A state whose records are well formed and do not share an object path. -/
structure StoreOk (state : Json) : Prop where
  isMap : IsMap state
  cameras : IsMap (getItem (items state) "cameras" (.obj []))
  records : ∀ e ∈ (storeOf state).entries, RecordOk host cfg e.1 e.2
  paths : ((storeOf state).entries.flatMap fun e => profilePaths cfg e.1 e.2).Nodup

/-- The service can start from the file: there is none, it is not JSON, or its store is well formed.
The polling interval has to fit its property. -/
def Startable (file : Option (List Nat)) : Prop :=
  cfg.pollIntervalSec < 2 ^ 32 ∧
    (file = none ∨ Malformed host file ∨ ∃ state, Holds host file state ∧ StoreOk host cfg state)

/-- The service starts, and its objects are those of the well-formed records. -/
def Survives (file : Option (List Nat)) : Prop :=
  ∃ w, boot host cfg file = .ok w ∧ ∀ slug obj, w.objects.get? slug = some obj ↔
    ∃ state record, Holds host file state ∧ (storeOf state).get? slug = some record ∧
      RecordOk host cfg slug record ∧ obj = published host cfg slug record

end Files

section Result
variable {host : Host} {cfg : Config} {file : Option (List Nat)}

theorem cameraPath_injective : Function.Injective (cameraPath cfg) := fun s t h => by
  simpa [cameraPath] using h

/-- Only two streams can share a path: the interfaces of a camera are at its own. -/
theorem nodup_exports_iff {store : Dict Str Json} :
    ((managerPath, Iface.manager) ::
        store.entries.flatMap fun e => exportsOf cfg e.1 e.2).Nodup ↔
      (store.entries.flatMap fun e => profilePaths cfg e.1 e.2).Nodup := by
  have hperm : ((store.entries.flatMap fun e =>
        cameraIfaces.map fun iface => (cameraPath cfg e.1, iface)) ++
      store.entries.flatMap fun e =>
        (profilePaths cfg e.1 e.2).map fun path => (path, Iface.stream)).Perm
      (store.entries.flatMap fun e => exportsOf cfg e.1 e.2) := List.flatMap_append_perm ..
  have hcameras : (store.entries.flatMap fun e =>
      cameraIfaces.map fun iface => (cameraPath cfg e.1, iface)).Nodup := by
    refine List.nodup_flatMap.2 ⟨fun e _ => ?_, ?_⟩
    · exact List.Nodup.map (fun _ _ h => (Prod.mk.inj h).2) (by decide)
    · refine (List.pairwise_map.1 store.nodup).imp fun hne x hx hx' => ?_
      obtain ⟨i, -, rfl⟩ := List.mem_map.1 hx
      obtain ⟨j, -, h⟩ := List.mem_map.1 hx'
      exact hne (cameraPath_injective (Prod.mk.inj h).1).symm
  have hmanager : (managerPath, Iface.manager) ∉
      store.entries.flatMap fun e => exportsOf cfg e.1 e.2 := by
    simp [exportsOf, cameraIfaces]
  have hdisjoint : ∀ x ∈ store.entries.flatMap fun e =>
      cameraIfaces.map fun iface => (cameraPath cfg e.1, iface),
      ∀ y ∈ (store.entries.flatMap fun e => profilePaths cfg e.1 e.2).map fun path =>
        (path, Iface.stream), x ≠ y := by
    rintro x hx y hy rfl
    obtain ⟨path, -, rfl⟩ := List.mem_map.1 hy
    simp [cameraIfaces] at hx
  rw [List.nodup_cons, and_iff_right hmanager, ← hperm.nodup_iff, ← List.map_flatMap,
    List.nodup_append, and_iff_right hcameras, and_iff_left hdisjoint]
  exact List.nodup_map_iff fun _ _ h => (Prod.mk.inj h).1

variable [UnicodeData]

/-- The paths of well-formed records can be announced. -/
theorem managerOk_iff {store : Dict Str Json}
    (hok : ∀ e ∈ store.entries, RecordOk host cfg e.1 e.2) :
    ManagerOk host cfg store ⟨[], true, 60⟩ ↔ cfg.pollIntervalSec < 2 ^ 32 := by
  have hpaths : ∀ path ∈ cameraPaths cfg store, host.isPath path := by
    intro path hp
    obtain ⟨slug, hslug, rfl⟩ := List.mem_map.1 hp
    obtain ⟨e, he, rfl⟩ := List.mem_map.1 hslug
    exact (hok e ((List.mem_insertionSort _).1 he)).path
  unfold ManagerOk
  constructor
  · rintro ⟨-, h⟩
    rcases h with h | h
    · rw [h]
      decide
    · exact h
  · exact fun h => ⟨.inr hpaths, .inr h⟩

/-- The constructed service starts exactly when its records are well formed. -/
theorem start_ok_iff {cameras : Json} {w : Service} :
    start host cfg ⟨cameras, [], Dict.empty, ⟨[], true, 60⟩⟩ = .ok () w ↔
      (IsMap cameras ∧ (∀ e ∈ (items cameras).entries, RecordOk host cfg e.1 e.2) ∧
        ((items cameras).entries.flatMap fun e => profilePaths cfg e.1 e.2).Nodup ∧
        cfg.pollIntervalSec < 2 ^ 32) ∧
      w = ⟨cameras, (managerPath, .manager) ::
          (items cameras).entries.flatMap fun e => exportsOf cfg e.1 e.2,
        Dict.ofList ((items cameras).entries.map fun e => (e.1, published host cfg e.1 e.2)),
        managerOf cfg (items cameras)⟩ := by
  set w₁ : Service := ⟨cameras, [(managerPath, .manager)], Dict.empty, ⟨[], true, 60⟩⟩ with hw₁
  set store := items cameras with hstore
  have hexport : ∀ {t : Service}, busExport host managerPath .manager
      ⟨cameras, [], Dict.empty, ⟨[], true, 60⟩⟩ = .ok () t ↔ t = w₁ := by
    intro t
    rw [busExport_ok_iff]
    simp [host.isPath_manager, hw₁]
  have hes : ∀ e ∈ store.entries, (items w₁.cameras).get? e.1 = some e.2 := fun e he =>
    Dict.get?_eq_some_iff.2 he
  have hnew : ∀ e ∈ store.entries, e.1 ∉ w₁.objects := fun e _ => by
    simp [hw₁, Dict.mem_iff_mem_keys]
  have hbus : w₁.bus.Nodup := by simp [hw₁]
  unfold start
  constructor
  · intro h
    obtain ⟨⟨⟩, t, h₁, h⟩ := bind_ok_iff.1 h
    cases hexport.1 h₁
    rw [get_bind] at h
    obtain ⟨d, t, h₂, h⟩ := bind_ok_iff.1 h
    obtain ⟨hd, rfl⟩ := liftExcept_ok_iff.1 h₂
    obtain ⟨hmap, rfl⟩ := asDict_ok_iff.1 hd
    obtain ⟨⟨⟩, t, h₃, h⟩ := bind_ok_iff.1 h
    obtain ⟨hrecords, hnodup, hmanager, rfl⟩ :=
      (forM_record_ok_iff (w := w₁) hmap hes store.nodup hnew hbus).1 h₃
    obtain ⟨hlast, rfl⟩ := (syncManager_ok_iff (by exact hmap)).1 h
    refine ⟨⟨hmap, hrecords, nodup_exports_iff.1 hnodup, (managerOk_iff hrecords).1 ?_⟩, rfl⟩
    by_cases hnil : store.entries = []
    · simpa [hnil] using hlast
    · exact hmanager hnil
  · rintro ⟨⟨hmap, hrecords, hnodup, hpoll⟩, rfl⟩
    have hmanager := (managerOk_iff hrecords).2 hpoll
    refine bind_ok_iff.2 ⟨(), w₁, hexport.2 rfl, ?_⟩
    rw [get_bind]
    refine bind_ok_iff.2 ⟨_, _, liftExcept_ok_iff.2 ⟨asDict_ok_iff.2 ⟨hmap, rfl⟩, rfl⟩, ?_⟩
    refine bind_ok_iff.2 ⟨(), _, (forM_record_ok_iff (w := w₁) hmap hes store.nodup hnew hbus).2
      ⟨hrecords, nodup_exports_iff.2 hnodup, fun _ => hmanager, rfl⟩,
      (syncManager_ok_iff (by exact hmap)).2 ⟨?_, rfl⟩⟩
    by_cases hnil : store.entries = []
    · simpa [hnil] using hmanager
    · simpa [hnil] using managerOk_managerOf

variable [FloatData]

omit [UnicodeData] in
theorem loadJson_ok_iff {default state : Json} :
    loadJson host file default = .ok state ↔
      Holds host file state ∨ ((file = none ∨ Malformed host file) ∧ state = default) := by
  cases file with
  | none =>
    constructor
    · rintro ⟨⟩
      exact .inr ⟨.inl rfl, rfl⟩
    · rintro (⟨_, h, -⟩ | ⟨-, rfl⟩)
      · cases h
      · rfl
  | some bytes =>
    have hbytes : ∀ {text}, some bytes = some (utf8Encode text) ↔ decodeUtf8 bytes = some text :=
      Option.some_inj.trans decodeUtf8_eq_some.symm
    unfold loadJson Holds Malformed
    simp only [hbytes, reduceCtorEq, false_or]
    cases decodeUtf8 bytes with
    | none => simp
    | some text =>
      cases hl : host.limit text with
      | some e => simp [hl]
      | none => cases hv : loads text <;> simp [hl, hv, eq_comm]

theorem boot_ok_iff {w : Service} :
    boot host cfg file = .ok w ↔ ∃ state, loadJson host file (.obj [("cameras", .obj [])]) = .ok state ∧
      IsMap state ∧ start host cfg ⟨getItem (items state) "cameras" (.obj []), [], Dict.empty,
        ⟨[], true, 60⟩⟩ = .ok () w := by
  unfold boot init
  constructor
  · intro h
    obtain ⟨service, h₁, h⟩ := bindExcept_ok_iff.1 h
    obtain ⟨state, hload, h₁⟩ := bindExcept_ok_iff.1 h₁
    obtain ⟨d, hd, h₁⟩ := bindExcept_ok_iff.1 h₁
    obtain ⟨hmap, rfl⟩ := asDict_ok_iff.1 hd
    cases h₁
    refine ⟨state, hload, hmap, ?_⟩
    split at h
    · rename_i hstart
      cases h
      exact hstart
    · cases h
  · rintro ⟨state, hload, hmap, hstart⟩
    refine bindExcept_ok_iff.2 ⟨_, bindExcept_ok_iff.2 ⟨state, hload, bindExcept_ok_iff.2
      ⟨_, asDict_ok_iff.2 ⟨hmap, rfl⟩, rfl⟩⟩, ?_⟩
    rw [hstart]
    rfl

omit [UnicodeData] in
/-- A file has one reading. -/
theorem Holds.unique {state state' : Json} (h : Holds host file state) (h' : Holds host file state') :
    state' = state := by
  obtain ⟨text, rfl, -, hv⟩ := h
  obtain ⟨text', htext, -, hv'⟩ := h'
  have heq := congrArg utf8Replace (Option.some.inj htext)
  rw [utf8Replace_utf8Encode, utf8Replace_utf8Encode] at heq
  rw [← heq, hv] at hv'
  exact (Option.some.inj hv').symm

omit [UnicodeData] in
theorem Malformed.not_holds {state : Json} (h : Malformed host file) : ¬ Holds host file state := by
  obtain ⟨text, rfl, -, hv⟩ := h
  rintro ⟨text', htext, -, hv'⟩
  have heq := congrArg utf8Replace (Option.some.inj htext)
  rw [utf8Replace_utf8Encode, utf8Replace_utf8Encode] at heq
  rw [← heq, hv] at hv'
  cases hv'

omit [FloatData] in
/-- The objects that `start` leaves. -/
theorem get?_objects_iff {store : Dict Str Json} {slug : Str} {obj : Exported} :
    (Dict.ofList (store.entries.map fun e => (e.1, published host cfg e.1 e.2))).get? slug = some obj ↔
      ∃ record, store.get? slug = some record ∧ obj = published host cfg slug record := by
  have hnodup : ((store.entries.map fun e => (e.1, published host cfg e.1 e.2)).map Prod.fst).Nodup := by
    rw [List.map_map]
    exact store.nodup
  rw [Dict.get?_eq_some_iff, Dict.entries_ofList hnodup]
  simp only [List.mem_map, Prod.mk.injEq, Dict.get?_eq_some_iff]
  constructor
  · rintro ⟨e, he, rfl, rfl⟩
    exact ⟨e.2, he, rfl⟩
  · rintro ⟨record, hrecord, rfl⟩
    exact ⟨(slug, record), hrecord, rfl, rfl⟩

omit [FloatData] in
theorem storeOk_default : StoreOk host cfg (.obj [("cameras", .obj [])]) where
  isMap := ⟨_, rfl⟩
  cameras := ⟨[], rfl⟩
  records := nofun
  paths := List.nodup_nil

theorem boot_of_storeOk {state : Json} (hpoll : cfg.pollIntervalSec < 2 ^ 32)
    (hok : StoreOk host cfg state)
    (hload : loadJson host file (.obj [("cameras", .obj [])]) = .ok state) :
    ∃ w, boot host cfg file = .ok w ∧ w.objects =
      Dict.ofList ((storeOf state).entries.map fun e => (e.1, published host cfg e.1 e.2)) :=
  ⟨_, boot_ok_iff.2 ⟨state, hload, hok.isMap, start_ok_iff.2
    ⟨⟨hok.cameras, hok.records, hok.paths, hpoll⟩, rfl⟩⟩, rfl⟩

/-- The constructor and `start` get through exactly the well-formed files. -/
theorem survives_iff : Survives host cfg file ↔ Startable host cfg file := by
  unfold Survives Startable
  constructor
  · rintro ⟨w, hboot, -⟩
    obtain ⟨state, hload, hmap, hstart⟩ := boot_ok_iff.1 hboot
    obtain ⟨⟨hcameras, hrecords, hpaths, hpoll⟩, -⟩ := start_ok_iff.1 hstart
    refine ⟨hpoll, ?_⟩
    rcases loadJson_ok_iff.1 hload with hholds | ⟨hnone | hbad, -⟩
    · exact .inr (.inr ⟨state, hholds, hmap, hcameras, hrecords, hpaths⟩)
    · exact .inl hnone
    · exact .inr (.inl hbad)
  · rintro ⟨hpoll, hfile⟩
    by_cases hholds : ∃ state, Holds host file state
    · obtain ⟨state, hstate⟩ := hholds
      have hok : StoreOk host cfg state := by
        rcases hfile with rfl | hbad | ⟨state', hstate', hok⟩
        · exact absurd hstate.choose_spec.1 nofun
        · exact absurd hstate hbad.not_holds
        · exact hstate'.unique hstate ▸ hok
      obtain ⟨w, hboot, hobjects⟩ := boot_of_storeOk hpoll hok (loadJson_ok_iff.2 (.inl hstate))
      refine ⟨w, hboot, fun slug obj => ?_⟩
      rw [hobjects, get?_objects_iff]
      constructor
      · rintro ⟨record, hrecord, rfl⟩
        exact ⟨state, record, hstate, hrecord,
          hok.records (slug, record) (Dict.get?_eq_some_iff.1 hrecord), rfl⟩
      · rintro ⟨state', record, hstate', hrecord, -, rfl⟩
        rw [hstate.unique hstate'] at hrecord
        exact ⟨record, hrecord, rfl⟩
    · have hload : loadJson host file (.obj [("cameras", .obj [])]) = .ok (.obj [("cameras", .obj [])]) :=
        loadJson_ok_iff.2 (.inr ⟨hfile.imp_right fun h =>
          h.resolve_right fun ⟨state, hstate, _⟩ => hholds ⟨state, hstate⟩, rfl⟩)
      obtain ⟨w, hboot, hobjects⟩ := boot_of_storeOk hpoll storeOk_default hload
      refine ⟨w, hboot, fun slug obj => ?_⟩
      rw [hobjects, get?_objects_iff]
      constructor
      · rintro ⟨record, hrecord, -⟩
        cases hrecord
      · rintro ⟨state, record, hstate, -⟩
        exact absurd ⟨state, hstate⟩ hholds

end Result

/-! ### A file that holds a list -/

namespace Sample

attribute [local instance] asciiData

local instance plainFloats : FloatData := ⟨id⟩

def host : Host where
  isPath path := path = ['/'] || isObjectPath path
  isPath_manager := by decide
  intOfStr := parseInt
  intOfFloat repr := parseInt (repr.takeWhile (· ≠ '.'))
  limit _ := none

/-- `[]` is JSON, so the default is not used, and a list has no `get`. -/
theorem list_raises : boot host IpCamera.Sample.config (some (utf8Encode "[]".toList)) =
    .error (.attributeError "get") := by
  rfl

theorem list_not_survived : ¬ Survives host IpCamera.Sample.config (some (utf8Encode "[]".toList)) := by
  rintro ⟨w, hboot, -⟩
  rw [list_raises] at hboot
  cases hboot

/-- A file with one camera, which has only a name, is started from. -/
example : Startable host IpCamera.Sample.config
    (some (utf8Encode "\x7b\"cameras\": \x7b\"a\": \x7b\"name\": \"x\"\x7d\x7d\x7d".toList)) := by
  have hrecord : RecordOk host IpCamera.Sample.config "a" (.obj [("name", .str "x")]) :=
    { path := by decide
      isMap := ⟨_, rfl⟩
      name := .inl rfl
      streams := ⟨[], rfl⟩
      stream_paths := nofun
      stream := nofun
      last_seen := ⟨0, rfl, by decide⟩
      last_refresh := ⟨0, rfl, by decide⟩ }
  refine ⟨by decide, .inr (.inr ⟨.obj [("cameras", .obj [("a", .obj [("name", .str "x")])])],
    ⟨_, rfl, rfl, rfl⟩, ⟨_, rfl⟩, ⟨_, rfl⟩, ?_, List.nodup_nil⟩)⟩
  intro e he
  rw [List.mem_singleton.1 he]
  exact hrecord

end Sample

end Startup
end IpCamera
end OpenBmc
