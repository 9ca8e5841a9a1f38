import OpenBmc.IpCamera.Refresh

/-!
# The operations of the service

The bus, the exported objects and the ten operations over the whole state. Each holds the service's
lock from its first to its last statement, so an operation is one program over `World`; an exception
leaves what was done before it. `start` is what a new process does before its first discovery.
-/

namespace OpenBmc
namespace IpCamera
open Py

abbrev Svc := EStateM PyError World

/-! ### Paths and the bus -/

def managerPath : Str := "/xyz/openbmc_project/ip_camera"

def cameraPath (cfg : Config) (slug : Slug) : Str := cfg.inventoryRoot ++ '/' :: slug.val

def streamPath (cfg : Config) (slug streamSlug : Slug) : Str :=
  cameraPath cfg slug ++ "/stream/".toList ++ streamSlug.val

/-- `bus.export`. -/
def busExport (path : Str) (iface : Iface) : Svc Unit := do
  if ¬ isObjectPath path then throw (.other "InvalidObjectPathError")
  else if (path, iface) ∈ (← get).bus then throw (.valueError "already exported")
  else modify fun w => { w with bus := w.bus ++ [(path, iface)] }

/-- `bus.unexport`. -/
def busUnexport (path : Str) (iface : Iface) : Svc Unit :=
  modify fun w => { w with bus := w.bus.filter (· ≠ (path, iface)) }

/-- The interfaces at a camera's own path. -/
def cameraIfaces : List Iface := [.inventory, .operational, .asset, .device]

/-- `camera_paths`. -/
def cameraPaths (cfg : Config) (cameras : Store) : List Str :=
  (cameras.keys.insertionSort (· ≤ ·)).map (cameraPath cfg)

def managerProps (cfg : Config) (cameras : Store) : ManagerProps :=
  ⟨cameraPaths cfg cameras, cfg.autoAddDiscovered, cfg.pollIntervalSec⟩

def syncManager (cfg : Config) : Svc Unit :=
  modify fun w => { w with manager := managerProps cfg w.cameras }

def saveState (env : Env) : Svc Unit :=
  match env.write with
  | none => modify fun w =>
      { w with file := some (reload w.cameras), written := w.written ++ [reload w.cameras] }
  | some e => throw e

def exportCamera (cfg : Config) (slug : Slug) : Svc Unit := do
  if slug ∈ (← get).objects then return
  modify fun w => { w with objects := w.objects.set slug CameraObject.initial }
  forM cameraIfaces (busExport (cameraPath cfg slug))

def unexportCamera (cfg : Config) (slug : Slug) : Svc Unit := do
  match (← get).objects.get? slug with
  | none => return
  | some obj => do
    modify fun w => { w with objects := w.objects.erase slug }
    forM obj.streams.keys fun streamSlug => busUnexport (streamPath cfg slug streamSlug) .stream
    forM cameraIfaces (busUnexport (cameraPath cfg slug))

def modifyObject (slug : Slug) (f : CameraObject → CameraObject) : Svc Unit :=
  modify fun w => match w.objects.get? slug with
    | none => w
    | some obj => { w with objects := w.objects.set slug (f obj) }

/-! ### Property values -/

section Props
variable [UnicodeData]

/-- `str(camera.get(key, ""))`. -/
def textOf (value : Option Json) : Str := (value.map Json.toStr).getD []

/-- `str(camera.get(key) or default)`. -/
def textOr (value : Option Json) (default : Str) : Str :=
  match value with
  | some v => if v.truthy then v.toStr else default
  | none => default

/-- `str(camera.get("name") or extract_address(str(camera.get("endpoint", ""))))`. -/
def Camera.displayName (c : Camera) : Except PyError Str :=
  match c.name with
  | some v => if v.truthy then .ok v.toStr else extractAddress (c.endpoint.getD [])
  | none => extractAddress (c.endpoint.getD [])

def Camera.assetProps (c : Camera) (name : Str) : AssetProps where
  manufacturer := textOr c.manufacturer (splitName name).1
  model := textOr c.model (splitName name).2
  partNumber := textOf c.hardwareId
  serialNumber := textOf c.serialNumber
  buildDate := textOf c.buildDate

def StreamRec.props (r : StreamRec) : StreamProps where
  profileToken := r.profileToken
  streamName := r.streamName.val
  streamUrl := r.streamUrl
  snapshot := r.snapshot
  profileName := r.profileName

def Camera.deviceProps (c : Camera) (profiles : List Str) : DeviceProps where
  address := c.address.getD []
  endpoint := c.endpoint.getD []
  name := textOf c.name
  authStatus := c.authStatus.getD "unknown".toList
  managed := c.managed
  lastSeenUsec := c.lastSeenUsec.getD 0
  lastRefreshUsec := c.lastRefreshUsec.getD 0
  lastError := c.lastError.getD []
  profiles
  streamNames := c.streams.values.map fun r => r.streamName.val
  snapshotSupport := c.snapshotSupport.getD false
  rawInfo := textOf c.rawInfo
  firmwareVersion := textOf c.firmwareVersion
  hardwareId := textOf c.hardwareId

/-- The part of `_sync_camera_interfaces` that brings the exported streams in line. -/
def syncStreams (cfg : Config) (slug : Slug) (streams : Dict Slug StreamRec) : Svc Unit := do
  let existing := (((← get).objects.get? slug).map fun obj => obj.streams.keys).getD []
  forM (existing.filter (· ∉ streams)) fun removed => do
    modifyObject slug fun obj => { obj with streams := obj.streams.erase removed }
    busUnexport (streamPath cfg slug removed) .stream
  forM streams.sorted.entries fun e => do
    (if e.1 ∈ existing then pure () else busExport (streamPath cfg slug e.1) .stream)
    modifyObject slug fun obj => { obj with streams := obj.streams.set e.1 e.2.props }

/-- `_sync_camera_interfaces`. -/
def syncCameraInterfaces (cfg : Config) (slug : Slug) : Svc Unit := do
  match (← get).cameras.get? slug with
  | none => throw (.keyError slug.val)
  | some camera => do
    exportCamera cfg slug
    let name ← liftExcept camera.displayName
    modifyObject slug fun obj => { obj with
      present := camera.present.getD false
      functional := camera.functional.getD false
      asset := camera.assetProps name }
    syncStreams cfg slug camera.streams
    modifyObject slug fun obj => { obj with
      device := camera.deviceProps (camera.streams.sorted.keys.map (streamPath cfg slug)) }
    syncManager cfg

/-! ### Operations -/

/-- The state once a camera's turn is over. -/
def World.commit (w : World) (slug : Slug) (t : Turn) : World :=
  { w with
    cameras := w.cameras.set slug t.camera
    sent := w.sent ++ t.sent
    go2rtc := t.sent.foldl (fun table s => s.effect table) w.go2rtc }

/-- Work on one camera; `missing` is raised when there is none. -/
def turn (slug : Slug) (missing : PyError) (m : TurnM Unit) : Svc Unit := fun w =>
  match w.cameras.get? slug with
  | none => .error missing w
  | some camera => match m ⟨camera, []⟩ with
    | .ok _ t => .ok () (w.commit slug t)
    | .error e t => .error e (w.commit slug t)

/-- `state["cameras"].setdefault(slug, {..})`, and the assignments that follow. -/
def World.upserted (w : World) (slug : Slug) (f : Camera → Camera) : World :=
  { w with cameras := w.cameras.set slug (f ((w.cameras.get? slug).getD Camera.fresh)) }

def upsert (slug : Slug) (f : Camera → Camera) : Svc Unit := modify fun w => w.upserted slug f

def refreshTurn (cfg : Config) (env : Env) (importStreams : Bool) (slug : Slug) : Svc Unit :=
  turn slug (.valueError ("unknown camera ".toList ++ slug.val))
    (refreshCamera cfg importStreams (env.turn slug))

def refreshOne (cfg : Config) (env : Env) (slug : Slug) (importStreams : Bool) : Svc Unit := do
  refreshTurn cfg env importStreams slug
  saveState env
  syncCameraInterfaces cfg slug

def refreshAll (cfg : Config) (env : Env) : Svc Unit := do
  forM (← get).cameras.keys (refreshTurn cfg env cfg.autoImportStreams)
  saveState env
  forM (← get).cameras.keys (syncCameraInterfaces cfg)

/-- A discovered device: what the discovery writes into the record. -/
structure Found where
  address : Str
  endpoint : Str
  name : Json
  info : Json
  location : Json

/-- An item of the discovery; one without a URL is skipped. -/
def readItem (item : Json) : Except PyError (Option Found) := do
  let endpoint ← stripCredentials (← item.get "url" (.str [])).toStr
  if endpoint = [] then return none
  let address ← extractAddress endpoint
  return some
    { address
      endpoint
      name := ← item.get "name" (.str address)
      info := ← item.get "info" (.str [])
      location := ← item.get "location" (.str []) }

def Camera.discovered (c : Camera) (found : Found) : Camera :=
  { c with
    address := some found.address
    endpoint := some found.endpoint
    name := some found.name
    rawInfo := some found.info
    location := some found.location }

def discoverItem (cfg : Config) (item : Json) : Svc Unit := do
  match ← liftExcept (readItem item) with
  | none => return
  | some found => do
    let slug := cameraSlug found.address
    if slug ∉ (← get).cameras ∧ ¬ cfg.autoAddDiscovered then return
    upsert slug fun c => c.discovered found
    exportCamera cfg slug

/-- The discovered items; a refusal by go2rtc counts as none. -/
def Reply.discovered (reply : Reply) : Except PyError (List Json) :=
  match reply.sources with
  | .ok items => items.iter
  | .error e => if isUrlError e then .ok [] else .error e

def discoverAndRefresh (cfg : Config) (env : Env) : Svc Unit := do
  modify fun w => { w with sent := w.sent ++ [⟨.discover, env.discovery⟩] }
  forM (← liftExcept env.discovery.discovered) (discoverItem cfg)
  refreshAll cfg env

def setCameraCredentials (cfg : Config) (env : Env) (slug : Slug) (username password : Str) :
    Svc Unit := do
  if slug ∉ (← get).cameras then throw (.keyError slug.val)
  else do
    upsert slug fun c => { c with username := some username, password := some password }
    refreshOne cfg env slug cfg.autoImportStreams

/-- `if not camera.get("name"): camera["name"] = camera["address"]`. -/
def Camera.named (c : Camera) : Camera :=
  if (c.name.map Json.truthy).getD false then c else { c with name := some (.str (c.address.getD [])) }

def Camera.added (c : Camera) (stripped username password : Str) : Camera :=
  { c with
    endpoint := some stripped
    username := some username
    password := some password
    managed := true }.named

def addCamera (cfg : Config) (env : Env) (address username password : Str) (importStreams : Bool) :
    Svc Str := do
  let endpoint ← liftExcept (ensureOnvifUrl address)
  let host ← liftExcept (extractAddress endpoint)
  let slug := cameraSlug host
  upsert slug fun c => { c with address := some host }
  let stripped ← liftExcept (stripCredentials endpoint)
  upsert slug fun c => c.added stripped username password
  exportCamera cfg slug
  refreshOne cfg env slug importStreams
  return cameraPath cfg slug

def importStreams (env : Env) (slug : Slug) : Svc Unit :=
  turn slug (.keyError slug.val) do
    reconcileGo2rtcStreams (env.turn slug) Dict.empty (← get).camera.streams

/-- The loop that deletes a camera's streams from go2rtc. -/
def deleteLoop (env : TurnEnv) : TurnM Unit := do
  sendAll env ((← get).camera.streams.values.map fun r => .deleteStream r.streamName)

def deleteStreams (env : Env) (slug : Slug) : Svc Unit :=
  turn slug (.keyError slug.val) (deleteLoop (env.turn slug))

/-- A request about one recorded stream; its failure is the caller's. -/
def streamTurn (env : Env) (slug streamSlug : Slug) (r : StreamRec → Request) : Svc Unit :=
  turn slug (.keyError slug.val) do
    match (← get).camera.streams.get? streamSlug with
    | none => throw (.valueError "unknown stream")
    | some stream => do
      let _ ← requestJson (env.turn slug) (r stream)

def importCameraStream (env : Env) (slug streamSlug : Slug) : Svc Unit :=
  streamTurn env slug streamSlug fun stream => .putStream stream.streamName stream.streamUrl

def removeCameraStream (env : Env) (slug streamSlug : Slug) : Svc Unit :=
  streamTurn env slug streamSlug fun stream => .deleteStream stream.streamName

def removeCameraByPath (cfg : Config) (env : Env) (path : Str) : Svc Unit := do
  match (← get).cameras.keys.find? fun candidate => cameraPath cfg candidate = path with
  | none => throw (.valueError ("unknown camera path ".toList ++ path))
  | some slug => do
    turn slug (.keyError slug.val) (deleteLoop (env.turn slug))
    modify fun w => { w with cameras := w.cameras.erase slug }
    unexportCamera cfg slug
    saveState env
    syncManager cfg

inductive Op
  | discoverAndRefresh
  | refreshAll
  | refreshOne (slug : Slug) (importStreams : Bool)
  | addCamera (address username password : Str) (importStreams : Bool)
  | removeCameraByPath (path : Str)
  | setCameraCredentials (slug : Slug) (username password : Str)
  | importStreams (slug : Slug)
  | deleteStreams (slug : Slug)
  | importCameraStream (slug streamSlug : Slug)
  | removeCameraStream (slug streamSlug : Slug)
deriving DecidableEq

def Op.body (cfg : Config) (env : Env) : Op → Svc Unit
  | .discoverAndRefresh => IpCamera.discoverAndRefresh cfg env
  | .refreshAll => IpCamera.refreshAll cfg env
  | .refreshOne slug imports => IpCamera.refreshOne cfg env slug imports
  | .addCamera address username password imports => do
    let _ ← IpCamera.addCamera cfg env address username password imports
  | .removeCameraByPath path => IpCamera.removeCameraByPath cfg env path
  | .setCameraCredentials slug username password =>
    IpCamera.setCameraCredentials cfg env slug username password
  | .importStreams slug => IpCamera.importStreams env slug
  | .deleteStreams slug => IpCamera.deleteStreams env slug
  | .importCameraStream slug streamSlug => IpCamera.importCameraStream env slug streamSlug
  | .removeCameraStream slug streamSlug => IpCamera.removeCameraStream env slug streamSlug

/-- One operation, with an empty log. -/
def exec (cfg : Config) (env : Env) (op : Op) (w : World) : EStateM.Result PyError World Unit :=
  op.body cfg env { w with sent := [], written := [] }

/-! ### Starting, and runs -/

/-- `start`, up to its first discovery. -/
def start (cfg : Config) : Svc Unit := do
  busExport managerPath .manager
  forM (← get).cameras.keys fun slug => do
    exportCamera cfg slug
    syncCameraInterfaces cfg slug
  syncManager cfg

/-- A new process: the store is the state file's, nothing is exported. -/
def newProcess (file : Option Store) (go2rtc : Go2rtc) : World where
  cameras := file.getD Dict.empty
  objects := Dict.empty
  bus := []
  manager := ⟨[], true, 60⟩
  file
  go2rtc
  sent := []
  written := []

/-- The states a run reaches whose operations all meet `good`. It begins without a state file and
may restart from the saved one at any time; operations that raise are part of it. -/
inductive Reachable (cfg : Config) (good : Env → Op → World → Prop) : World → Prop
  | boot {go2rtc w} : start cfg (newProcess none go2rtc) = .ok () w → Reachable cfg good w
  | op {w env o} : Reachable cfg good w → good env o w → Reachable cfg good (outState (exec cfg env o w))
  | restart {w w'} : Reachable cfg good w → start cfg (newProcess w.file w.go2rtc) = .ok () w' →
      Reachable cfg good w'

theorem Reachable.mono {cfg : Config} {good good' : Env → Op → World → Prop} {w : World}
    (h : Reachable cfg good w) (hg : ∀ env op w, good env op w → good' env op w) :
    Reachable cfg good' w := by
  induction h with
  | boot h => exact .boot h
  | op _ h ih => exact .op ih (hg _ _ _ h)
  | restart _ h ih => exact .restart ih h

end Props

/-! ### A sample run -/

namespace Sample

def env (discovery : Reply) (turn : TurnEnv) : Env := ⟨discovery, fun _ => turn, none⟩

attribute [local instance] asciiData

/-- A new service, without a state file. -/
def booted : World := outState (start config (newProcess none fun _ => none))

/-- One camera is discovered, at `10.0.0.5`, with a main and a sub stream. -/
def camera : Env :=
  env (sources ["onvif://10.0.0.5:8080/onvif/device_service"])
    (turnEnv (sources ["rtsp://10.0.0.5/live?subtype=0", "rtsp://10.0.0.5/live?subtype=1"]) accepted)

def discovered : World := outState (exec config camera .discoverAndRefresh booted)

theorem reachable_discovered {good : Env → Op → World → Prop}
    (h : good camera .discoverAndRefresh booted) : Reachable config good discovered :=
  .op (.boot (returned_iff.1 (by decide +kernel))) h

end Sample

end IpCamera
end OpenBmc
