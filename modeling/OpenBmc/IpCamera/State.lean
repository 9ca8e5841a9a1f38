import OpenBmc.IpCamera.Text
import OpenBmc.Lib.Wp

/-!
# The state of the service

The camera records as `state["cameras"]` holds them, the D-Bus objects with their property values,
the state file, go2rtc's stream table, and what the outside answers during one operation. A key that
a record may lack is an `Option`. The names of cameras and streams are slugs by construction.
-/

namespace OpenBmc
namespace IpCamera
open Py

/-! ### Object paths -/

def isPathElement (s : Str) : Bool := s ≠ [] && s.all fun c => c.isAlphanum || c = '_'

theorem isPathElement_slug (s : Slug) : isPathElement s.val := by
  simp only [isPathElement, Bool.and_eq_true, decide_eq_true_eq, List.all_eq_true, Bool.or_eq_true]
  refine ⟨s.isSlug.ne_nil, fun c hc => (s.isSlug.chars c hc).imp (fun h => ?_) id⟩
  simp only [isSlugChar, Bool.or_eq_true] at h
  simp only [Char.isAlphanum, Char.isAlpha, Bool.or_eq_true]
  tauto

/-- `is_object_path_valid`, for a path below the root. -/
def isObjectPath : Str → Bool
  | '/' :: rest => (rest.splitOn '/').all isPathElement
  | _ => false

/-- The configuration; `inventory_root` has lost its final slashes. -/
structure Config where
  inventoryRoot : Str
  root_valid : inventoryRoot = [] ∨ isObjectPath inventoryRoot
  autoAddDiscovered : Bool
  autoImportStreams : Bool
  pollIntervalSec : Nat
  streamPrefix : Str

/-! ### Records -/

structure StreamRec where
  profileName : Str
  profileToken : Str
  snapshot : Bool
  streamName : Slug
  streamUrl : Str
deriving DecidableEq

structure Camera where
  managed : Bool
  streams : Dict Slug StreamRec
  address : Option Str
  endpoint : Option Str
  name : Option Json
  rawInfo : Option Json
  location : Option Json
  username : Option Str
  password : Option Str
  lastRefreshUsec : Option Nat
  lastSeenUsec : Option Nat
  present : Option Bool
  functional : Option Bool
  authStatus : Option Str
  lastError : Option Str
  snapshotSupport : Option Bool
  manufacturer : Option Json
  model : Option Json
  hardwareId : Option Json
  serialNumber : Option Json
  buildDate : Option Json
  firmwareVersion : Option Json

namespace Camera

/-- `{"managed": True, "streams": {}}`. -/
def fresh : Camera where
  managed := true
  streams := Dict.empty
  address := none
  endpoint := none
  name := none
  rawInfo := none
  location := none
  username := none
  password := none
  lastRefreshUsec := none
  lastSeenUsec := none
  present := none
  functional := none
  authStatus := none
  lastError := none
  snapshotSupport := none
  manufacturer := none
  model := none
  hardwareId := none
  serialNumber := none
  buildDate := none
  firmwareVersion := none

/-- The record read back from the state file, which lists every object's keys in order. -/
def reloaded (c : Camera) : Camera :=
  { c with
    streams := c.streams.sorted
    name := c.name.map Json.sortKeys
    rawInfo := c.rawInfo.map Json.sortKeys
    location := c.location.map Json.sortKeys
    manufacturer := c.manufacturer.map Json.sortKeys
    model := c.model.map Json.sortKeys
    hardwareId := c.hardwareId.map Json.sortKeys
    serialNumber := c.serialNumber.map Json.sortKeys
    buildDate := c.buildDate.map Json.sortKeys
    firmwareVersion := c.firmwareVersion.map Json.sortKeys }

end Camera

/-- `state["cameras"]`. -/
abbrev Store := Dict Slug Camera

/-- The store read back from the state file. -/
def reload (store : Store) : Store := (store.mapValues fun _ => Camera.reloaded).sorted

/-! ### D-Bus objects -/

/-- `xyz.openbmc_project.IpCamera.Stream`. -/
structure StreamProps where
  profileToken : Str
  streamName : Str
  streamUrl : Str
  snapshot : Bool
  profileName : Str
deriving DecidableEq

def StreamProps.initial : StreamProps := ⟨[], [], [], false, []⟩

/-- `xyz.openbmc_project.IpCamera.Device`. -/
structure DeviceProps where
  address : Str
  endpoint : Str
  name : Str
  authStatus : Str
  managed : Bool
  lastSeenUsec : Nat
  lastRefreshUsec : Nat
  lastError : Str
  profiles : List Str
  streamNames : List Str
  snapshotSupport : Bool
  rawInfo : Str
  firmwareVersion : Str
  hardwareId : Str
deriving DecidableEq

def DeviceProps.initial : DeviceProps where
  address := []
  endpoint := []
  name := []
  authStatus := "unknown"
  managed := true
  lastSeenUsec := 0
  lastRefreshUsec := 0
  lastError := []
  profiles := []
  streamNames := []
  snapshotSupport := false
  rawInfo := []
  firmwareVersion := []
  hardwareId := []

/-- `xyz.openbmc_project.Inventory.Decorator.Asset`. -/
structure AssetProps where
  manufacturer : Str
  model : Str
  partNumber : Str
  serialNumber : Str
  buildDate : Str
deriving DecidableEq

/-- A `CameraObject`: the values of `Present` and `Functional`, the asset and device properties, and
its exported streams. -/
structure CameraObject where
  present : Bool
  functional : Bool
  asset : AssetProps
  device : DeviceProps
  streams : Dict Slug StreamProps

def CameraObject.initial : CameraObject where
  present := false
  functional := false
  asset := ⟨[], [], [], [], []⟩
  device := DeviceProps.initial
  streams := Dict.empty

/-- `xyz.openbmc_project.IpCamera.Manager`. -/
structure ManagerProps where
  cameras : List Str
  discoveryEnabled : Bool
  pollIntervalSec : Nat
deriving DecidableEq

inductive Iface
  | manager
  | inventory
  | operational
  | asset
  | device
  | stream
deriving DecidableEq

instance : LawfulBEq (Str × Iface) := inferInstance

/-! ### Requests to go2rtc -/

/-- The requests the service makes. -/
inductive Request
  /-- `GET api/onvif` -/
  | discover
  /-- `GET api/onvif?src=..` -/
  | probe (src : Str)
  /-- `PUT api/streams?name=..&src=..` -/
  | putStream (name : Slug) (src : Str)
  /-- `DELETE api/streams?src=..` -/
  | deleteStream (name : Slug)
deriving DecidableEq

/-- What comes of a request. A body that is not JSON is `none`; `raised` is any exception other than
`HTTPError` and `URLError`, after the request was carried out or not. -/
inductive Reply
  | httpError (code : Nat) (msg : Str)
  | urlError (reason : Str)
  | body (payload : Option Json)
  | raised (applied : Bool) (msg : Str)

namespace Reply

/-- `_request_json_sync`. -/
def json : Reply → Except PyError Json
  | httpError code msg => .error (.httpError code msg)
  | urlError reason => .error (.urlError reason)
  | body none => .error .jsonDecodeError
  | body (some payload) => .ok payload
  | raised _ msg => .error (.other msg)

/-- `request_sources`: a 404 is an empty list, and so is a body that is not an object. -/
def sources (reply : Reply) : Except PyError Json :=
  match reply.json with
  | .error (.httpError code msg) => if code = 404 then .ok (.arr []) else .error (.httpError code msg)
  | .error e => .error e
  | .ok (.obj items) => .ok ((items.lookup ("sources" : Str)).getD (.arr []))
  | .ok _ => .ok (.arr [])

/-- go2rtc did what it was asked. -/
def carriedOut : Reply → Bool
  | body _ => true
  | raised applied _ => applied
  | _ => false

end Reply

/-- `except (HTTPError, URLError)` catches it. -/
def isUrlError : PyError → Bool
  | .httpError _ _ => true
  | .urlError _ => true
  | _ => false

/-- `str(error)`. -/
def errorText : PyError → Str
  | .httpError code msg => "HTTP Error ".toList ++ natStr code ++ [':', ' '] ++ msg
  | .urlError reason => "<urlopen error ".toList ++ reason ++ ['>']
  | _ => []

structure Sent where
  request : Request
  reply : Reply

/-- go2rtc's stream table. -/
abbrev Go2rtc := Str → Option Str

def Sent.effect (s : Sent) (table : Go2rtc) : Go2rtc :=
  if s.reply.carriedOut then
    match s.request with
    | .putStream name src => fun n => if n = name.val then some src else table n
    | .deleteStream name => fun n => if n = name.val then none else table n
    | _ => table
  else table

/-! ### The world -/

/-- The service, the bus, the state file and go2rtc. `sent` and `written` are the requests and the
file writes of the operation under way. -/
structure World where
  cameras : Store
  objects : Dict Slug CameraObject
  bus : List (Str × Iface)
  manager : ManagerProps
  file : Option Store
  go2rtc : Go2rtc
  sent : List Sent
  written : List Store

/-- What the outside answers while one camera is worked on: the replies in order, and the clock. -/
structure TurnEnv where
  reply : Nat → Reply
  refreshedAt : Nat
  seenAt : Nat

/-- What the outside answers during one operation. -/
structure Env where
  discovery : Reply
  turn : Slug → TurnEnv
  write : Option PyError

/-! ### Sample inputs -/

namespace Sample

def config : Config where
  inventoryRoot := "/inventory"
  root_valid := .inr (by decide)
  autoAddDiscovered := true
  autoImportStreams := true
  pollIntervalSec := 60
  streamPrefix := "ipcam"

/-- `{"sources": [{"url": ..}, ..]}`. -/
def sources (urls : List String) : Reply :=
  .body (some (.obj [("sources", .arr (urls.map fun url => .obj [("url", .str url)]))]))

/-- The reply to the first request about a camera, and the reply to all others. -/
def turnEnv (first rest : Reply) : TurnEnv where
  reply n := if n = 0 then first else rest
  refreshedAt := 1
  seenAt := 2

def accepted : Reply := .body (some .null)

end Sample

end IpCamera
end OpenBmc
