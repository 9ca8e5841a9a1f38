import OpenBmc.Discovery.Credentials
import OpenBmc.IpCamera.Text
import OpenBmc.Lib.Wp

/-!
# A discovery run

`main` asks go2rtc for the cameras it discovers, probes each with the credentials until one gives a
profile list, and puts every profile of the list that can be imported as a stream. A body that is
not JSON, a document of an unexpected shape or a URL that does not parse raises, and nothing catches
it: `main_imports_iff` says which answers let a run import what it found, each under a name of its
own.
-/

namespace OpenBmc
namespace Discovery
open Py

/-- How a request ends; a body is given by the document `json.load` reads, if it reads one. -/
inductive Outcome
  | httpError (code : Nat)
  | urlError
  | body (doc : Option Json)

def Outcome.accepts : Outcome → Bool
  | .body _ => true
  | _ => false

/-- What the requests of a run are answered: the discovery, the probes of each device by the position
of the credential, and the imports of each device by the position of the profile. -/
structure Answers where
  discovery : Outcome
  probe : Nat → Nat → Outcome
  put : Nat → Nat → Outcome

/-- A stream that go2rtc is asked to hold, and whether the request succeeds. -/
structure Put where
  name : Str
  src : Str
  accepted : Bool

abbrev ImportM := EStateM PyError (List Put)

/-- The environment of the script. -/
structure Config extends Environ where
  streamPrefix : Option Str

/-! ### Requests -/

def requestJson : Outcome → Except PyError Json
  | .httpError code => .error (.httpError code [])
  | .urlError => .error (.urlError [])
  | .body none => .error .jsonDecodeError
  | .body (some doc) => .ok doc

def requestSources (outcome : Outcome) : Except PyError Json :=
  match requestJson outcome with
  | .error (.httpError 404 _) => .ok (.arr [])
  | .error e => .error e
  | .ok (.obj items) => (Json.obj items).get "sources" (.arr [])
  | .ok _ => .ok (.arr [])

/-- `except (HTTPError, URLError)`. -/
def isUrlError : PyError → Bool
  | .httpError _ _ => true
  | .urlError _ => true
  | _ => false

section Import
variable [UnicodeData]

/-! ### Names -/

/-- `re.sub(r"[^a-z0-9]+", "-", value.lower()).strip("-")`. -/
def cleaned (value : Str) : Str :=
  stripBy (· = '-') ((IpCamera.subRuns false (lower value)).map fun c => if c = '_' then '-' else c)

def sanitizeFragment (value fallback : Str) : Str :=
  if cleaned value ≠ [] then cleaned value else fallback

/-- The part of a stream name that depends on the profile. -/
def hostToken (parsed : ParseResult) (index : Nat) : Str :=
  sanitizeFragment (parsed.hostname.getD "camera".toList) "camera" ++ '-' ::
    sanitizeFragment (firstValue (parseQs parsed.query) "subtype" (natStr index)) (natStr index)

def streamName (cfg : Config) (parsed : ParseResult) (index : Nat) : Str :=
  sanitizeFragment (cfg.streamPrefix.getD "onvif".toList) "onvif" ++ '-' :: hostToken parsed index

/-! ### Profiles -/

/-- `urlparse` of a value that is true: only a string can be parsed. -/
def parseValue : Json → Except PyError ParseResult
  | .str url => urlparse url
  | _ => .error (.attributeError "decode")

def textOf : Json → Str
  | .str s => s
  | _ => []

/-- `build_url`, which is the service's. -/
def buildUrl (parsed : ParseResult) (username password : Option Str) : Except PyError Str :=
  IpCamera.buildUrl parsed username password

def candidateUrls (discoveredUrl : Json) (credentials : List Credential) :
    Except PyError (List Str) := do
  let parsed ← parseValue discoveredUrl
  credentials.mapM fun c => buildUrl parsed c.1 c.2

/-- The probing loop: the candidate that gave profiles, if one did, and the last list. -/
def probeCandidates (answer : Nat → Outcome) (profileItems : Json) :
    Nat → List Str → Except PyError (Option Str × Json)
  | _, [] => .ok (none, profileItems)
  | i, candidate :: rest =>
    match requestSources (answer i) with
    | .error e => if isUrlError e then probeCandidates answer profileItems (i + 1) rest else .error e
    | .ok found =>
      if found.truthy then .ok (some candidate, found) else probeCandidates answer found (i + 1) rest

/-- A profile that can be imported. -/
structure Importable where
  index : Nat
  url : Str
  parsed : ParseResult

def readProfile (index : Nat) (profile : Json) : Except PyError (Option Importable) := do
  let url ← profile.get "url" (.str [])
  if url.truthy then
    let parsed ← parseValue url
    if ("snapshot" : Str) ∈ parseQs parsed.query then return none
    return some ⟨index, textOf url, parsed⟩
  else
    return none

/-- One `PUT`. -/
def putStream (name src : Str) (outcome : Outcome) : ImportM Nat := do
  modify (· ++ [⟨name, src, outcome.accepts⟩])
  match requestJson outcome with
  | .ok _ => return 1
  | .error e => if isUrlError e then return 0 else throw e

def importProfile (cfg : Config) (answer : Nat → Outcome) (index : Nat) (profile : Json) :
    ImportM Nat := do
  match ← liftExcept (readProfile index profile) with
  | none => return 0
  | some x => putStream (streamName cfg x.parsed x.index) x.url (answer x.index)

def importAll (cfg : Config) (answer : Nat → Outcome) : Nat → List Json → ImportM Nat
  | _, [] => return 0
  | index, profile :: rest => do
    let n ← importProfile cfg answer index profile
    return n + (← importAll cfg answer (index + 1) rest)

/-! ### Devices -/

def importProfiles (cfg : Config) (credentials : List Credential) (probe put : Nat → Outcome)
    (discoveredItem : Json) : ImportM Nat := do
  let discoveredUrl ← liftExcept (discoveredItem.get "url" (.str []))
  if discoveredUrl.truthy then
    let candidates ← liftExcept (candidateUrls discoveredUrl credentials)
    let selected ← liftExcept (probeCandidates probe (.arr []) 0 candidates)
    if selected.1.getD [] = [] then return 0
    importAll cfg put 0 (← liftExcept selected.2.iter)
  else
    return 0

def importDevices (cfg : Config) (credentials : List Credential) (answers : Answers) :
    Nat → List Json → ImportM Nat
  | _, [] => return 0
  | device, item :: rest => do
    let n ← importProfiles cfg credentials (answers.probe device) (answers.put device) item
    return n + (← importDevices cfg credentials answers (device + 1) rest)

/-- The exit code, and the number of streams that is logged as imported. -/
structure Report where
  code : Nat
  imported : Nat

def main (cfg : Config) (answers : Answers) : ImportM Report :=
  match requestSources answers.discovery with
  | .error e => if isUrlError e then return ⟨1, 0⟩ else throw e
  | .ok discovered =>
    if discovered.truthy then do
      let items ← liftExcept discovered.iter
      return ⟨0, ← importDevices cfg (readCredentials cfg.toEnviron) answers 0 items⟩
    else
      return ⟨0, 0⟩

/-! ### What a run should import -/

def sourcesOf : Json → Json
  | .obj items => (items.lookup "sources".toList).getD (.arr [])
  | _ => .arr []

/-- The URL of a discovered device or of a profile, if it has one. -/
def urlOf : Json → Json
  | .obj items => (items.lookup "url".toList).getD (.str [])
  | _ => .str []

/-- The profile, if it has a URL that parses and whose query has no `snapshot`. -/
def importable? (index : Nat) (profile : Json) : Option Importable :=
  match urlOf profile with
  | .str url =>
    if url = [] then none
    else
      match urlparse url with
      | .ok parsed =>
        if ("snapshot" : Str) ∈ parseQs parsed.query then none else some ⟨index, url, parsed⟩
      | .error _ => none
  | _ => none

def importables : Nat → List Json → List Importable
  | _, [] => []
  | index, profile :: rest => (importable? index profile).toList ++ importables (index + 1) rest

/-- The first candidate whose answer holds a list that is not empty, with the list. -/
def firstList (answer : Nat → Outcome) : Nat → List Str → Option (Str × Json)
  | _, [] => none
  | i, candidate :: rest =>
    match answer i with
    | .body (some doc) =>
      if (sourcesOf doc).truthy then some (candidate, sourcesOf doc) else firstList answer (i + 1) rest
    | _ => firstList answer (i + 1) rest

/-- The profiles to import from the first list that a credential gives. -/
def deviceImports (credentials : List Credential) (probe : Nat → Outcome) (item : Json) :
    List Importable :=
  if (urlOf item).truthy then
    match candidateUrls (urlOf item) credentials with
    | .error _ => []
    | .ok candidates =>
      match firstList probe 0 candidates with
      | some (_, .arr profiles) => importables 0 profiles
      | _ => []
  else []

def importsFrom (credentials : List Credential) (answers : Answers) : Nat → List Json → List Importable
  | _, [] => []
  | device, item :: rest =>
    deviceImports credentials (answers.probe device) item ++
      importsFrom credentials answers (device + 1) rest

def elemsOf : Json → List Json
  | .arr elems => elems
  | _ => []

/-- The devices that the first answer lists. -/
def devices (answers : Answers) : List Json :=
  match answers.discovery with
  | .body (some doc) => elemsOf (sourcesOf doc)
  | _ => []

def runImports (cfg : Config) (answers : Answers) : List Importable :=
  importsFrom (readCredentials cfg.toEnviron) answers 0 (devices answers)

/-- What a `PUT` asks for. -/
def Put.request (p : Put) : Str × Str := (p.name, p.src)

def requestOf (cfg : Config) (x : Importable) : Str × Str := (streamName cfg x.parsed x.index, x.url)

/-- The run issues one `PUT` for each profile that it should import, each with another name, and
reports the number of names that go2rtc holds from it. -/
structure Imported (cfg : Config) (answers : Answers) (report : Report) (puts : List Put) : Prop where
  requests : puts.map Put.request = (runImports cfg answers).map (requestOf cfg)
  names : (puts.map Put.name).Nodup
  count : report.imported = ((puts.filter Put.accepted).map Put.name).dedup.length

/-! ### Which answers are read -/

/-- An object whose URL is empty or parses. -/
def ProfileOk (profile : Json) : Prop :=
  ∃ items, profile = .obj items ∧ ((urlOf profile).truthy = false ∨
    ∃ url parsed, urlOf profile = .str url ∧ urlparse url = .ok parsed)

/-- No body without a document before the first list that is not empty. -/
def Decoded (answer : Nat → Outcome) : Nat → List Str → Prop
  | _, [] => True
  | i, _ :: rest =>
    match answer i with
    | .body none => False
    | .body (some doc) => (sourcesOf doc).truthy = false → Decoded answer (i + 1) rest
    | _ => Decoded answer (i + 1) rest

/-- The list is one of profiles that are read, and each import is answered by a document or refused. -/
def ListOk (put : Nat → Outcome) (found : Json) : Prop :=
  ∃ profiles, found = .arr profiles ∧ (∀ p ∈ profiles, ProfileOk p) ∧
    ∀ x ∈ importables 0 profiles, put x.index ≠ .body none

/-- The device is an object that has no URL, or one that parses and whose answers are read. The last
part is about a URL of blanks, whose only candidate is empty: its profiles are not imported. -/
def ItemOk (credentials : List Credential) (probe put : Nat → Outcome) (item : Json) : Prop :=
  (∃ items, item = .obj items) ∧ ((urlOf item).truthy = false ∨
    ∃ candidates, candidateUrls (urlOf item) credentials = .ok candidates ∧
      Decoded probe 0 candidates ∧ ∀ candidate found, firstList probe 0 candidates = some (candidate, found) →
        if candidate = [] then deviceImports credentials probe item = [] else ListOk put found)

/-- Each device of a list is read. -/
def ItemsOk (credentials : List Credential) (answers : Answers) (device : Nat) (items : List Json) : Prop :=
  ∀ i item, items[i]? = some item →
    ItemOk credentials (answers.probe (device + i)) (answers.put (device + i)) item

/-- The discovery fails, lists nothing, or lists devices that are read and whose profiles differ in
the part of their names that depends on them. -/
def Readable (cfg : Config) (answers : Answers) : Prop :=
  match answers.discovery with
  | .body none => False
  | .body (some doc) => (sourcesOf doc).truthy = false ∨ ((∃ items, sourcesOf doc = .arr items) ∧
      ItemsOk (readCredentials cfg.toEnviron) answers 0 (devices answers) ∧
      ((runImports cfg answers).map fun x => hostToken x.parsed x.index).Nodup)
  | _ => True

/-! ### Reading profiles -/

omit [UnicodeData] in
theorem requestSources_doc (doc : Json) : requestSources (.body (some doc)) = .ok (sourcesOf doc) := by
  cases doc <;> rfl

omit [UnicodeData] in
/-- A refused or failed request is caught, or reads as an empty list. -/
theorem requestSources_failed {outcome : Outcome} (h : ∀ doc, outcome ≠ .body doc) :
    requestSources outcome = .ok (.arr []) ∨
      ∃ e, requestSources outcome = .error e ∧ isUrlError e := by
  cases outcome with
  | httpError code =>
    unfold requestSources requestJson
    split
    · exact .inl rfl
    · rename_i he
      cases he
      exact .inr ⟨_, rfl, rfl⟩
    · rename_i he
      cases he
    · rename_i he
      cases he
  | urlError => exact .inr ⟨_, rfl, rfl⟩
  | body doc => exact absurd rfl (h doc)

omit [UnicodeData] in
theorem parseValue_ok {v : Json} {parsed : ParseResult} (h : parseValue v = .ok parsed) :
    ∃ url, v = .str url ∧ urlparse url = .ok parsed := by
  cases v with
  | str url => exact ⟨url, rfl, h⟩
  | null => cases h
  | bool b => cases h
  | int i => cases h
  | float r => cases h
  | arr l => cases h
  | obj l => cases h

omit [UnicodeData] in
theorem get_url_ok_iff {v u : Json} :
    v.get "url" (.str []) = .ok u ↔ (∃ items, v = .obj items) ∧ u = urlOf v := by
  cases v with
  | obj items =>
    rw [Json.get_obj, Except.ok.injEq, eq_comm]
    exact ⟨fun h => ⟨⟨items, rfl⟩, h⟩, fun h => h.2⟩
  | null => exact ⟨nofun, fun ⟨⟨_, h⟩, _⟩ => nomatch h⟩
  | bool b => exact ⟨nofun, fun ⟨⟨_, h⟩, _⟩ => nomatch h⟩
  | int i => exact ⟨nofun, fun ⟨⟨_, h⟩, _⟩ => nomatch h⟩
  | float r => exact ⟨nofun, fun ⟨⟨_, h⟩, _⟩ => nomatch h⟩
  | str s => exact ⟨nofun, fun ⟨⟨_, h⟩, _⟩ => nomatch h⟩
  | arr l => exact ⟨nofun, fun ⟨⟨_, h⟩, _⟩ => nomatch h⟩

omit [UnicodeData] in
theorem readProfile_ok_iff {index : Nat} {profile : Json} {o : Option Importable} :
    readProfile index profile = .ok o ↔ ProfileOk profile ∧ o = importable? index profile := by
  unfold readProfile ProfileOk importable?
  cases hg : profile.get "url" (.str []) with
  | error e =>
    have hno : ¬ ∃ items, profile = .obj items := fun hobj => by
      rw [get_url_ok_iff.2 ⟨hobj, rfl⟩] at hg
      cases hg
    exact ⟨(fun h => by cases h), fun h => absurd ⟨h.1.choose, h.1.choose_spec.1⟩ hno⟩
  | ok u =>
    obtain ⟨⟨items, rfl⟩, rfl⟩ := get_url_ok_iff.1 hg
    generalize urlOf (.obj items) = u
    have hother : (∀ url, u ≠ .str url) → ∀ o' : Option Importable,
        ((if u.truthy then (.error (.attributeError "decode") : Except PyError (Option Importable))
          else .ok none) = .ok o') ↔ (∃ is, Json.obj items = .obj is ∧ (u.truthy = false ∨
            ∃ url parsed, u = .str url ∧ urlparse url = .ok parsed)) ∧ o' = none := by
      intro hne o'
      cases hu : u.truthy with
      | false =>
        rw [if_neg Bool.false_ne_true, Except.ok.injEq]
        exact ⟨fun h => ⟨⟨items, rfl, .inl rfl⟩, h.symm⟩, fun h => h.2.symm⟩
      | true =>
        rw [if_pos rfl]
        refine ⟨(fun h => by cases h), ?_⟩
        rintro ⟨⟨_, _, hf | ⟨url, _, he, _⟩⟩, _⟩
        · cases hf
        · exact absurd he (hne url)
    cases u with
    | str url =>
      by_cases hurl : url = []
      · subst hurl
        show (Except.ok none = Except.ok o) ↔ _
        rw [Except.ok.injEq]
        exact ⟨fun h => ⟨⟨items, rfl, .inl rfl⟩, h.symm⟩, fun h => h.2.symm⟩
      · have htruthy : (Json.str url).truthy := by simp [Json.truthy, hurl]
        simp only [htruthy, if_true, hurl, if_false, bind, Except.bind, parseValue, textOf, pure,
          Except.pure]
        cases hp : urlparse url with
        | error e =>
          refine ⟨(fun h => by cases h), ?_⟩
          rintro ⟨⟨_, _, hf | ⟨url', parsed, he, hok⟩⟩, _⟩
          · cases hf
          · cases he
            rw [hp] at hok
            cases hok
        | ok parsed =>
          have hread : ∃ is, Json.obj items = .obj is ∧ (true = false ∨
              ∃ url' parsed', Json.str url = .str url' ∧ urlparse url' = .ok parsed') :=
            ⟨items, rfl, .inr ⟨url, parsed, rfl, hp⟩⟩
          simp only
          split
          · rw [Except.ok.injEq]
            exact ⟨fun h => ⟨hread, h.symm⟩, fun h => h.2.symm⟩
          · rw [Except.ok.injEq]
            exact ⟨fun h => ⟨hread, h.symm⟩, fun h => h.2.symm⟩
    | null => exact hother (fun url h => by cases h) o
    | bool b => exact hother (fun url h => by cases h) o
    | int i => exact hother (fun url h => by cases h) o
    | float r => exact hother (fun url h => by cases h) o
    | arr l => exact hother (fun url h => by cases h) o
    | obj l => exact hother (fun url h => by cases h) o

/-! ### Importing a list -/

/-- The request for a profile, and how it ends. -/
def putOf (cfg : Config) (put : Nat → Outcome) (x : Importable) : Put :=
  ⟨streamName cfg x.parsed x.index, x.url, (put x.index).accepts⟩

variable {cfg : Config} {put : Nat → Outcome} {st st' : List Put} {n : Nat}

omit [UnicodeData] in
theorem putStream_ok_iff {name src : Str} {outcome : Outcome} :
    putStream name src outcome st = .ok n st' ↔
      outcome ≠ .body none ∧ st' = st ++ [⟨name, src, outcome.accepts⟩] ∧
        n = [Put.mk name src outcome.accepts].countP Put.accepted := by
  have hmod : ∀ p : Put, (modify (· ++ [p]) : ImportM PUnit) st = .ok ⟨⟩ (st ++ [p]) := fun _ => rfl
  unfold putStream
  rw [bind_eq, hmod]
  cases outcome with
  | httpError code =>
    show (pure 0 : ImportM Nat) _ = _ ↔ _
    rw [pure_ok_iff]
    exact ⟨fun h => ⟨nofun, h.2, h.1⟩, fun h => ⟨h.2.2, h.2.1⟩⟩
  | urlError =>
    show (pure 0 : ImportM Nat) _ = _ ↔ _
    rw [pure_ok_iff]
    exact ⟨fun h => ⟨nofun, h.2, h.1⟩, fun h => ⟨h.2.2, h.2.1⟩⟩
  | body doc =>
    cases doc with
    | none => exact ⟨nofun, fun h => absurd rfl h.1⟩
    | some doc =>
      show (pure 1 : ImportM Nat) _ = _ ↔ _
      rw [pure_ok_iff]
      exact ⟨fun h => ⟨nofun, h.2, h.1⟩, fun h => ⟨h.2.2, h.2.1⟩⟩

theorem importProfile_ok_iff {index : Nat} {profile : Json} :
    importProfile cfg put index profile st = .ok n st' ↔ ProfileOk profile ∧
      (∀ x ∈ importable? index profile, put x.index ≠ .body none) ∧
      st' = st ++ (importable? index profile).toList.map (putOf cfg put) ∧
      n = ((importable? index profile).toList.map (putOf cfg put)).countP Put.accepted := by
  unfold importProfile
  rw [bind_ok_iff]
  constructor
  · rintro ⟨o, t, hlift, h⟩
    obtain ⟨hread, rfl⟩ := liftExcept_ok_iff.1 hlift
    obtain ⟨hok, rfl⟩ := readProfile_ok_iff.1 hread
    cases ho : importable? index profile with
    | none =>
      rw [ho] at h
      obtain ⟨rfl, rfl⟩ := pure_ok_iff.1 h
      exact ⟨hok, nofun, by simp, rfl⟩
    | some x =>
      rw [ho] at h
      obtain ⟨hput, rfl, rfl⟩ := putStream_ok_iff.1 h
      refine ⟨hok, ?_, rfl, rfl⟩
      rintro y ⟨⟩
      exact hput
  · rintro ⟨hok, hput, rfl, rfl⟩
    refine ⟨importable? index profile, st, liftExcept_ok_iff.2 ⟨readProfile_ok_iff.2 ⟨hok, rfl⟩, rfl⟩, ?_⟩
    cases ho : importable? index profile with
    | none => exact pure_ok_iff.2 ⟨rfl, by simp⟩
    | some x => exact putStream_ok_iff.2 ⟨hput x ho, rfl, rfl⟩

theorem importAll_ok_iff {profiles : List Json} {index : Nat} :
    importAll cfg put index profiles st = .ok n st' ↔ (∀ p ∈ profiles, ProfileOk p) ∧
      (∀ x ∈ importables index profiles, put x.index ≠ .body none) ∧
      st' = st ++ (importables index profiles).map (putOf cfg put) ∧
      n = ((importables index profiles).map (putOf cfg put)).countP Put.accepted := by
  induction profiles generalizing index st st' n with
  | nil =>
    unfold importAll
    rw [pure_ok_iff]
    simp [importables, and_comm]
  | cons profile rest ih =>
    unfold importAll
    simp only [bind_ok_iff, importProfile_ok_iff, ih, pure_ok_iff, importables, List.map_append,
      List.countP_append, List.forall_mem_cons, List.forall_mem_append]
    constructor
    · rintro ⟨a, t, ⟨hok, hput, rfl, rfl⟩, b, t', ⟨hrest, hputs, rfl, rfl⟩, rfl, rfl⟩
      exact ⟨⟨hok, hrest⟩, ⟨fun x hx => hput x (by simpa using hx), hputs⟩, by simp, rfl⟩
    · rintro ⟨⟨hok, hrest⟩, ⟨hput, hputs⟩, rfl, rfl⟩
      exact ⟨_, _, ⟨hok, fun x hx => hput x (by simpa using hx), rfl, rfl⟩, _, _,
        ⟨hrest, hputs, rfl, rfl⟩, rfl, by simp⟩

/-! ### Probing -/

omit [UnicodeData] in
/-- Probing returns when every answer it comes to is read, and then with the first list. -/
theorem probeCandidates_spec (answer : Nat → Outcome) (candidates : List Str) (items : Json) (i : Nat) :
    ((∃ r, probeCandidates answer items i candidates = .ok r) ↔ Decoded answer i candidates) ∧
      ∀ r, probeCandidates answer items i candidates = .ok r →
        (r.1 = none ∧ firstList answer i candidates = none) ∨
          ∃ c, r.1 = some c ∧ firstList answer i candidates = some (c, r.2) ∧ r.2.truthy := by
  induction candidates generalizing items i with
  | nil =>
    refine ⟨iff_of_true ⟨_, rfl⟩ trivial, ?_⟩
    rintro r ⟨⟩
    exact .inl ⟨rfl, rfl⟩
  | cons candidate rest ih =>
    have hskip : (∀ doc, answer i ≠ .body doc) → ∃ items',
        probeCandidates answer items i (candidate :: rest) = probeCandidates answer items' (i + 1) rest ∧
          firstList answer i (candidate :: rest) = firstList answer (i + 1) rest ∧
          (Decoded answer i (candidate :: rest) ↔ Decoded answer (i + 1) rest) := by
      intro hfail
      have hsame : firstList answer i (candidate :: rest) = firstList answer (i + 1) rest ∧
          (Decoded answer i (candidate :: rest) ↔ Decoded answer (i + 1) rest) := by
        constructor
        · rw [firstList]
          split
          · exact absurd ‹_› (hfail _)
          · rfl
        · rw [Decoded]
          split
          · exact absurd ‹_› (hfail _)
          · exact absurd ‹_› (hfail _)
          · rfl
      rcases requestSources_failed hfail with hok | ⟨e, he, hcaught⟩
      · refine ⟨.arr [], ?_, hsame⟩
        rw [probeCandidates, hok]
        exact if_neg nofun
      · refine ⟨items, ?_, hsame⟩
        rw [probeCandidates, he]
        exact if_pos hcaught
    cases ha : answer i with
    | httpError code =>
      obtain ⟨items', hrun, hfirst, hdec⟩ := hskip (by rw [ha]; nofun)
      rw [hrun, hfirst, hdec]
      exact ih items' (i + 1)
    | urlError =>
      obtain ⟨items', hrun, hfirst, hdec⟩ := hskip (by rw [ha]; nofun)
      rw [hrun, hfirst, hdec]
      exact ih items' (i + 1)
    | body doc =>
      cases doc with
      | none =>
        have hrun : probeCandidates answer items i (candidate :: rest) = .error .jsonDecodeError := by
          rw [probeCandidates, ha]
          rfl
        have hdec : ¬ Decoded answer i (candidate :: rest) := by
          unfold Decoded
          rw [ha]
          exact id
        rw [hrun]
        exact ⟨iff_of_false (fun ⟨_, h⟩ => nomatch h) hdec, nofun⟩
      | some doc =>
        have hrun : probeCandidates answer items i (candidate :: rest) =
            if (sourcesOf doc).truthy then .ok (some candidate, sourcesOf doc)
            else probeCandidates answer (sourcesOf doc) (i + 1) rest := by
          rw [probeCandidates, ha, requestSources_doc]
        have hfirst : firstList answer i (candidate :: rest) =
            if (sourcesOf doc).truthy then some (candidate, sourcesOf doc)
            else firstList answer (i + 1) rest := by
          rw [firstList, ha]
        have hdec : Decoded answer i (candidate :: rest) ↔
            ((sourcesOf doc).truthy = false → Decoded answer (i + 1) rest) := by
          rw [Decoded, ha]
        rw [hrun, hfirst, hdec]
        by_cases ht : (sourcesOf doc).truthy
        · rw [if_pos ht, if_pos ht]
          refine ⟨iff_of_true ⟨_, rfl⟩ (fun hf => ?_), ?_⟩
          · rw [ht] at hf
            cases hf
          · rintro r ⟨⟩
            exact .inr ⟨candidate, rfl, rfl, ht⟩
        · rw [if_neg ht, if_neg ht, forall_prop_of_true (Bool.eq_false_iff.2 ht)]
          exact ih (sourcesOf doc) (i + 1)

/-! ### Devices -/

omit [UnicodeData] in
/-- What is read as a list of objects is a list. -/
theorem arr_of_objects {found : Json} {elems : List Json} (ht : found.truthy)
    (hi : found.iter = .ok elems) (hp : ∀ p ∈ elems, ∃ items, p = .obj items) : found = .arr elems := by
  have hstr : ∀ s, ¬ ∃ items, Json.str s = .obj items := fun s ⟨_, h⟩ => nomatch h
  cases found with
  | arr l =>
    cases hi
    rfl
  | obj items =>
    cases hi
    cases items with
    | nil => cases ht
    | cons e items => exact absurd (hp _ (by simp)) (hstr e.1)
  | str s =>
    cases hi
    cases s with
    | nil => cases ht
    | cons c s => exact absurd (hp _ (by simp)) (hstr [c])
  | null => cases hi
  | bool b => cases hi
  | int i => cases hi
  | float r => cases hi

variable {credentials : List Credential} {probe : Nat → Outcome} {item : Json}

theorem importProfiles_ok (h : importProfiles cfg credentials probe put item st = .ok n st') :
    ∃ done, st' = st ++ done ∧ n = done.countP Put.accepted ∧
      ((ItemOk credentials probe put item ∧
          done = (deviceImports credentials probe item).map (putOf cfg put)) ∨
        (done = [] ∧ deviceImports credentials probe item ≠ [])) := by
  unfold importProfiles at h
  obtain ⟨u, t, hlift, hrun⟩ := bind_ok_iff.1 h
  clear h
  obtain ⟨hget, rfl⟩ := liftExcept_ok_iff.1 hlift
  obtain ⟨hobj, rfl⟩ := get_url_ok_iff.1 hget
  by_cases ht : (urlOf item).truthy
  · rw [if_pos ht] at hrun
    obtain ⟨candidates, t', hlift', hrest⟩ := bind_ok_iff.1 hrun
    clear hrun
    obtain ⟨hcand, rfl⟩ := liftExcept_ok_iff.1 hlift'
    obtain ⟨r, t'', hlift'', h⟩ := bind_ok_iff.1 hrest
    clear hrest
    obtain ⟨hprobe, rfl⟩ := liftExcept_ok_iff.1 hlift''
    obtain ⟨hdec, hfirst⟩ := probeCandidates_spec probe candidates (.arr []) 0
    have hdec := hdec.1 ⟨r, hprobe⟩
    have himp : deviceImports credentials probe item =
        match firstList probe 0 candidates with
        | some (_, .arr profiles) => importables 0 profiles
        | _ => [] := by
      rw [deviceImports, if_pos ht, hcand]
    rcases hfirst r hprobe with ⟨hr, hnone⟩ | ⟨c, hr, hsome, htr⟩
    · rw [hr, Option.getD_none, if_pos rfl] at h
      obtain ⟨rfl, rfl⟩ := pure_ok_iff.1 h
      refine ⟨[], by simp, rfl, .inl ⟨⟨hobj, .inr ⟨candidates, hcand, hdec, ?_⟩⟩, ?_⟩⟩
      · rw [hnone]
        nofun
      · rw [himp, hnone]
        rfl
    · rw [hr] at h
      by_cases hc : c = []
      · rw [Option.getD_some, if_pos hc] at h
        obtain ⟨rfl, rfl⟩ := pure_ok_iff.1 h
        by_cases hnil : deviceImports credentials probe item = []
        · refine ⟨[], by simp, rfl, .inl ⟨⟨hobj, .inr ⟨candidates, hcand, hdec, ?_⟩⟩, by rw [hnil]; rfl⟩⟩
          intro c' found hf
          rw [hsome] at hf
          cases hf
          rw [if_pos hc]
          exact hnil
        · exact ⟨[], by simp, rfl, .inr ⟨rfl, hnil⟩⟩
      · rw [Option.getD_some, if_neg hc] at h
        obtain ⟨profiles, u, hlift₃, hall⟩ := bind_ok_iff.1 h
        clear h
        obtain ⟨hiter, rfl⟩ := liftExcept_ok_iff.1 hlift₃
        obtain ⟨hok, hput, rfl, rfl⟩ := importAll_ok_iff.1 hall
        have harr := arr_of_objects htr hiter fun p hp => (hok p hp).imp fun _ h => h.1
        rw [hsome, harr] at himp
        refine ⟨_, rfl, rfl, .inl ⟨⟨hobj, .inr ⟨candidates, hcand, hdec, ?_⟩⟩, by rw [himp]⟩⟩
        intro c' found hf
        rw [hsome] at hf
        cases hf
        rw [if_neg hc]
        exact ⟨profiles, harr, hok, hput⟩
  · rw [if_neg ht] at hrun
    obtain ⟨rfl, rfl⟩ := pure_ok_iff.1 hrun
    refine ⟨[], by simp, rfl, .inl ⟨⟨hobj, .inl (Bool.eq_false_iff.2 ht)⟩, ?_⟩⟩
    rw [deviceImports, if_neg ht]
    rfl

theorem importProfiles_of_itemOk (cfg : Config) (h : ItemOk credentials probe put item) (st : List Put) :
    importProfiles cfg credentials probe put item st =
      .ok (((deviceImports credentials probe item).map (putOf cfg put)).countP Put.accepted)
        (st ++ (deviceImports credentials probe item).map (putOf cfg put)) := by
  obtain ⟨hobj, h⟩ := h
  unfold importProfiles
  refine bind_ok_iff.2 ⟨urlOf item, st, liftExcept_ok_iff.2 ⟨get_url_ok_iff.2 ⟨hobj, rfl⟩, rfl⟩, ?_⟩
  by_cases ht : (urlOf item).truthy
  · rw [if_pos ht]
    rcases h with hf | ⟨candidates, hcand, hdec, hlist⟩
    · rw [ht] at hf
      cases hf
    obtain ⟨hrun, hfirst⟩ := probeCandidates_spec probe candidates (.arr []) 0
    obtain ⟨r, hprobe⟩ := hrun.2 hdec
    have himp : deviceImports credentials probe item =
        match firstList probe 0 candidates with
        | some (_, .arr profiles) => importables 0 profiles
        | _ => [] := by
      rw [deviceImports, if_pos ht, hcand]
    refine bind_ok_iff.2 ⟨candidates, st, liftExcept_ok_iff.2 ⟨hcand, rfl⟩, bind_ok_iff.2 ⟨r, st,
      liftExcept_ok_iff.2 ⟨hprobe, rfl⟩, ?_⟩⟩
    rcases hfirst r hprobe with ⟨hr, hnone⟩ | ⟨c, hr, hsome, htr⟩
    · rw [hr, Option.getD_none, if_pos rfl, himp, hnone]
      exact pure_ok_iff.2 ⟨rfl, by simp⟩
    · have hlist := hlist c r.2 hsome
      rw [hr, Option.getD_some]
      by_cases hc : c = []
      · rw [if_pos hc] at hlist ⊢
        rw [hlist]
        exact pure_ok_iff.2 ⟨rfl, by simp⟩
      · rw [if_neg hc] at hlist ⊢
        obtain ⟨profiles, harr, hok, hput⟩ := hlist
        rw [hsome, harr] at himp
        rw [himp, harr]
        exact bind_ok_iff.2 ⟨profiles, st, rfl, importAll_ok_iff.2 ⟨hok, hput, rfl, rfl⟩⟩
  · rw [if_neg ht, deviceImports, if_neg ht]
    exact pure_ok_iff.2 ⟨rfl, by simp⟩

theorem importProfiles_obj (h : importProfiles cfg credentials probe put item st = .ok n st') :
    ∃ items, item = .obj items := by
  unfold importProfiles at h
  obtain ⟨u, t, hlift, -⟩ := bind_ok_iff.1 h
  exact (get_url_ok_iff.1 (liftExcept_ok_iff.1 hlift).1).1

theorem map_request_putOf (l : List Importable) :
    (l.map (putOf cfg put)).map Put.request = l.map (requestOf cfg) := by
  rw [List.map_map]
  rfl

variable {answers : Answers}

theorem itemsOk_cons {device : Nat} {rest : List Json} :
    ItemsOk credentials answers device (item :: rest) ↔
      ItemOk credentials (answers.probe device) (answers.put device) item ∧
        ItemsOk credentials answers (device + 1) rest := by
  constructor
  · intro h
    refine ⟨h 0 item rfl, fun i x hx => ?_⟩
    rw [Nat.add_assoc, Nat.add_comm 1 i]
    exact h (i + 1) x hx
  · rintro ⟨h, hrest⟩ i x hx
    cases i with
    | zero =>
      cases hx
      exact h
    | succ i =>
      rw [← Nat.add_assoc, Nat.add_right_comm]
      exact hrest i x hx

/-- Every device that is not imported as it should be issues no request at all, and so the run issues
fewer. -/
theorem importDevices_ok {device : Nat} {items : List Json}
    (h : importDevices cfg credentials answers device items st = .ok n st') :
    (∀ item ∈ items, ∃ is, item = .obj is) ∧ ∃ done, st' = st ++ done ∧ n = done.countP Put.accepted ∧
      done.length ≤ (importsFrom credentials answers device items).length ∧
      (done.length = (importsFrom credentials answers device items).length →
        ItemsOk credentials answers device items ∧
          done.map Put.request = (importsFrom credentials answers device items).map (requestOf cfg)) := by
  induction items generalizing device st st' n with
  | nil =>
    obtain ⟨rfl, rfl⟩ := pure_ok_iff.1 h
    refine ⟨nofun, [], by simp, rfl, le_rfl, fun _ => ⟨?_, rfl⟩⟩
    intro i item hi
    cases hi
  | cons item rest ih =>
    unfold importDevices at h
    obtain ⟨a, t, hfirst, hmore⟩ := bind_ok_iff.1 h
    obtain ⟨b, t', hrest, hend⟩ := bind_ok_iff.1 hmore
    obtain ⟨rfl, rfl⟩ := pure_ok_iff.1 hend
    obtain ⟨done, rfl, rfl, hdone⟩ := importProfiles_ok hfirst
    obtain ⟨hobj, done', rfl, rfl, hlen, hall⟩ := ih hrest
    have hle : done.length ≤ (deviceImports credentials (answers.probe device) item).length := by
      rcases hdone with ⟨-, rfl⟩ | ⟨rfl, -⟩
      · rw [List.length_map]
      · exact Nat.zero_le _
    refine ⟨List.forall_mem_cons.2 ⟨importProfiles_obj hfirst, hobj⟩, done ++ done', by simp,
      by rw [List.countP_append], ?_, fun heq => ?_⟩
    · rw [importsFrom, List.length_append, List.length_append]
      omega
    · rw [importsFrom, List.length_append, List.length_append] at heq
      obtain ⟨hok, hreq⟩ := hall (by omega)
      rcases hdone with ⟨hitem, rfl⟩ | ⟨rfl, hne⟩
      · rw [itemsOk_cons, importsFrom, List.map_append, List.map_append, map_request_putOf, hreq]
        exact ⟨⟨hitem, hok⟩, rfl⟩
      · have hpos := List.length_pos_of_ne_nil hne
        simp only [List.length_nil] at heq
        omega

theorem importDevices_of_itemsOk (cfg : Config) {device : Nat} {items : List Json}
    (h : ItemsOk credentials answers device items) (st : List Put) : ∃ done,
      importDevices cfg credentials answers device items st =
        .ok (done.countP Put.accepted) (st ++ done) ∧
      done.map Put.request = (importsFrom credentials answers device items).map (requestOf cfg) := by
  induction items generalizing device st with
  | nil => exact ⟨[], pure_ok_iff.2 ⟨rfl, by simp⟩, rfl⟩
  | cons item rest ih =>
    obtain ⟨hitem, hrest⟩ := itemsOk_cons.1 h
    have hfirst := importProfiles_of_itemOk cfg hitem st
    obtain ⟨done, hdone, hreq⟩ := ih hrest (st ++ (deviceImports credentials (answers.probe device)
      item).map (putOf cfg (answers.put device)))
    refine ⟨(deviceImports credentials (answers.probe device) item).map
      (putOf cfg (answers.put device)) ++ done, ?_, ?_⟩
    · unfold importDevices
      refine bind_ok_iff.2 ⟨_, _, hfirst, bind_ok_iff.2 ⟨_, _, hdone, pure_ok_iff.2 ⟨?_, ?_⟩⟩⟩
      · rw [List.countP_append]
      · rw [List.append_assoc]
    · rw [importsFrom, List.map_append, List.map_append, map_request_putOf, hreq]

/-! ### The run -/

theorem nodup_names_iff (cfg : Config) (l : List Importable) :
    ((l.map (requestOf cfg)).map Prod.fst).Nodup ↔
    (l.map fun x => hostToken x.parsed x.index).Nodup := by
  have hinj : Function.Injective fun text : Str =>
      sanitizeFragment (cfg.streamPrefix.getD "onvif".toList) "onvif" ++ '-' :: text := by
    intro a b h
    simpa using h
  have hnames : (l.map (requestOf cfg)).map Prod.fst = (l.map fun x => hostToken x.parsed x.index).map
      fun text => sanitizeFragment (cfg.streamPrefix.getD "onvif".toList) "onvif" ++ '-' :: text := by
    rw [List.map_map, List.map_map]
    rfl
  rw [hnames, List.nodup_map_iff hinj]

theorem imported_of_requests {report : Report} {puts : List Put}
    (hcount : report.imported = puts.countP Put.accepted)
    (hreq : puts.map Put.request = (runImports cfg answers).map (requestOf cfg))
    (hnames : ((runImports cfg answers).map fun x => hostToken x.parsed x.index).Nodup) :
    Imported cfg answers report puts := by
  have hnodup : (puts.map Put.name).Nodup := by
    have := (nodup_names_iff cfg (runImports cfg answers)).2 hnames
    rwa [← hreq, List.map_map] at this
  refine ⟨hreq, hnodup, ?_⟩
  have hacc : ((puts.filter Put.accepted).map Put.name).Nodup :=
    hnodup.sublist (List.filter_sublist.map _)
  rw [hacc.dedup, List.length_map, hcount, List.countP_eq_length_filter]

theorem Imported.hostTokens {report : Report} {puts : List Put} (h : Imported cfg answers report puts) :
    ((runImports cfg answers).map fun x => hostToken x.parsed x.index).Nodup := by
  rw [← nodup_names_iff cfg, ← h.requests, List.map_map]
  exact h.names

omit [UnicodeData] in
theorem elemsOf_of_not_truthy {v : Json} (h : ¬ v.truthy) : elemsOf v = [] := by
  cases v with
  | arr elems =>
    cases elems with
    | nil => rfl
    | cons e elems => exact absurd rfl h
  | null => rfl
  | bool b => rfl
  | int i => rfl
  | float r => rfl
  | str s => rfl
  | obj l => rfl

/-- Without devices there is nothing to import. -/
theorem imported_nil (hdev : devices answers = []) (code : Nat) : Imported cfg answers ⟨code, 0⟩ [] := by
  have hruns : runImports cfg answers = [] := by
    rw [runImports, hdev]
    rfl
  refine imported_of_requests rfl ?_ ?_
  · rw [hruns]
    rfl
  · rw [hruns]
    exact List.nodup_nil

/-- A run returns and imports what the discovered devices list, each under a name of its own, exactly
when every answer it gets is readable and no two of the names coincide. -/
theorem main_imports_iff (cfg : Config) (answers : Answers) :
    (∃ report puts, main cfg answers [] = .ok report puts ∧ Imported cfg answers report puts) ↔
      Readable cfg answers := by
  have hquiet : (∀ doc, answers.discovery ≠ .body doc) → ∃ report puts,
      main cfg answers [] = .ok report puts ∧ Imported cfg answers report puts := by
    intro hfail
    have hdev : devices answers = [] := by
      unfold devices
      split
      · exact absurd ‹_› (hfail _)
      · rfl
    rcases requestSources_failed hfail with hok | ⟨e, he, hcaught⟩
    · refine ⟨⟨0, 0⟩, [], ?_, imported_nil hdev 0⟩
      rw [main, hok]
      rfl
    · refine ⟨⟨1, 0⟩, [], ?_, imported_nil hdev 1⟩
      rw [main, he]
      simp only [hcaught, if_true]
      rfl
  cases hd : answers.discovery with
  | httpError code =>
    rw [Readable, hd]
    exact iff_of_true (hquiet (by rw [hd]; nofun)) trivial
  | urlError =>
    rw [Readable, hd]
    exact iff_of_true (hquiet (by rw [hd]; nofun)) trivial
  | body doc =>
    cases doc with
    | none =>
      rw [Readable, hd, main, hd]
      exact iff_of_false (fun ⟨_, _, h, _⟩ => nomatch h) id
    | some doc =>
      have hrun : main cfg answers = if (sourcesOf doc).truthy then (do
            let items ← liftExcept (sourcesOf doc).iter
            return ⟨0, ← importDevices cfg (readCredentials cfg.toEnviron) answers 0 items⟩)
          else return ⟨0, 0⟩ := by
        rw [main, hd, requestSources_doc]
      have hread : Readable cfg answers ↔ ((sourcesOf doc).truthy = false ∨
          ((∃ items, sourcesOf doc = .arr items) ∧
            ItemsOk (readCredentials cfg.toEnviron) answers 0 (devices answers) ∧
            ((runImports cfg answers).map fun x => hostToken x.parsed x.index).Nodup)) := by
        rw [Readable, hd]
      have hdevices : devices answers = elemsOf (sourcesOf doc) := by rw [devices, hd]
      rw [hrun, hread]
      by_cases ht : (sourcesOf doc).truthy
      · rw [if_pos ht]
        constructor
        · rintro ⟨report, puts, h, himp⟩
          obtain ⟨items, t, hlift, hmore⟩ := bind_ok_iff.1 h
          obtain ⟨hiter, rfl⟩ := liftExcept_ok_iff.1 hlift
          obtain ⟨n, t', hdevs, hend⟩ := bind_ok_iff.1 hmore
          obtain ⟨rfl, rfl⟩ := pure_ok_iff.1 hend
          obtain ⟨hobj, done, rfl, rfl, -, hall⟩ := importDevices_ok hdevs
          have harr := arr_of_objects ht hiter hobj
          have hdev : devices answers = items := by
            rw [hdevices, harr]
            rfl
          have hlen := congrArg List.length himp.requests
          rw [List.length_map, List.length_map, runImports, hdev] at hlen
          refine .inr ⟨⟨items, harr⟩, ?_, himp.hostTokens⟩
          rw [hdev]
          exact (hall hlen).1
        · rintro (hf | ⟨⟨items, harr⟩, hok, hnames⟩)
          · rw [ht] at hf
            cases hf
          · have hdev : devices answers = items := by
              rw [hdevices, harr]
              rfl
            rw [hdev] at hok
            obtain ⟨done, hdone, hreq⟩ := importDevices_of_itemsOk cfg hok []
            refine ⟨⟨0, done.countP Put.accepted⟩, done, ?_, imported_of_requests rfl ?_ hnames⟩
            · rw [harr]
              exact bind_ok_iff.2 ⟨items, [], rfl, bind_ok_iff.2 ⟨_, _, hdone, rfl⟩⟩
            · rw [hreq, runImports, hdev]
      · rw [if_neg ht]
        refine iff_of_true ⟨⟨0, 0⟩, [], rfl, imported_nil ?_ 0⟩ (.inl (Bool.eq_false_iff.2 ht))
        rw [hdevices]
        exact elemsOf_of_not_truthy ht

end Import

attribute [local instance] asciiData

namespace Sample

def config : Config := ⟨⟨[], [], []⟩, none⟩

/-- A source with one URL. -/
def source (url : String) : Json := .obj [("url".toList, .str url.toList)]

def sources (urls : List String) : Json := .obj [("sources".toList, .arr (urls.map source))]

/-- One camera with the given streams; every import is answered with an empty body, or not. -/
def answers (urls : List String) (put : Outcome) : Answers where
  discovery := .body (some (sources ["onvif://10.0.0.5:80"]))
  probe := fun _ _ => .body (some (sources urls))
  put := fun _ _ => put

end Sample

/-- An empty body raises after the first import, of two. -/
theorem empty_body_raises :
    returned (main Sample.config (Sample.answers ["rtsp://10.0.0.5/main", "rtsp://10.0.0.5/sub"]
        (.body none)) []) = false ∧
      (outState (main Sample.config (Sample.answers ["rtsp://10.0.0.5/main", "rtsp://10.0.0.5/sub"]
        (.body none)) [])).map Put.name = ["onvif-10-0-0-5-0".toList] ∧
      (runImports Sample.config (Sample.answers ["rtsp://10.0.0.5/main", "rtsp://10.0.0.5/sub"]
        (.body none))).map Importable.url =
          ["rtsp://10.0.0.5/main".toList, "rtsp://10.0.0.5/sub".toList] := by
  decide +kernel

end Discovery
end OpenBmc
