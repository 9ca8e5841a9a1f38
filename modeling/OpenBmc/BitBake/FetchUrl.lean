import OpenBmc.Py.Quote

/-!
# Fetch URLs

The class `URI` of the fetcher, with the parameters behind the first `;`, and the three functions on
URLs. `decodeurl` goes through `urlparse`, `decodemirrorurl` through one regular expression, whose
matches are written out here; its user is as long as it can be while a location follows.
-/

namespace OpenBmc
namespace BitBake
namespace FetchUrl
open Py

inductive Error where
  | malformedUrl
  | missingParameter
  | unboundLocal
  | py (e : Py.PyError)

/-! ### `URI` -/

structure URI where
  scheme : Str
  userinfo : Str
  hostname : Str
  port : Option ℕ
  path : Str
  params : Dict Str (Option Str)
  query : Dict Str (Option Str)
  relative : Bool

namespace URI

def empty : URI := ⟨[], [], [], none, [], Dict.empty, Dict.empty, false⟩

/-- The setter of `path`. -/
def setPath (uri : URI) (path : Str) : URI :=
  { uri with path := path, relative := ¬ (path = [] ∨ path.head? = some '/') }

/-- `_param_str_split`. -/
def paramStrSplit (string : Str) (elmdelim : Char) : Dict Str (Option Str) :=
  Dict.ofList (((string.splitOn elmdelim).filter (· ≠ [])).map (partition '='))

/-- `_param_str_join`. -/
def paramStrJoin (dict : Dict Str (Option Str)) (elmdelim : Char) : Str :=
  [elmdelim].intercalate (dict.entries.map fun e =>
    match e.2 with
    | some v => if v ≠ [] then e.1 ++ '=' :: v else e.1
    | none => e.1)

def hostport (uri : URI) : Str :=
  match uri.port with
  | none => uri.hostname
  | some port => if port = 0 then uri.hostname else uri.hostname ++ ':' :: natStr port

def username (uri : URI) : Str := (partition ':' uri.userinfo).1

def password (uri : URI) : Str := ((partition ':' uri.userinfo).2).getD []

/-- The setter of `username`. -/
def setUsername (uri : URI) (username : Str) : URI :=
  { uri with
    userinfo := if uri.password ≠ [] then username ++ ':' :: uri.password else username }

/-- The setter of `password`. -/
def setPassword (uri : URI) (password : Str) : URI :=
  { uri with userinfo := uri.username ++ ':' :: password }

/-- `urllib.parse.quote(path)`, which leaves a slash as it is. -/
def quotePath (path : Str) : Str :=
  (utf8Encode path).flatMap fun b => if b = 47 then ['/'] else quoteByte b

/-- `str(uri)`. -/
def str (uri : URI) : Str :=
  uri.scheme ++ ':' :: ((if uri.relative then [] else "//".toList) ++
    (if uri.userinfo ≠ [] then uri.userinfo ++ ['@'] else []) ++ uri.hostport ++
    quotePath uri.path ++
    (if uri.query.entries ≠ [] then '?' :: paramStrJoin uri.query '&' else []) ++
    (if uri.params.entries ≠ [] then ';' :: paramStrJoin uri.params ';' else []))

/-- `re.sub(r"(?<=:)//(?!/)", "", uri, count=1)`. -/
def dropSlashes : Str → Str
  | ':' :: '/' :: '/' :: rest =>
    if rest.head? = some '/' then ':' :: dropSlashes ('/' :: '/' :: rest) else ':' :: rest
  | c :: cs => c :: dropSlashes cs
  | [] => []

/-- `re.match(r"^\w+:(?!//)", uri)` for a URL with the scheme `file` or `git`, whose word characters
are ASCII. -/
def isRelative (uri : Str) : Bool :=
  match partition ':' uri with
  | (word, some rest) =>
    word ≠ [] && word.all (fun c => c.isAlphanum || c = '_') && !"//".toList.isPrefixOf rest
  | (_, none) => false

/-- `urlp.username`, with an empty one for None, and `urlp.password`. -/
def userPassword (netloc : Str) : Str × Option Str :=
  match (rpartition '@' netloc).1 with
  | some userinfo => partition ':' userinfo
  | none => ([], none)

variable [UnicodeData]

/-- `URI(uri)`. The URL is parsed a second time: without the slashes if it is a local file, and
otherwise for nothing, as the part before a `;` has no parameters. -/
def parse (uri : Str) : Except Error URI :=
  if uri = [] then .ok empty
  else
    let (uri, paramStr) := partition ';' uri
    match urlparse uri with
    | .error e => .error (.py e)
    | .ok first =>
      let uri := if first.scheme = "file".toList then dropSlashes uri else uri
      match urlparse uri with
      | .error e => .error (.py e)
      | .ok urlp =>
        let relative := urlp.scheme ∈ ["file".toList, "git".toList] && isRelative uri
        let userinfo :=
          match userPassword urlp.netloc with
          | (username, none) => username
          | (username, some password) =>
            if password ≠ [] then username ++ ':' :: password else username
        match if relative then .ok none else urlp.port with
        | .error e => .error (.py e)
        | .ok port => .ok <| setPath ⟨first.scheme, if relative then [] else userinfo,
          if relative then [] else urlp.hostname.getD [], port, [],
          match paramStr with
          | some s => paramStrSplit s ';'
          | none => Dict.empty,
          if urlp.query ≠ [] then paramStrSplit urlp.query '&' else Dict.empty, relative⟩
          (unquote urlp.path)

end URI

/-! ### The codec -/

structure Decoded (β : Type) where
  type : Str
  host : Str
  path : Str
  user : Str
  pswd : Str
  params : Dict Str β
  deriving DecidableEq

/-- The tokens with values that may be None. -/
def Decoded.optional (t : Decoded Str) : Decoded (Option Str) :=
  ⟨t.type, t.host, t.path, t.user, t.pswd, t.params.mapValues fun _ => some⟩

/-- The tokens with the host in lower case. -/
def Decoded.foldHost [UnicodeData] {β : Type} (t : Decoded β) : Decoded β :=
  { t with host := lower t.host }

def decodeurl [UnicodeData] (url : Str) : Except Error (Decoded (Option Str)) :=
  (URI.parse url).map fun uri =>
    ⟨uri.scheme, uri.hostport, if uri.path = [] then ['/'] else uri.path, uri.username, uri.password,
      uri.params⟩

/-- `path.replace("//", "/")`. -/
def replaceSlashes : Str → Str
  | '/' :: '/' :: cs => '/' :: replaceSlashes cs
  | c :: cs => c :: replaceSlashes cs
  | [] => []

/-- The loop `while '//' in path`; each round makes the path shorter. -/
def collapse : ℕ → Str → Str
  | 0, path => path
  | fuel + 1, path => if contains "//".toList path then collapse fuel (replaceSlashes path) else path

def encodeurl (decoded : Decoded (Option Str)) : Except Error Str :=
  if decoded.type = [] then .error .missingParameter
  else
    let uri := { URI.empty with scheme := decoded.type }
    let uri :=
      if decoded.user ≠ [] ∧ decoded.type ≠ "file".toList then
        let uri := uri.setUsername decoded.user
        if decoded.pswd ≠ [] then uri.setPassword decoded.pswd else uri
      else uri
    let uri :=
      if decoded.host ≠ [] ∧ decoded.type ≠ "file".toList then { uri with hostname := decoded.host }
      else uri
    let uri :=
      if decoded.path ≠ [] then
        let uri := uri.setPath (collapse decoded.path.length decoded.path)
        if decoded.type = "file".toList then { uri with relative := false } else uri
      else uri
    let uri := if decoded.params.entries ≠ [] then { uri with params := decoded.params } else uri
    .ok uri.str

/-! ### The regular expression of `decodemirrorurl` -/

/-- `[^;]+` matches here. -/
def startsLocation (s : Str) : Bool := s.head?.any (· ≠ ';')

/-- `([^/;]+)@` with a location behind it, where `run` are the characters it may take and `rest` those
behind them. -/
def mirrorUser : ℕ → Str → Str → Option (Str × Str)
  | 0, _, _ => none
  | fuel + 1, run, rest =>
    match rpartition '@' run with
    | (none, _) => none
    | (some user, host) =>
      if user ≠ [] ∧ startsLocation (host ++ rest) then some (user, host ++ rest)
      else mirrorUser fuel user ('@' :: (host ++ rest))

def isUserChar (c : Char) : Bool := c ≠ '/' && c ≠ ';'

/-- The groups `type`, `user`, `location` and `parm`. -/
def mirrorMatch (url : Str) : Option (Str × Option Str × Str × Option Str) :=
  match partition ':' url with
  | (type, some ('/' :: '/' :: rest)) =>
    let run := rest.takeWhile isUserChar
    let (user, rest) :=
      match mirrorUser (run.length + 1) run (rest.dropWhile isUserChar) with
      | some (user, rest) => (some user, rest)
      | none => (none, rest)
    if startsLocation rest then
      some (type, user, rest.takeWhile (· ≠ ';'),
        match rest.dropWhile (· ≠ ';') with
        | _ :: parm => some (parm.takeWhile (· ≠ '\n'))
        | [] => none)
    else none
  | _ => none

/-- User and password; the pattern wants a character before the colon, and what the password is
without a match is not said. -/
def mirrorPassword (user : Str) : Except Error (Str × Str) :=
  if user = [] then .ok ([], [])
  else if user.head? = some ':' then .error .unboundLocal
  else .ok (user.takeWhile (· ≠ ':'), ((user.dropWhile (· ≠ ':')).drop 1).takeWhile (· ≠ '\n'))

def mirrorParams (params : Dict Str Str) : List Str → Except Error (Dict Str Str)
  | [] => .ok params
  | s :: ss =>
    if s = [] then mirrorParams params ss
    else
      match partition '=' s with
      | (_, none) => .error .malformedUrl
      | (s1, some s2) => mirrorParams (params.set s1 s2) ss

def decodemirrorurl [UnicodeData] (url : Str) : Except Error (Decoded Str) :=
  match mirrorMatch url with
  | none => .error .malformedUrl
  | some (type, user, location, parm) => do
    let isFile := lower type = "file".toList
    let (host, path) :=
      if isFile then
        ([], match user with
          | some user => user ++ '@' :: location
          | none => location)
      else
        match partition '/' location with
        | (host, some path) => (host, '/' :: path)
        | (host, none) => (host, ['/'])
    let (user, pswd) ← mirrorPassword (if isFile then [] else user.getD [])
    let params ← mirrorParams Dict.empty (((parm.getD []).splitOn ';'))
    .ok ⟨type, host, unquote path, user, pswd, params⟩

end FetchUrl
end BitBake
end OpenBmc
