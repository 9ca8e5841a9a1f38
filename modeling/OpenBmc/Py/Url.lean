import OpenBmc.Py.Json

/-!
# `urllib.parse`

`urlparse`, `urlunparse`, `parse_qs` and `quote` as the standard library of Python 3.13 computes
them, with the bracket and NFKC checks of `urlsplit`. A `ValueError` is the only exception.
-/

namespace OpenBmc
namespace Py

/-! ### UTF-8 and percent-encoding -/

/-- `s.encode("utf-8")`, as numbers below 256. -/
def utf8Encode (s : Str) : List Nat := s.flatMap fun c => (String.utf8EncodeChar c).map UInt8.toNat

def replacementChar : Char := Char.ofNat 0xFFFD

def isCont (b : Nat) : Bool := 0x80 ≤ b && b ≤ 0xBF

/-- The bytes that may follow the lead byte `a` of a sequence of three or four. -/
def isSecond (a b : Nat) : Bool :=
  if a = 0xE0 then 0xA0 ≤ b && b ≤ 0xBF
  else if a = 0xED then 0x80 ≤ b && b ≤ 0x9F
  else if a = 0xF0 then 0x90 ≤ b && b ≤ 0xBF
  else if a = 0xF4 then 0x80 ≤ b && b ≤ 0x8F
  else isCont b

/-- `bs.decode("utf-8", "replace")`: each maximal ill-formed part becomes one U+FFFD. -/
def utf8Replace : List Nat → Str
  | [] => []
  | [a] => if a < 0x80 then [Char.ofNat a] else [replacementChar]
  | [a, b] =>
    if a < 0x80 then Char.ofNat a :: utf8Replace [b]
    else if 0xC2 ≤ a && a ≤ 0xDF && isCont b then [Char.ofNat ((a - 0xC0) * 64 + (b - 0x80))]
    else if 0xE0 ≤ a && a ≤ 0xF4 && isSecond a b then [replacementChar]
    else replacementChar :: utf8Replace [b]
  | [a, b, c] =>
    if a < 0x80 then Char.ofNat a :: utf8Replace [b, c]
    else if 0xC2 ≤ a && a ≤ 0xDF && isCont b then
      Char.ofNat ((a - 0xC0) * 64 + (b - 0x80)) :: utf8Replace [c]
    else if 0xE0 ≤ a && a ≤ 0xF4 && isSecond a b then
      if isCont c then
        if a ≤ 0xEF then [Char.ofNat ((a - 0xE0) * 4096 + (b - 0x80) * 64 + (c - 0x80))]
        else [replacementChar]
      else replacementChar :: utf8Replace [c]
    else replacementChar :: utf8Replace [b, c]
  | a :: b :: c :: d :: rest =>
    if a < 0x80 then Char.ofNat a :: utf8Replace (b :: c :: d :: rest)
    else if 0xC2 ≤ a && a ≤ 0xDF && isCont b then
      Char.ofNat ((a - 0xC0) * 64 + (b - 0x80)) :: utf8Replace (c :: d :: rest)
    else if 0xE0 ≤ a && a ≤ 0xF4 && isSecond a b then
      if isCont c then
        if a ≤ 0xEF then
          Char.ofNat ((a - 0xE0) * 4096 + (b - 0x80) * 64 + (c - 0x80)) :: utf8Replace (d :: rest)
        else if isCont d then
          Char.ofNat ((a - 0xF0) * 262144 + (b - 0x80) * 4096 + (c - 0x80) * 64 + (d - 0x80)) ::
            utf8Replace rest
        else replacementChar :: utf8Replace (d :: rest)
      else replacementChar :: utf8Replace (c :: d :: rest)
    else replacementChar :: utf8Replace (b :: c :: d :: rest)

def isHexDigit (c : Char) : Bool :=
  c.isDigit || ('a' ≤ c && c ≤ 'f') || ('A' ≤ c && c ≤ 'F')

def hexVal (c : Char) : Nat :=
  if c.isDigit then c.toNat - 48 else if 'a' ≤ c then c.toNat - 87 else c.toNat - 55

/-- `unquote(s)`: the runs of ASCII characters are percent-decoded and then decoded as UTF-8. -/
def unquoteFrom (run : List Nat) : Str → Str
  | [] => utf8Replace run
  | [c] => if isAscii c then utf8Replace (run ++ [c.toNat]) else utf8Replace run ++ [c]
  | [c, a] =>
    if isAscii c then unquoteFrom (run ++ [c.toNat]) [a]
    else utf8Replace run ++ c :: unquoteFrom [] [a]
  | c :: a :: b :: cs =>
    if c = '%' ∧ isHexDigit a ∧ isHexDigit b then
      unquoteFrom (run ++ [16 * hexVal a + hexVal b]) cs
    else if isAscii c then unquoteFrom (run ++ [c.toNat]) (a :: b :: cs)
    else utf8Replace run ++ c :: unquoteFrom [] (a :: b :: cs)

def unquote (s : Str) : Str := unquoteFrom [] s

def unquotePlus (s : Str) : Str := unquote (s.map fun c => if c = '+' then ' ' else c)

def isUnreserved (c : Char) : Bool :=
  c.isAlphanum || c = '_' || c = '.' || c = '-' || c = '~'

def quoteByte (b : Nat) : Str :=
  if isUnreserved (Char.ofNat b) ∧ b < 128 then [Char.ofNat b]
  else ['%', ((Nat.toDigits 16 (b / 16)).map Char.toUpper).headD '0',
    ((Nat.toDigits 16 (b % 16)).map Char.toUpper).headD '0']

/-- `quote(s, safe="")`. -/
def quote (s : Str) : Str := (utf8Encode s).flatMap quoteByte

/-- `parse_qsl(qs)`: fields without a value are dropped. -/
def parseQsl (qs : Str) : List (Str × Str) :=
  (qs.splitOn '&').filterMap fun field =>
    match partition '=' field with
    | (name, some value) => if value = [] then none else some (unquotePlus name, unquotePlus value)
    | (_, none) => none

/-- `parse_qs(qs)`. -/
def parseQs (qs : Str) : Dict Str (List Str) :=
  (parseQsl qs).foldl (fun d e => d.set e.1 ((d.get? e.1).getD [] ++ [e.2])) Dict.empty

/-- `query.get(key, [default])[0]`. -/
def firstValue (query : Dict Str (List Str)) (key default : Str) : Str :=
  ((query.get? key).getD [default]).headD default

/-! ### Network locations -/

def isOctet (s : Str) : Bool :=
  s ≠ [] && s.all Char.isDigit && s.length ≤ 3 && (s = ['0'] || s.head? ≠ some '0') &&
    digitsVal s ≤ 255

/-- `IPv4Address(s)` succeeds. -/
def isIPv4 (s : Str) : Bool := (s.splitOn '.').length = 4 && (s.splitOn '.').all isOctet

def isHextet (s : Str) : Bool := s ≠ [] && s.all isHexDigit && s.length ≤ 4

/-- `_ip_int_from_string` accepts the colon-separated parts; an empty inner part is a `::`, and the
first or the last part is empty only next to it. -/
def partsOk (parts : List Str) : Bool :=
  let inner := (parts.drop 1).dropLast
  let headEmpty := parts.head? = some []
  let lastEmpty := parts.getLast? = some []
  parts.all (fun part => part = [] || isHextet part) &&
    match inner.count [] with
    | 0 => parts.length = 8 && !headEmpty && !lastEmpty
    | 1 =>
      let skip := inner.idxOf [] + 1
      let hi := if headEmpty then 0 else skip
      let lo := if lastEmpty then 0 else parts.length - skip - 1
      (!headEmpty || skip = 1) && (!lastEmpty || skip + 2 = parts.length) && hi + lo ≤ 7
    | _ => false

/-- The address, without its scope, is an IPv6 address. An IPv4 suffix counts as two parts; the
alphabet follows from the checks of the parts. -/
def isIPv6Addr (addr : Str) : Bool :=
  let parts := addr.splitOn ':'
  addr.all (fun c => isHexDigit c || c = ':' || c = '.') && 3 ≤ parts.length &&
    (if '.' ∈ parts.getLast?.getD [] then
      isIPv4 (parts.getLast?.getD []) && partsOk (parts.dropLast ++ [['0'], ['0']])
    else partsOk parts)

/-- `IPv6Address(s)` succeeds. -/
def isIPv6 (s : Str) : Bool :=
  isIPv6Addr (partition '%' s).1 &&
    match (partition '%' s).2 with
    | none => true
    | some scope => scope ≠ [] && '%' ∉ scope

/-- `re.match(r"\Av[a-fA-F0-9]+\..+\Z", s)`. -/
def isIPvFuture : Str → Bool
  | 'v' :: rest =>
    rest.takeWhile isHexDigit ≠ [] &&
      match rest.dropWhile isHexDigit with
      | '.' :: tail => tail ≠ [] && '\n' ∉ tail
      | _ => false
  | _ => false

/-- `_check_bracketed_host`. -/
def bracketedHostOk (hostname : Str) : Bool :=
  if hostname.head? = some 'v' then isIPvFuture hostname else isIPv6 hostname

/-- `_check_bracketed_netloc`. -/
def bracketedNetlocOk (netloc : Str) : Bool :=
  let hostnameAndPort := (rpartition '@' netloc).2
  match partition '[' hostnameAndPort with
  | (before, some bracketed) =>
    before = [] &&
      (match (partition ']' bracketed).2 with
        | some port => port = [] || port.head? = some ':'
        | none => true) &&
      bracketedHostOk (partition ']' bracketed).1
  | (_, none) => bracketedHostOk (partition ':' hostnameAndPort).1

/-- The checks `urlsplit` makes on a network location. -/
def checkNetloc (netloc : Str) : Except PyError Unit :=
  if ('[' ∈ netloc ∧ ']' ∉ netloc) ∨ (']' ∈ netloc ∧ '[' ∉ netloc) then
    .error (.valueError "Invalid IPv6 URL")
  else if '[' ∈ netloc ∧ bracketedNetlocOk netloc = false then
    .error (.valueError "Invalid IPv6 URL")
  else if netloc.any isNfkcDelim then
    .error (.valueError "netloc contains invalid characters under NFKC normalization")
  else .ok ()

/-- `_hostinfo`: the host name and the port text of a network location. -/
def hostinfo (netloc : Str) : Str × Option Str :=
  let info := (rpartition '@' netloc).2
  let (hostname, port) :=
    match partition '[' info with
    | (_, some bracketed) =>
      ((partition ']' bracketed).1, (partition ':' ((partition ']' bracketed).2.getD [])).2)
    | (_, none) => partition ':' info
  (hostname, if port = some [] then none else port)

/-- A host name in lower case; the zone of a scoped IPv6 address keeps its case. -/
def lowerHost [UnicodeData] (host : Str) : Str :=
  lower (partition '%' host).1 ++ ((partition '%' host).2.map ('%' :: ·)).getD []

/-! ### Splitting and joining URLs -/

structure ParseResult where
  scheme : Str
  netloc : Str
  path : Str
  params : Str
  query : Str
  fragment : Str
deriving DecidableEq

def usesNetloc : List Str :=
  ["", "ftp", "http", "gopher", "nntp", "telnet", "imap", "wais", "file", "mms", "https", "shttp",
    "snews", "prospero", "rtsp", "rtsps", "rtspu", "rsync", "svn", "svn+ssh", "sftp", "nfs", "git",
    "git+ssh", "ws", "wss", "itms-services"]

def usesParams : List Str :=
  ["", "ftp", "hdl", "prospero", "http", "imap", "https", "shttp", "rtsp", "rtsps", "rtspu", "sip",
    "sips", "mms", "sftp", "tel"]

def isSchemeChar (c : Char) : Bool := c.isAlphanum || c = '+' || c = '-' || c = '.'

/-- Leading controls and blanks go, and every tab, carriage return and newline. -/
def cleanUrl (url : Str) : Str :=
  (url.dropWhile fun c => c.toNat ≤ 32).filter fun c => c ≠ '\t' ∧ c ≠ '\r' ∧ c ≠ '\n'

def splitScheme (url : Str) : Str × Str :=
  match partition ':' url with
  | (before, some rest) =>
    if before.head?.any Char.isAlpha ∧ before.all isSchemeChar then
      (before.map Char.toLower, rest)
    else ([], url)
  | (_, none) => ([], url)

def isNetlocEnd (c : Char) : Bool := c = '/' || c = '?' || c = '#'

def splitNetloc (url : Str) : Str × Str :=
  match url with
  | '/' :: '/' :: rest =>
    (rest.takeWhile (!isNetlocEnd ·), rest.dropWhile (!isNetlocEnd ·))
  | _ => ([], url)

/-- `_splitparams`: the parameters start at the first `;` after the last `/`. -/
def splitParams (url : Str) : Str × Str :=
  let (before, last) := rpartition '/' url
  match partition ';' last with
  | (head, some params) => ((before.map (· ++ ['/'])).getD [] ++ head, params)
  | (_, none) => (url, [])

/-- `urlparse(url)`. -/
def urlparse (url : Str) : Except PyError ParseResult :=
  let (scheme, rest) := splitScheme (cleanUrl url)
  let (netloc, rest) := splitNetloc rest
  match checkNetloc netloc with
  | .error e => .error e
  | .ok () =>
    let (rest, fragment) := partition '#' rest
    let (path, query) := partition '?' rest
    let (path, params) := if scheme ∈ usesParams then splitParams path else (path, [])
    .ok ⟨scheme, netloc, path, params, query.getD [], fragment.getD []⟩

/-- `urlunsplit`, up to the query. -/
def unsplitPath (scheme netloc url : Str) : Str :=
  if netloc ≠ [] then
    ['/', '/'] ++ netloc ++ (if url ≠ [] ∧ url.head? ≠ some '/' then '/' :: url else url)
  else if url.take 2 = ['/', '/'] then ['/', '/'] ++ url
  else if scheme ≠ [] ∧ scheme ∈ usesNetloc ∧ (url = [] ∨ url.head? = some '/') then
    ['/', '/'] ++ url
  else url

/-- A separator and the part behind it, both left out when the part is empty. -/
def optPart (sep : Char) (part : Str) : Str := if part = [] then [] else sep :: part

/-- `urlunparse(parsed)`. -/
def urlunparse (p : ParseResult) : Str :=
  (if p.scheme = [] then [] else p.scheme ++ [':']) ++
    unsplitPath p.scheme p.netloc (p.path ++ optPart ';' p.params) ++
    optPart '?' p.query ++ optPart '#' p.fragment

namespace ParseResult

/-- `parsed.hostname`. -/
def hostname [UnicodeData] (p : ParseResult) : Option Str :=
  let host := (hostinfo p.netloc).1
  if host = [] then none else some (lowerHost host)

/-- `parsed.port`. -/
def port (p : ParseResult) : Except PyError (Option Nat) :=
  match (hostinfo p.netloc).2 with
  | none => .ok none
  | some text =>
    if text.all Char.isDigit then
      if digitsVal text ≤ 65535 then .ok (some (digitsVal text))
      else .error (.valueError "Port out of range 0-65535")
    else .error (.valueError "Port could not be cast to integer value")

end ParseResult

end Py
end OpenBmc
