import OpenBmc.IpCamera.Slug
import OpenBmc.Py.Netloc

/-!
# Addresses, URLs and names

The functions of the service that compute on text: `strip_credentials`, `build_url`,
`ensure_onvif_url`, `extract_address`, `make_stream_name` and `split_name`. `Hosted url host` says
that a URL has a scheme and names a host; stripping such a URL keeps the host and stripping it again
changes nothing (`Hosted.strip`).
-/

namespace OpenBmc
namespace IpCamera
open Py

def splitName (value : Str) : Str × Str :=
  match words value with
  | [] => ([], [])
  | [model] => ([], model)
  | manufacturer :: model => (manufacturer, [' '].intercalate model)

section Text
variable [UnicodeData]

def stripCredentials (url : Str) : Except PyError Str := do
  let parsed ← urlparse url
  let port ← parsed.port
  return urlunparse (parsed.withHostPort (parsed.hostname.getD []) port)

/-- The URL with the credentials, percent-encoded, in front of its host. -/
def buildUrl (parsed : ParseResult) (username password : Option Str) : Except PyError Str := do
  let port ← parsed.port
  let netloc := hostPort (parsed.hostname.getD []) port
  let netloc := match username with
    | none => netloc
    | some username => quote username ++ ':' :: quote (password.getD []) ++ '@' :: netloc
  return urlunparse { parsed with netloc }

def ensureOnvifUrl (address : Str) : Except PyError Str := do
  let parsed ← urlparse address
  if parsed.scheme ≠ [] then return address
  let host := strip address
  if host = [] then throw (.valueError "address is required")
  return "onvif://".toList ++ host ++ "/onvif/device_service".toList

def extractAddress (url : Str) : Except PyError Str := do
  let parsed ← urlparse url
  return parsed.hostname.getD url

def Slug.camera : Slug := ⟨"camera", by decide +kernel⟩
def Slug.ipcam : Slug := ⟨"ipcam", by decide +kernel⟩
def Slug.stream : Slug := ⟨"stream", by decide +kernel⟩

/-- The host part of a stream name. -/
def hostSlug (parsed : ParseResult) : Slug :=
  sanitizeFragment (parsed.hostname.getD "camera".toList) Slug.camera

/-- The last part of a stream name: the `subtype` of the query, or the position in the list. -/
def tokenSlug (parsed : ParseResult) (index : Nat) : Slug :=
  sanitizeFragment (firstValue (parseQs parsed.query) "subtype" (natStr index)) (Slug.ofNat index)

def prefixSlug (streamPrefix : Str) : Slug := sanitizeFragment streamPrefix Slug.ipcam

def makeStreamName (streamPrefix sourceUrl : Str) (index : Nat) : Except PyError Slug := do
  let parsed ← urlparse sourceUrl
  return ((prefixSlug streamPrefix).join (hostSlug parsed)).join (tokenSlug parsed index)

/-- The key of the camera at an address. -/
def cameraSlug (address : Str) : Slug := sanitizeFragment address Slug.camera

theorem stripCredentials_ok {url s : Str} (h : stripCredentials url = .ok s) :
    ∃ p o, urlparse url = .ok p ∧ p.port = .ok o ∧
      s = urlunparse (p.withHostPort (p.hostname.getD []) o) := by
  rcases hp : urlparse url with e | p
  · simp [stripCredentials, hp, bind, Except.bind] at h
  · rcases ho : p.port with e | o
    · simp [stripCredentials, hp, ho, bind, Except.bind] at h
    · refine ⟨p, o, rfl, ho, ?_⟩
      simpa [stripCredentials, hp, ho, bind, Except.bind, pure, Except.pure, eq_comm] using h

theorem extractAddress_ok {url : Str} {p : ParseResult} (h : urlparse url = .ok p) :
    extractAddress url = .ok (p.hostname.getD url) := by
  simp [extractAddress, h, bind, Except.bind, pure, Except.pure]

/-! ### Stripping twice -/

/-- Names and IPv4 addresses hold no bracket, and every IPv6 address holds a colon: this excludes
some `IPvFuture` literals only. -/
def Addressable (host : Str) : Prop := '[' ∈ host ∨ ']' ∈ host → ':' ∈ host

theorem shaped_withHostPort {p : ParseResult} {o : Option Nat} (hp : Parsed p) (ho : p.port = .ok o) :
    Shaped (p.withHostPort (p.hostname.getD []) o) := by
  refine hp.toShaped.withHostPort (fun hne => netloc_ne_nil ?_) (hostText_of_hostname hp)
  by_contra hno
  simp only [ne_eq, not_or, not_not] at hno
  rw [hno.2] at ho
  cases ho
  simp [hno.1, hostPort] at hne

/-- A stripped URL that splits as it was put together parses to the same host and port. -/
theorem reparsed {p : ParseResult} {o : Option Nat} (hp : Parsed p) (ho : p.port = .ok o)
    (hb : Addressable (p.hostname.getD []))
    (hre : urlparse (urlunparse (p.withHostPort (p.hostname.getD []) o)) =
      (checkNetloc (hostPort (p.hostname.getD []) o)).map fun _ =>
        p.withHostPort (p.hostname.getD []) o) :
    urlparse (urlunparse (p.withHostPort (p.hostname.getD []) o)) =
        .ok (p.withHostPort (p.hostname.getD []) o) ∧
      (p.withHostPort (p.hostname.getD []) o).hostname = p.hostname ∧
      (p.withHostPort (p.hostname.getD []) o).port = .ok o := by
  have hhost := isHost_of_hostname hp hb
  have hname : (p.withHostPort (p.hostname.getD []) o).hostname = p.hostname := by
    rw [hostname_withHostPort hhost]
    split
    · rename_i hnil
      cases hh : p.hostname with
      | none => rfl
      | some host => rw [hh, Option.getD_some] at hnil; exact absurd hnil (hostname_ne_nil hh)
    · rename_i hne
      cases hh : p.hostname with
      | none => simp [hh] at hne
      | some host => rfl
  refine ⟨?_, hname, port_withHostPort hhost (port_le ho)⟩
  rw [hre, hhost.checkNetloc_hostPort o]
  rfl

theorem stripCredentials_of_reparsed {p : ParseResult} {o : Option Nat}
    (h : urlparse (urlunparse (p.withHostPort (p.hostname.getD []) o)) =
        .ok (p.withHostPort (p.hostname.getD []) o) ∧
      (p.withHostPort (p.hostname.getD []) o).hostname = p.hostname ∧
      (p.withHostPort (p.hostname.getD []) o).port = .ok o) :
    stripCredentials (urlunparse (p.withHostPort (p.hostname.getD []) o)) =
      .ok (urlunparse (p.withHostPort (p.hostname.getD []) o)) := by
  obtain ⟨hre, hname, hport⟩ := h
  simp only [stripCredentials, hre, hport, hname, bind, Except.bind, pure, Except.pure]
  rfl

/-- Stripping a URL with a scheme gives one that does not parse, or one with the same scheme and
host that stripping leaves alone. -/
theorem stripCredentials_strip {url s : Str} {p : ParseResult} (hp : urlparse url = .ok p)
    (hs : p.scheme ≠ []) (h : stripCredentials url = .ok s) : (∃ e, urlparse s = .error e) ∨
      ∃ p', urlparse s = .ok p' ∧ p'.scheme = p.scheme ∧ p'.hostname = p.hostname ∧
        stripCredentials s = .ok s := by
  obtain ⟨p₁, o, hp₁, ho, rfl⟩ := stripCredentials_ok h
  rw [hp] at hp₁
  cases hp₁
  have hpars := parsed_of_urlparse hp
  have hre := urlparse_urlunparse (shaped_withHostPort hpars ho) (.inl hs)
  by_cases hb : Addressable (p.hostname.getD [])
  · have hsame := reparsed hpars ho hb hre
    exact .inr ⟨_, hsame.1, rfl, hsame.2.1, stripCredentials_of_reparsed hsame⟩
  · obtain ⟨e, he⟩ := checkNetloc_hostPort_error (o := o) hb
    refine .inl ⟨e, hre.trans ?_⟩
    show (checkNetloc (hostPort _ _)).map _ = _
    rw [he]
    rfl

/-! ### URLs that name a host -/

/-- The URL has a scheme and a valid port, and names the host, which holds no bracket. -/
structure Hosted (url host : Str) : Prop where
  parsed : ∃ p o, urlparse url = .ok p ∧ p.scheme ≠ [] ∧ p.hostname = some host ∧ p.port = .ok o
  lbracket : '[' ∉ host
  rbracket : ']' ∉ host

namespace Hosted
variable {url host : Str}

theorem isHost (h : Hosted url host) : IsHost host := by
  obtain ⟨p, o, hp, -, hh, -⟩ := h.parsed
  have := isHost_of_hostname (parsed_of_urlparse hp) (by simp [hh, h.lbracket, h.rbracket])
  rwa [hh] at this

theorem ensureOnvifUrl (h : Hosted url host) : ensureOnvifUrl url = .ok url := by
  obtain ⟨p, o, hp, hs, -⟩ := h.parsed
  simp [IpCamera.ensureOnvifUrl, hp, hs, bind, Except.bind, pure, Except.pure]

theorem extractAddress (h : Hosted url host) : extractAddress url = .ok host := by
  obtain ⟨p, o, hp, -, hh, -⟩ := h.parsed
  simp [IpCamera.extractAddress, hp, hh, bind, Except.bind, pure, Except.pure]

/-- Stripping keeps scheme, host and port, and is done once and for all. -/
theorem strip (h : Hosted url host) : ∃ s, stripCredentials url = .ok s ∧ Hosted s host ∧
    stripCredentials s = .ok s := by
  obtain ⟨p, o, hp, hs, hh, ho⟩ := h.parsed
  have hst : stripCredentials url = .ok (urlunparse (p.withHostPort host o)) := by
    simp [stripCredentials, hp, ho, hh, bind, Except.bind, pure, Except.pure]
  have hpars := parsed_of_urlparse hp
  have hshape : Shaped (p.withHostPort host o) := hpars.toShaped.withHostPort
    (fun _ => netloc_ne_nil (.inl (by simp [hh]))) h.isHost.toHostText
  have hre : urlparse (urlunparse (p.withHostPort host o)) = .ok (p.withHostPort host o) := by
    rw [urlparse_urlunparse hshape (.inl hs)]
    show (checkNetloc (hostPort _ _)).map _ = _
    rw [h.isHost.checkNetloc_hostPort o]
    rfl
  have hname : (p.withHostPort host o).hostname = some host := by
    rw [hostname_withHostPort h.isHost, if_neg (hostname_ne_nil hh)]
  refine ⟨_, hst, ⟨⟨_, o, hre, hs, hname, port_withHostPort h.isHost (port_le ho)⟩, h.2, h.3⟩, ?_⟩
  rcases stripCredentials_strip hp hs hst with ⟨e, he⟩ | ⟨-, -, -, -, hss⟩
  · rw [hre] at he; cases he
  · exact hss

theorem host_unique {host' : Str} (h : Hosted url host) (h' : Hosted url host') : host = host' := by
  obtain ⟨p, o, hp, -, hh, -⟩ := h.parsed
  obtain ⟨p', o', hp', -, hh', -⟩ := h'.parsed
  rw [hp] at hp'
  cases hp'
  rw [hh] at hh'
  exact Option.some.inj hh'

end Hosted

/-- A host name is its own lower-case form, so the key derived from it is stable. -/
theorem cameraSlug_lower (s : Str) : cameraSlug (lower s) = cameraSlug s := by
  have hc : cleaned (lower s) = cleaned s := by rw [cleaned, cleaned, lower_lower]
  simp only [cameraSlug, sanitizeFragment, hc]

/-! ### Stream names -/

theorem makeStreamName_ok {streamPrefix url : Str} {index : Nat} {p : ParseResult}
    (h : urlparse url = .ok p) : makeStreamName streamPrefix url index =
      .ok (((prefixSlug streamPrefix).join (hostSlug p)).join (tokenSlug p index)) := by
  simp [makeStreamName, h, bind, Except.bind, pure, Except.pure]

end Text

end IpCamera
end OpenBmc
