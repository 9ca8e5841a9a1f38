import OpenBmc.IpCamera.Text
import OpenBmc.Py.Quote

/-!
# Credentials in a URL

`build_url` puts percent-encoded credentials in front of the host and `strip_credentials` takes them
away. The result parses to the same parts, gives the credentials back, and stripping it gives the
URL that is built without credentials.
-/

namespace OpenBmc
namespace IpCamera
open Py

/-- `parsed.username` and `parsed.password`, percent-encoded. -/
def userinfo (netloc : Str) : Option Str × Option Str :=
  match (rpartition '@' netloc).1 with
  | none => (none, none)
  | some info => (some (partition ':' info).1, (partition ':' info).2)

/-- The decoded credentials of a URL. -/
def credentials (p : ParseResult) : Option Str × Option Str :=
  ((userinfo p.netloc).1.map unquote, (userinfo p.netloc).2.map unquote)

/-! ### Quoted credentials -/

def quotedUser (username password : Str) : Str := quote username ++ ':' :: quote password

theorem mem_quotedUser {username password : Str} {c : Char} (h : c ∈ quotedUser username password) :
    isUnreserved c ∨ c = '%' ∨ c = ':' := by
  rcases List.mem_append.1 h with h | h
  · exact (mem_quote h).imp_right .inl
  · rcases List.mem_cons.1 h with rfl | h
    · exact .inr (.inr rfl)
    · exact (mem_quote h).imp_right .inl

theorem not_mem_quotedUser {username password : Str} {d : Char} (hu : isUnreserved d = false)
    (hp : d ≠ '%') (hc : d ≠ ':') : d ∉ quotedUser username password := by
  intro h
  rcases mem_quotedUser h with h | h | h
  · rw [hu] at h
    cases h
  · exact hp h
  · exact hc h

theorem isAscii_quotedUser {username password : Str} :
    ∀ c ∈ quotedUser username password, isAscii c := by
  intro c h
  rcases mem_quotedUser h with h | rfl | rfl
  · exact isAscii_of_isUnreserved h
  · decide
  · decide

theorem userinfo_quotedUser {username password netloc : Str} (h : '@' ∉ netloc) :
    userinfo (quotedUser username password ++ '@' :: netloc) =
      (some (quote username), some (quote password)) := by
  have hcolon : ':' ∉ quote username := by
    intro hm
    rcases mem_quote hm with h | h
    · cases h
    · cases h
  rw [userinfo, rpartition_append h]
  simp only [quotedUser, partition_append hcolon]

/-! ### Built URLs -/

/-- The URL with a host and a port, and the quoted credentials in front of them. -/
def withUser (p : ParseResult) (username password host : Str) (o : Option Nat) : ParseResult :=
  { p with netloc := quotedUser username password ++ '@' :: hostPort host o }

section Built
variable [UnicodeData] {p : ParseResult} {host username password : Str} {o : Option Nat}

theorem buildUrl_some (hh : p.hostname = some host) (ho : p.port = .ok o) :
    buildUrl p (some username) (some password) =
      .ok (urlunparse (withUser p username password host o)) := by
  simp only [buildUrl, ho, hh, Option.getD_some, bind, Except.bind, pure, Except.pure]
  rfl

theorem buildUrl_none (hh : p.hostname = some host) (ho : p.port = .ok o) :
    buildUrl p none none = .ok (urlunparse (p.withHostPort host o)) := by
  simp only [buildUrl, ho, hh, Option.getD_some, bind, Except.bind, pure, Except.pure]
  rfl

theorem user_not_mem_hostPort (hh : IsHost host) (o : Option Nat) : '@' ∉ hostPort host o := by
  intro hm
  refine forall_hostPort (P := (· ≠ '@')) (fun c hc => ?_) (by decide) (by decide) (by decide)
    (fun c hd => ?_) o '@' hm rfl
  · rintro rfl
    exact hh.user hc
  · rintro rfl
    cases hd

theorem shaped_withUser (hp : Parsed p) (hh : IsHost host) (hne : p.netloc ≠ []) :
    Shaped (withUser p username password host o) := by
  have hs : Shaped (p.withHostPort host o) := hp.toShaped.withHostPort (fun _ => hne) hh.toHostText
  refine { scheme := hs.scheme, netloc := fun c hc => ?_, path := hs.path, slash := fun _ => ?_,
           params := hs.params, query := hs.query, breaks := fun c hc => ?_ }
  · rcases List.mem_append.1 hc with hc | hc
    · simp only [isNetlocEnd, Bool.or_eq_false_iff, decide_eq_false_iff_not]
      refine ⟨⟨?_, ?_⟩, ?_⟩ <;> rintro rfl <;>
        exact not_mem_quotedUser rfl (by decide) (by decide) hc
    · rcases List.mem_cons.1 hc with rfl | hc
      · rfl
      · exact hs.netloc c hc
  · exact hp.slash hne
  · have hb := hs.breaks c
    show c ≠ '\t' ∧ c ≠ '\r' ∧ c ≠ '\n'
    simp only [withUser, List.append_assoc, List.cons_append, List.mem_append, List.mem_cons] at hc
    simp only [List.append_assoc, List.mem_append] at hb
    rcases hc with hc | rfl | hc
    · refine ⟨?_, ?_, ?_⟩ <;> rintro rfl <;>
        exact not_mem_quotedUser rfl (by decide) (by decide) hc
    · decide
    · exact hb hc

theorem parse_withUser (hp : Parsed p) (hh : IsHost host) (hne : p.netloc ≠ []) :
    urlparse (urlunparse (withUser p username password host o)) =
      .ok (withUser p username password host o) := by
  have hnet : (withUser p username password host o).netloc ≠ [] := by
    show quotedUser username password ++ '@' :: hostPort host o ≠ []
    simp
  rw [urlparse_urlunparse (shaped_withUser hp hh hne) (.inr hnet)]
  show (checkNetloc (quotedUser username password ++ '@' :: hostPort host o)).map _ = _
  rw [checkNetloc_user (user_not_mem_hostPort hh o)
    (not_mem_quotedUser rfl (by decide) (by decide)) (not_mem_quotedUser rfl (by decide) (by decide))
    (fun c hc => not_isNfkcDelim_of_isAscii (isAscii_quotedUser c hc)) (hh.checkNetloc_hostPort o)]
  rfl

theorem hostname_withUser (hh : IsHost host) (hne : host ≠ []) :
    (withUser p username password host o).hostname = some host := by
  have hinfo : hostinfo (withUser p username password host o).netloc = (host, o.map natStr) :=
    (hostinfo_user (user_not_mem_hostPort hh o)).trans (hh.hostinfo_hostPort o)
  rw [ParseResult.hostname, hinfo]
  simp only [hne, if_false, hh.lower]

theorem port_withUser (hh : IsHost host) (ho : p.port = .ok o) :
    (withUser p username password host o).port = .ok o := by
  have hinfo : hostinfo (withUser p username password host o).netloc =
      hostinfo (p.withHostPort host o).netloc := hostinfo_user (user_not_mem_hostPort hh o)
  rw [← port_withHostPort (p := p) hh (port_le ho), ParseResult.port, ParseResult.port, hinfo]

theorem credentials_withUser (hh : IsHost host) :
    credentials (withUser p username password host o) = (some username, some password) := by
  show ((userinfo (quotedUser username password ++ '@' :: hostPort host o)).1.map unquote,
    (userinfo (quotedUser username password ++ '@' :: hostPort host o)).2.map unquote) = _
  rw [userinfo_quotedUser (user_not_mem_hostPort hh o)]
  simp only [Option.map_some, unquote_quote]

end Built

/-! ### The codec -/

section Codec
variable [UnicodeData]

/-- What the codec promises of a URL, its host and its port: credentials that are built into it come
out again, nothing else changes, and stripping takes them away. -/
structure Codec (p : ParseResult) (username password built : Str) : Prop where
  parsed : ∃ q, urlparse built = .ok q ∧ q.scheme = p.scheme ∧ q.hostname = p.hostname ∧
    q.port = p.port ∧ q.path = p.path ∧ q.params = p.params ∧ q.query = p.query ∧
    q.fragment = p.fragment ∧ credentials q = (some username, some password)
  stripped : ∃ s, stripCredentials built = .ok s ∧ buildUrl p none none = .ok s

/-- A stripped URL is stripped. The URL may have no scheme and no host. -/
theorem stripCredentials_idem {url s : Str} {p : ParseResult} (hp : urlparse url = .ok p)
    (hb : Addressable (p.hostname.getD [])) (h : stripCredentials url = .ok s) :
    stripCredentials s = .ok s := by
  obtain ⟨p₁, o, hp₁, ho, rfl⟩ := stripCredentials_ok h
  rw [hp] at hp₁
  cases hp₁
  have hpars := parsed_of_urlparse hp
  have hshape := shaped_withHostPort hpars ho
  refine stripCredentials_of_reparsed (reparsed hpars ho hb ?_)
  by_cases hne : p.scheme ≠ [] ∨ hostPort (p.hostname.getD []) o ≠ []
  · exact urlparse_urlunparse hshape hne
  · simp only [not_or, not_not] at hne
    exact urlparse_of_splitScheme hshape (splitScheme_path hp hne.1 hshape hne.1 hne.2 rfl)

theorem userinfo_codec :
    (∀ (url : Str) (p : ParseResult) (host : Str) (o : Option Nat) (username password : Str),
      urlparse url = .ok p → p.hostname = some host → Addressable host → p.port = .ok o →
        ∃ built, buildUrl p (some username) (some password) = .ok built ∧
          Codec p username password built) ∧
      ∀ (url : Str) (p : ParseResult) (s : Str), urlparse url = .ok p →
        Addressable (p.hostname.getD []) → stripCredentials url = .ok s →
          stripCredentials s = .ok s := by
  refine ⟨fun url p host o username password hp hh ha ho => ?_,
    fun url p s hp hb h => stripCredentials_idem hp hb h⟩
  have hpars := parsed_of_urlparse hp
  have hhost : IsHost host := by
    have := isHost_of_hostname hpars (by rw [hh]; exact ha)
    rwa [hh] at this
  have hne : host ≠ [] := hostname_ne_nil hh
  have hnet : p.netloc ≠ [] := netloc_ne_nil (.inl (by rw [hh]; nofun))
  have hparse : urlparse (urlunparse (withUser p username password host o)) =
      .ok (withUser p username password host o) := parse_withUser hpars hhost hnet
  have hname : (withUser p username password host o).hostname = some host :=
    hostname_withUser hhost hne
  have hport : (withUser p username password host o).port = .ok o := port_withUser hhost ho
  refine ⟨_, buildUrl_some hh ho, ⟨_, hparse, rfl, hname.trans hh.symm, hport.trans ho.symm, rfl, rfl,
    rfl, rfl, credentials_withUser hhost⟩, _, ?_, buildUrl_none hh ho⟩
  simp only [stripCredentials, hparse, hport, hname, bind, Except.bind, pure, Except.pure,
    Option.getD_some]
  rfl

end Codec

attribute [local instance] asciiData

namespace Sample

def literal : ParseResult :=
  ⟨"rtsp".toList, "admin:x@[fe80::1]:554".toList, "/live".toList, [], "channel=1".toList, []⟩

end Sample

theorem literal_codec : ∃ built,
    buildUrl Sample.literal (some "a:b@[c]".toList) (some "pä%/?#".toList) = .ok built ∧
      Codec Sample.literal "a:b@[c]" "pä%/?#" built ∧
      stripCredentials "rtsp://[fe80::1]:554/live?channel=1".toList =
        .ok "rtsp://[fe80::1]:554/live?channel=1".toList := by
  have hp : urlparse "rtsp://admin:x@[fe80::1]:554/live?channel=1".toList = .ok Sample.literal := by
    rfl
  have hh : Sample.literal.hostname = some "fe80::1".toList := by decide +kernel
  have ha : Addressable "fe80::1".toList := fun _ => by decide +kernel
  have ho : Sample.literal.port = .ok (some 554) := by rfl
  have hs : stripCredentials "rtsp://admin:x@[fe80::1]:554/live?channel=1".toList =
      .ok "rtsp://[fe80::1]:554/live?channel=1".toList := by rfl
  obtain ⟨built, hb, hc⟩ := userinfo_codec.1 _ _ _ _ "a:b@[c]" "pä%/?#" hp hh ha ho
  exact ⟨built, hb, hc, userinfo_codec.2 _ _ _ hp (by rw [hh]; exact ha) hs⟩

end IpCamera
end OpenBmc
