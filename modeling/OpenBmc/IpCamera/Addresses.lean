import OpenBmc.IpCamera.Text

/-!
# Addresses without a scheme

`ensure_onvif_url` makes a URL of what a user types. It asks `urlparse` for a scheme, and `urlparse`
takes what stands before the first colon for one whenever it can. So a host name with a port is
understood when it cannot be a scheme, and an IPv6 literal when it stands in brackets.
-/

namespace OpenBmc
namespace IpCamera
open Py

/-- The characters of DNS names and of IPv4 addresses. -/
def isNameChar (c : Char) : Bool := c.isAlphanum || c = '-' || c = '.' || c = '_'

def isHostName (host : Str) : Bool := host ≠ [] && host.all isNameChar

def portText (port : Option Nat) : Str := (port.map fun n => ':' :: natStr n).getD []

/-- `host` or `host:port`, where an IPv6 literal is bracketed if a port follows. -/
def bareAddress (host : Str) (port : Option Nat) : Str :=
  (if isIPv6Addr host ∧ port ≠ none then '[' :: (host ++ [']']) else host) ++ portText port

/-- The URL that `ensure_onvif_url` makes of an address without a scheme. -/
def onvifParts (netloc : Str) : ParseResult :=
  ⟨"onvif".toList, netloc, "/onvif/device_service".toList, [], [], []⟩

section Understood
variable [UnicodeData]

/-- The address gives an `onvif` URL of this host and port. -/
def Understood (address host : Str) (port : Option Nat) : Prop :=
  ∃ url p, ensureOnvifUrl address = .ok url ∧ urlparse url = .ok p ∧ p.scheme = "onvif".toList ∧
    p.hostname = some (host.map Char.toLower) ∧ p.port = .ok port ∧
    p.path = "/onvif/device_service".toList ∧ extractAddress url = .ok (host.map Char.toLower)

end Understood

/-! ### Texts without a network location -/

theorem urlparse_of_no_netloc {url : Str}
    (h : ∀ rest, (splitScheme (cleanUrl url)).2 ≠ '/' :: '/' :: rest) :
    ∃ p, urlparse url = .ok p ∧ p.scheme = (splitScheme (cleanUrl url)).1 ∧ p.netloc = [] := by
  have hnet : splitNetloc (splitScheme (cleanUrl url)).2 = ([], (splitScheme (cleanUrl url)).2) := by
    unfold splitNetloc
    split
    · exact absurd ‹_› (h _)
    · rfl
  have hcheck : checkNetloc [] = .ok () := rfl
  unfold urlparse
  simp only [hnet, hcheck]
  exact ⟨_, rfl, rfl, rfl⟩

/-! ### The characters of a bare address -/

/-- Printable, and it neither ends a network location nor separates the user from the host. -/
def isPlain (c : Char) : Bool := 32 < c.toNat && isAscii c && !isNetlocEnd c && c ≠ '@'

theorem isPlain_of {c : Char} (h : 32 < c.toNat ∧ c.toNat < 128)
    (hne : c ≠ '/' ∧ c ≠ '?' ∧ c ≠ '#' ∧ c ≠ '@') : isPlain c := by
  simp [isPlain, isAscii, isNetlocEnd, h, hne]

theorem isPlain_iff {c : Char} : isPlain c ↔
    32 < c.toNat ∧ isAscii c ∧ isNetlocEnd c = false ∧ c ≠ '@' := by
  simp [isPlain, and_assoc]

theorem isPlain_of_isDigit {c : Char} (h : c.isDigit) : isPlain c := by
  have hn := isDigit_iff.1 h
  have hne : ∀ d : Char, d.isDigit = false → c ≠ d := by
    rintro d hd rfl
    rw [h] at hd
    cases hd
  exact isPlain_of (by omega) ⟨hne _ rfl, hne _ rfl, hne _ rfl, hne _ rfl⟩

theorem isPlain_of_isNameChar {c : Char} (h : isNameChar c) :
    isPlain c ∧ c ≠ ':' ∧ c ≠ '[' ∧ c ≠ ']' ∧ c ≠ '%' := by
  have hne : ∀ d : Char, isNameChar d = false → c ≠ d := by
    rintro d hd rfl
    rw [h] at hd
    cases hd
  have hn : 32 < c.toNat ∧ c.toNat < 128 := by
    simp only [isNameChar, Char.isAlphanum, Char.isAlpha, Bool.or_eq_true, isUpper_iff, isLower_iff,
      isDigit_iff, decide_eq_true_eq] at h
    rcases h with (((h | h) | rfl) | rfl) | rfl
    · omega
    · omega
    all_goals decide
  exact ⟨isPlain_of hn ⟨hne _ rfl, hne _ rfl, hne _ rfl, hne _ rfl⟩, hne _ rfl, hne _ rfl, hne _ rfl,
    hne _ rfl⟩

theorem isPlain_of_isIPv6Addr {host : Str} (h : isIPv6Addr host) :
    ∀ c ∈ host, isPlain c ∧ c ≠ '[' ∧ c ≠ ']' := by
  intro c hc
  simp only [isIPv6Addr, Bool.and_eq_true, List.all_eq_true] at h
  have := h.1.1 c hc
  simp only [Bool.or_eq_true, decide_eq_true_eq] at this
  rcases this with (hx | rfl) | rfl
  · have hn := isHexDigit_iff.1 hx
    have hne : ∀ d : Char, isHexDigit d = false → c ≠ d := by
      rintro d hd rfl
      rw [hx] at hd
      cases hd
    exact ⟨isPlain_of (by omega) ⟨hne _ rfl, hne _ rfl, hne _ rfl, hne _ rfl⟩, hne _ rfl, hne _ rfl⟩
  · decide
  · decide

theorem isPlain_portText {port : Option Nat} : ∀ c ∈ portText port, isPlain c := by
  intro c hc
  cases port with
  | none => cases hc
  | some n =>
    rcases List.mem_cons.1 hc with rfl | hc
    · decide
    · exact isPlain_of_isDigit (isDigit_of_mem_natStr hc)

section Hosts
variable {host : Str} {port : Option Nat}

theorem isHostName_iff : isHostName host ↔ host ≠ [] ∧ ∀ c ∈ host, isNameChar c := by
  simp [isHostName]

theorem not_isIPv6Addr_of_isHostName (h : isHostName host) : isIPv6Addr host = false := by
  refine Bool.eq_false_iff.2 fun h6 => ?_
  exact (isPlain_of_isNameChar ((isHostName_iff.1 h).2 _ (colon_mem_of_isIPv6Addr h6))).2.1 rfl

theorem bareAddress_name (h : isHostName host) : bareAddress host port = host ++ portText port := by
  rw [bareAddress, if_neg]
  rintro ⟨h6, -⟩
  rw [not_isIPv6Addr_of_isHostName h] at h6
  cases h6

theorem bareAddress_none (host : Str) : bareAddress host none = host := by
  simp [bareAddress, portText]

theorem bareAddress_bracketed (h : isIPv6Addr host) (n : Nat) :
    bareAddress host (some n) = '[' :: (host ++ ']' :: ':' :: natStr n) := by
  simp [bareAddress, h, portText]

theorem bareAddress_ne_nil (h : isHostName host ∨ isIPv6Addr host) : bareAddress host port ≠ [] := by
  have hne : host ≠ [] := by
    rcases h with h | h
    · exact (isHostName_iff.1 h).1
    · exact List.ne_nil_of_mem (colon_mem_of_isIPv6Addr h)
  unfold bareAddress
  split <;> simp [hne]

theorem isPlain_bareAddress (h : isHostName host ∨ isIPv6Addr host) :
    ∀ c ∈ bareAddress host port, isPlain c := by
  have hhost : ∀ c ∈ host, isPlain c := by
    rcases h with h | h
    · exact fun c hc => (isPlain_of_isNameChar ((isHostName_iff.1 h).2 c hc)).1
    · exact fun c hc => (isPlain_of_isIPv6Addr h c hc).1
  intro c hc
  rcases List.mem_append.1 hc with hc | hc
  · split at hc
    · simp only [List.mem_cons, List.mem_append, List.not_mem_nil, or_false] at hc
      rcases hc with rfl | hc | rfl
      · decide
      · exact hhost c hc
      · decide
    · exact hhost c hc
  · exact isPlain_portText c hc

end Hosts

/-! ### What becomes of a bare address -/

theorem isSpace_of_isPlain {c : Char} (h : isPlain c) : isSpace c = false := by
  obtain ⟨hgt, ha, -, -⟩ := isPlain_iff.1 h
  simp only [isAscii, decide_eq_true_eq] at ha
  simp only [isSpace, Bool.or_eq_false_iff, Bool.and_eq_false_iff, decide_eq_false_iff_not,
    beq_eq_false_iff_ne]
  omega

theorem noBreaks_of_isPlain {s : Str} (h : ∀ c ∈ s, isPlain c) : NoBreaks s := by
  intro c hc
  have hgt := (isPlain_iff.1 (h c hc)).1
  refine ⟨?_, ?_, ?_⟩ <;> rintro rfl <;> exact absurd hgt (by decide)

theorem cleanUrl_of_isPlain {s : Str} (h : ∀ c ∈ s, isPlain c) : cleanUrl s = s := by
  cases s with
  | nil => rfl
  | cons c cs =>
    exact cleanUrl_of_noBreaks (isPlain_iff.1 (h c List.mem_cons_self)).1 (noBreaks_of_isPlain h)

theorem strip_of_isPlain {s : Str} (h : ∀ c ∈ s, isPlain c) : strip s = s :=
  stripBy_of_ends (fun c hc => isSpace_of_isPlain (h c (List.mem_of_mem_head? hc)))
    fun c hc => isSpace_of_isPlain (h c (List.mem_of_mem_getLast? hc))

/-- No slash, so nothing is taken for a network location. -/
theorem urlparse_of_isPlain {s : Str} (h : ∀ c ∈ s, isPlain c) :
    ∃ p, urlparse s = .ok p ∧ p.scheme = (splitScheme s).1 ∧ p.netloc = [] := by
  have hclean := cleanUrl_of_isPlain h
  have := urlparse_of_no_netloc fun rest hrest => by
    have hmem : '/' ∈ s := by
      rw [hclean] at hrest
      rcases hsp : splitScheme s with ⟨scheme, tail⟩
      rw [hsp] at hrest
      rcases isScheme_of_split hsp with ⟨-, rfl⟩ | ⟨-, hsub⟩
      · rw [show tail = _ from hrest]
        exact List.mem_cons_self
      · exact hsub _ (by rw [show tail = _ from hrest]; exact List.mem_cons_self)
    exact absurd (h _ hmem) (by decide)
  rwa [hclean] at this

theorem shaped_onvifParts {netloc : Str} (h : ∀ c ∈ netloc, isPlain c) : Shaped (onvifParts netloc) where
  scheme := .inr ⟨rfl, rfl, rfl⟩
  netloc := fun c hc => (isPlain_iff.1 (h c hc)).2.2.1
  path := by
    show ∀ c ∈ "/onvif/device_service".toList ++ [], c ≠ '?' ∧ c ≠ '#'
    simp
  slash := fun _ => .inr rfl
  params := by
    have hs : "onvif".toList ∉ usesParams := by decide +kernel
    exact if_neg hs
  query := List.not_mem_nil
  breaks := by
    show NoBreaks (netloc ++ "/onvif/device_service".toList ++ [] ++ [])
    simp only [List.append_nil, noBreaks_append]
    refine ⟨noBreaks_of_isPlain h, ?_⟩
    show ∀ c ∈ "/onvif/device_service".toList, c ≠ '\t' ∧ c ≠ '\r' ∧ c ≠ '\n'
    simp

theorem urlunparse_onvifParts {netloc : Str} (h : netloc ≠ []) : urlunparse (onvifParts netloc) =
    "onvif://".toList ++ netloc ++ "/onvif/device_service".toList := by
  have hs : (onvifParts netloc).scheme ≠ [] := by
    show "onvif".toList ≠ []
    decide +kernel
  rw [Shaped.urlunparse_eq hs]
  show _ ++ ':' :: (unsplitPath _ netloc ("/onvif/device_service".toList ++ []) ++ [] ++ []) = _
  rw [unsplitPath, if_pos h, if_neg (fun hp => hp.2 rfl)]
  simp [onvifParts]

section Read
variable {address host : Str} {port : Option Nat}

/-- A bare address is taken for a URL, or becomes the network location of one. -/
theorem ensureOnvifUrl_of_isPlain (h : ∀ c ∈ address, isPlain c) (hne : address ≠ []) :
    ensureOnvifUrl address = .ok (if (splitScheme address).1 = [] then
      urlunparse (onvifParts address) else address) := by
  obtain ⟨p, hp, hs, -⟩ := urlparse_of_isPlain h
  rw [urlunparse_onvifParts hne]
  simp only [ensureOnvifUrl, hp, hs, strip_of_isPlain h, bind, Except.bind, pure, Except.pure]
  by_cases hs : (splitScheme address).1 = []
  · simp only [hs, ne_eq, not_true_eq_false, if_false, hne, if_true]
  · simp only [hs, ne_eq, not_false_eq_true, if_true, if_false]

variable [UnicodeData]

theorem understood_iff (h : ∀ c ∈ address, isPlain c) (hne : address ≠ []) :
    Understood address host port ↔ (splitScheme address).1 = [] ∧ checkNetloc address = .ok () ∧
      (onvifParts address).hostname = some (host.map Char.toLower) ∧
      (onvifParts address).port = .ok port := by
  have hens := ensureOnvifUrl_of_isPlain h hne
  have hon : (onvifParts address).scheme ≠ [] := by
    show "onvif".toList ≠ []
    decide +kernel
  have hparse : urlparse (urlunparse (onvifParts address)) =
      (checkNetloc address).map fun _ => onvifParts address :=
    urlparse_urlunparse (shaped_onvifParts h) (.inl hon)
  constructor
  · rintro ⟨url, p, hurl, hp, -, hhost, hport, -, -⟩
    rw [hens] at hurl
    cases hurl
    by_cases hs : (splitScheme address).1 = []
    · rw [if_pos hs, hparse] at hp
      cases hc : checkNetloc address with
      | error e => rw [hc] at hp; cases hp
      | ok u =>
        rw [hc] at hp
        cases hp
        exact ⟨hs, rfl, hhost, hport⟩
    · rw [if_neg hs] at hp
      obtain ⟨p', hp', -, hnet⟩ := urlparse_of_isPlain h
      rw [hp'] at hp
      cases hp
      exact absurd hnet (netloc_ne_nil (.inl (by rw [hhost]; nofun)))
  · rintro ⟨hs, hc, hhost, hport⟩
    rw [if_pos hs] at hens
    have hp : urlparse (urlunparse (onvifParts address)) = .ok (onvifParts address) := by
      rw [hparse, hc]
      rfl
    refine ⟨_, _, hens, hp, rfl, hhost, hport, rfl, ?_⟩
    rw [extractAddress_ok hp, hhost]
    rfl

/-! ### Names -/

omit [UnicodeData] in
theorem port_portText (hport : ∀ n ∈ port, n ≤ 65535)
    (h : (hostinfo address).2 = port.map natStr) : (onvifParts address).port = .ok port := by
  rw [ParseResult.port, show hostinfo (onvifParts address).netloc = hostinfo address from rfl, h]
  cases port with
  | none => rfl
  | some n =>
    have hdigits : (natStr n).all Char.isDigit :=
      List.all_eq_true.2 fun c hc => isDigit_of_mem_natStr hc
    have hle : n ≤ 65535 := hport n rfl
    simp only [Option.map_some, hdigits, if_true, digitsVal_natStr, hle]

theorem hostname_of_hostinfo (hne : host ≠ []) (hascii : ∀ c ∈ host, isAscii c ∧ c ≠ '%')
    (h : (hostinfo address).1 = host) :
    (onvifParts address).hostname = some (host.map Char.toLower) := by
  have hlow : lowerHost host = host.map Char.toLower := by
    rw [lowerHost_of_not_mem fun hm => (hascii _ hm).2 rfl, lower_ascii fun c hc => (hascii c hc).1]
  show (if (hostinfo address).1 = [] then none else some (lowerHost (hostinfo address).1)) = _
  rw [h, if_neg hne, hlow]

omit [UnicodeData] in
theorem partition_portText (h : ':' ∉ host) (port : Option Nat) :
    partition ':' (host ++ portText port) = (host, port.map natStr) := by
  cases port with
  | none => rw [portText, Option.map_none, Option.getD_none, List.append_nil, partition_of_not_mem h]; rfl
  | some n => exact partition_append h

omit [UnicodeData] in
theorem not_some_nil (port : Option Nat) :
    (if port.map natStr = some [] then none else port.map natStr) = port.map natStr := by
  cases port with
  | none => rfl
  | some n => exact if_neg (by simpa using natStr_ne_nil n)

theorem understood_name (h : isHostName host) (hport : ∀ n ∈ port, n ≤ 65535) :
    Understood (bareAddress host port) host port ↔ port = none ∨ looksLikeScheme host = false := by
  obtain ⟨hne, hchars⟩ := isHostName_iff.1 h
  have hcolon : ':' ∉ host := fun hm => (isPlain_of_isNameChar (hchars _ hm)).2.1 rfl
  have hplain : ∀ c ∈ bareAddress host port, isPlain c := isPlain_bareAddress (.inl h)
  have hnot : ∀ d : Char, d ∈ host ++ portText port → d ≠ '[' ∧ d ≠ ']' := by
    intro d hd
    rcases List.mem_append.1 hd with hd | hd
    · exact ⟨(isPlain_of_isNameChar (hchars d hd)).2.2.1, (isPlain_of_isNameChar (hchars d hd)).2.2.2.1⟩
    · cases port with
      | none => cases hd
      | some n =>
        rcases List.mem_cons.1 hd with rfl | hd
        · decide
        · have := isDigit_of_mem_natStr hd
          constructor <;> rintro rfl <;> cases this
  rw [understood_iff hplain (bareAddress_ne_nil (.inl h)), bareAddress_name h]
  rw [bareAddress_name h] at hplain
  have huser : '@' ∉ host ++ portText port := fun hm => absurd (hplain _ hm) (by decide)
  have hinfo : hostinfo (host ++ portText port) = (host, port.map natStr) := by
    unfold hostinfo
    rw [rpartition_of_not_mem huser]
    simp only [partition_of_not_mem fun hm => (hnot _ hm).1 rfl, partition_portText hcolon,
      not_some_nil]
  have hcheck : checkNetloc (host ++ portText port) = .ok () := by
    have hl : '[' ∉ host ++ portText port := fun hm => (hnot _ hm).1 rfl
    have hr : ']' ∉ host ++ portText port := fun hm => (hnot _ hm).2 rfl
    refine checkNetloc_eq_ok_iff.2 ⟨iff_of_false hl hr, fun hm => absurd hm hl, fun c hc => ?_⟩
    exact not_isNfkcDelim_of_isAscii (isPlain_iff.1 (hplain c hc)).2.1
  have hhost := hostname_of_hostinfo hne (fun c hc => ⟨(isPlain_iff.1
    (isPlain_of_isNameChar (hchars c hc)).1).2.1, (isPlain_of_isNameChar (hchars c hc)).2.2.2.2⟩)
    (congrArg Prod.fst hinfo)
  have hp := port_portText hport (congrArg Prod.snd hinfo)
  have hscheme : (splitScheme (host ++ portText port)).1 = [] ↔
      port = none ∨ looksLikeScheme host = false := by
    cases port with
    | none =>
      rw [portText, Option.map_none, Option.getD_none, List.append_nil, splitScheme_of_no_colon hcolon]
      simp
    | some n =>
      show (splitScheme (host ++ ':' :: natStr n)).1 = [] ↔ _
      by_cases hl : looksLikeScheme host
      · rw [splitScheme_of_looks hcolon hl]
        simp [hne, hl]
      · rw [splitScheme_of_not hcolon (Bool.eq_false_iff.2 hl)]
        simp [hl]
  constructor
  · exact fun hu => hscheme.1 hu.1
  · exact fun hcond => ⟨hscheme.2 hcond, hcheck, hhost, hp⟩

/-! ### IPv6 literals -/

theorem understood_bracketed (h : isIPv6Addr host) {n : Nat} (hn : n ≤ 65535) :
    Understood (bareAddress host (some n)) host (some n) := by
  have hchars := isPlain_of_isIPv6Addr h
  have hplain : ∀ c ∈ bareAddress host (some n), isPlain c := isPlain_bareAddress (.inr h)
  refine (understood_iff hplain (bareAddress_ne_nil (.inr h))).2 ?_
  rw [bareAddress_bracketed h n] at hplain ⊢
  have hne : host ≠ [] := List.ne_nil_of_mem (colon_mem_of_isIPv6Addr h)
  have huser : '@' ∉ '[' :: (host ++ ']' :: ':' :: natStr n) := fun hm =>
    absurd (hplain _ hm) (by decide)
  have hr : ']' ∉ host := fun hm => (hchars _ hm).2.2 rfl
  have hinfo : hostinfo ('[' :: (host ++ ']' :: ':' :: natStr n)) = (host, some (natStr n)) := by
    unfold hostinfo
    rw [rpartition_of_not_mem huser]
    simp only [partition, if_true, partition_append hr, Option.getD_some]
    exact congrArg _ (not_some_nil (some n))
  have hascii := isAscii_of_isIPv6Addr h
  have hok : bracketedHostOk host := by
    have hv : host.head? ≠ some 'v' := fun hv => (hascii 'v' (List.mem_of_mem_head? hv)).2.1 rfl
    have hzone : '%' ∉ host := fun hm => (hascii _ hm).2.2 rfl
    rw [bracketedHostOk, if_neg hv, isIPv6, partition_of_not_mem hzone]
    simpa using h
  have hcheck : checkNetloc ('[' :: (host ++ ']' :: ':' :: natStr n)) = .ok () := by
    refine checkNetloc_eq_ok_iff.2 ⟨iff_of_true (by simp) (by simp), fun _ => ?_, fun c hc => ?_⟩
    · unfold bracketedNetlocOk
      rw [rpartition_of_not_mem huser]
      simp only [partition, if_true, partition_append hr, hok]
      rfl
    · exact not_isNfkcDelim_of_isAscii (isPlain_iff.1 (hplain c hc)).2.1
  refine ⟨?_, hcheck, hostname_of_hostinfo hne (fun c hc => ⟨(hascii c hc).1, (hascii c hc).2.2⟩)
    (congrArg Prod.fst hinfo), port_portText ?_ (congrArg Prod.snd hinfo)⟩
  · rw [splitScheme_of_head (by decide) (by decide)]
  · rintro m ⟨⟩
    exact hn

/-- Without brackets the first group would be the host, if it is not even the scheme. -/
theorem not_understood_bare (h : isIPv6Addr host) : ¬ Understood (bareAddress host none) host none := by
  rw [understood_iff (isPlain_bareAddress (.inr h)) (bareAddress_ne_nil (.inr h)),
    bareAddress_none]
  rintro ⟨-, -, hhost, -⟩
  have hchars := isPlain_of_isIPv6Addr h
  have huser : '@' ∉ host := fun hm => absurd (hchars _ hm).1 (by decide)
  have hbr : '[' ∉ host := fun hm => (hchars _ hm).2.1 rfl
  have hcolon : ':' ∉ (hostinfo host).1 := by
    unfold hostinfo
    rw [rpartition_of_not_mem huser]
    simp only [partition_of_not_mem hbr]
    exact not_mem_partition_fst _
  have hname : (onvifParts host).hostname = if (hostinfo host).1 = [] then none
    else some (lowerHost (hostinfo host).1) := rfl
  rw [hname] at hhost
  split at hhost
  · cases hhost
  · have hlow : lowerHost (hostinfo host).1 = host.map Char.toLower := Option.some.inj hhost
    refine hcolon (mem_of_mem_lowerHost ?_ rfl rfl)
    rw [hlow]
    exact List.mem_map.2 ⟨':', colon_mem_of_isIPv6Addr h, rfl⟩

/-! ### Addresses with a scheme -/

/-- The network location that `urlsplit` finds behind `//`. -/
def netlocText (rest : Str) : Str :=
  (rest.filter fun c => c ≠ '\t' ∧ c ≠ '\r' ∧ c ≠ '\n').takeWhile (!isNetlocEnd ·)

omit [UnicodeData] in
theorem urlparse_of_looks {scheme : Str} (h : looksLikeScheme scheme) (rest : Str) :
    ∃ p : ParseResult, p.scheme ≠ [] ∧ urlparse (scheme ++ "://".toList ++ rest) =
      (checkNetloc (netlocText rest)).map fun _ => p := by
  have h' := h
  simp only [looksLikeScheme, Bool.and_eq_true, List.all_eq_true] at h'
  obtain ⟨halpha, hall⟩ := h'
  have hne : ∀ d : Char, isSchemeChar d = false → d ∉ scheme := by
    intro d hd hm
    rw [hall d hm] at hd
    cases hd
  have hclean : cleanUrl (scheme ++ "://".toList ++ rest) = scheme ++ ':' :: '/' :: '/' ::
      rest.filter fun c => c ≠ '\t' ∧ c ≠ '\r' ∧ c ≠ '\n' := by
    obtain ⟨c, cs, rfl⟩ : ∃ c cs, scheme = c :: cs := by
      cases scheme with
      | nil => cases halpha
      | cons c cs => exact ⟨c, cs, rfl⟩
    have hgt : 32 < c.toNat := by
      simp only [List.head?_cons, Option.any_some, Char.isAlpha, Bool.or_eq_true, isLower_iff,
        isUpper_iff] at halpha
      omega
    have hkeep : (c :: cs).filter (fun c => c ≠ '\t' ∧ c ≠ '\r' ∧ c ≠ '\n') = c :: cs := by
      rw [List.filter_eq_self]
      intro d hd
      have ht : d ≠ '\t' := by rintro rfl; exact hne _ rfl hd
      have hr : d ≠ '\r' := by rintro rfl; exact hne _ rfl hd
      have hn : d ≠ '\n' := by rintro rfl; exact hne _ rfl hd
      simp [ht, hr, hn]
    rw [cleanUrl, List.cons_append, List.cons_append, List.dropWhile_cons_of_neg (by simpa using hgt),
      ← List.cons_append, ← List.cons_append, List.filter_append, List.filter_append, hkeep]
    simp
  have hsplit := splitScheme_of_looks (hne ':' rfl) h ('/' :: '/' :: rest.filter fun c =>
    c ≠ '\t' ∧ c ≠ '\r' ∧ c ≠ '\n')
  have hscheme : scheme.map Char.toLower ≠ [] := by
    rw [ne_eq, List.map_eq_nil_iff]
    rintro rfl
    cases halpha
  unfold urlparse
  simp only [hclean, hsplit, splitNetloc]
  unfold netlocText
  cases checkNetloc ((rest.filter fun c => c ≠ '\t' ∧ c ≠ '\r' ∧ c ≠ '\n').takeWhile
      (!isNetlocEnd ·)) with
  | error e => exact ⟨⟨_, [], [], [], [], []⟩, hscheme, rfl⟩
  | ok u => exact ⟨_, hscheme, rfl⟩

omit [UnicodeData] in
theorem ensureOnvifUrl_of_looks {scheme : Str} (h : looksLikeScheme scheme) (rest : Str) :
    ensureOnvifUrl (scheme ++ "://".toList ++ rest) = .ok (scheme ++ "://".toList ++ rest) ↔
      checkNetloc (netlocText rest) = .ok () := by
  obtain ⟨p, hs, hp⟩ := urlparse_of_looks h rest
  cases hc : checkNetloc (netlocText rest) with
  | error e =>
    rw [hc] at hp
    simp only [ensureOnvifUrl, hp, Except.map, bind, Except.bind]
    exact iff_of_false (fun h => by cases h) (fun h => by cases h)
  | ok u =>
    rw [hc] at hp
    simp only [ensureOnvifUrl, hp, Except.map, bind, Except.bind, hs, ne_eq, not_false_eq_true,
      if_true]
    exact iff_of_true rfl trivial

end Read

/-! ### Which addresses are understood -/

/-- The first colon of the address does not end something that looks like a scheme, and an IPv6
literal stands in brackets. -/
def ReadsAsHost (host : Str) (port : Option Nat) : Prop :=
  if isIPv6Addr host then port ≠ none else port = none ∨ looksLikeScheme host = false

instance (host : Str) (port : Option Nat) : Decidable (ReadsAsHost host port) :=
  inferInstanceAs (Decidable (if isIPv6Addr host then port ≠ none
    else port = none ∨ looksLikeScheme host = false))

/-- A host with an optional port is understood exactly when it reads as a host, and what carries a
scheme is kept exactly when its network location passes the checks of `urlsplit`. -/
theorem bare_addresses_understood [UnicodeData] :
    (∀ host port, isHostName host ∨ isIPv6Addr host → (∀ n ∈ port, 1 ≤ n ∧ n ≤ 65535) →
      (Understood (bareAddress host port) host port ↔ ReadsAsHost host port)) ∧
    ∀ scheme rest, looksLikeScheme scheme →
      (ensureOnvifUrl (scheme ++ "://".toList ++ rest) = .ok (scheme ++ "://".toList ++ rest) ↔
        checkNetloc (netlocText rest) = .ok ()) := by
  refine ⟨fun host port hhost hport => ?_, fun scheme rest h => ensureOnvifUrl_of_looks h rest⟩
  rcases hhost with hname | h6
  · rw [understood_name hname fun n hn => (hport n hn).2, ReadsAsHost,
      if_neg (by rw [not_isIPv6Addr_of_isHostName hname]; nofun)]
  · rw [ReadsAsHost, if_pos h6]
    cases port with
    | none => exact iff_of_false (not_understood_bare h6) (fun hne => hne rfl)
    | some n => exact iff_of_true (understood_bracketed h6 (hport n rfl).2) nofun

attribute [local instance] asciiData

theorem literal_is_understood :
    isIPv6Addr "fe80::1".toList ∧ looksLikeScheme "rtsp".toList ∧
      (Understood (bareAddress "fe80::1" (some 8000)) "fe80::1" (some 8000) ↔
        ReadsAsHost "fe80::1" (some 8000)) ∧
      (ensureOnvifUrl ("rtsp".toList ++ "://".toList ++ "10.0.0.5/live".toList) =
          .ok ("rtsp".toList ++ "://".toList ++ "10.0.0.5/live".toList) ↔
        checkNetloc (netlocText "10.0.0.5/live") = .ok ()) := by
  have h6 : isIPv6Addr "fe80::1".toList := by decide +kernel
  have hs : looksLikeScheme "rtsp".toList := by decide +kernel
  refine ⟨h6, hs, bare_addresses_understood.1 _ _ (.inr h6) ?_, bare_addresses_understood.2 _ _ hs⟩
  rintro n ⟨⟩
  decide

/-- A name that looks like a scheme, with a port: the address is kept, and names no host. -/
theorem name_and_port_not_understood :
    isHostName "camera.local".toList ∧
      ensureOnvifUrl (bareAddress "camera.local" (some 554)) = .ok "camera.local:554" ∧
      ¬ Understood (bareAddress "camera.local" (some 554)) "camera.local" (some 554) := by
  have hname : isHostName "camera.local".toList := by decide +kernel
  have hport : ∀ n ∈ some 554, n ≤ 65535 := by
    rintro n ⟨⟩
    decide
  refine ⟨hname, ?_, fun hu => ?_⟩
  · rw [ensureOnvifUrl_of_isPlain (isPlain_bareAddress (.inl hname)) (bareAddress_ne_nil (.inl hname)),
      if_neg (by decide +kernel)]
    rfl
  · rcases (understood_name hname hport).1 hu with h | h
    · cases h
    · exact absurd h (by decide +kernel)

end IpCamera
end OpenBmc
