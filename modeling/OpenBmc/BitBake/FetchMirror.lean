import OpenBmc.BitBake.FetchCodec

/-!
# The two decoders of a fetch URL

`decodemirrorurl` reads the text of the host as it stands, and no parameter without `=` and nothing
behind a newline. It agrees with `decodeurl` on an encoded URL exactly for the tokens of
`Tokens.Plain`.
-/

namespace OpenBmc
namespace BitBake
namespace FetchUrl
open Py

namespace Tokens
variable (t : Tokens)

/-! ### The host -/

theorem not_mem_name {n : Str} {port : Option Str} (hn : ∀ c ∈ n, isNameChar c)
    (hp : ∀ p ∈ port, isPortText p) {d : Char} (hd : isNameChar d = false) (hne : d ≠ ':') :
    d ∉ n ++ Host.portText port := by
  intro hm
  rcases List.mem_append.1 hm with hm | hm
  · have h := hn d hm
    rw [hd] at h
    cases h
  · cases port with
    | none => cases hm
    | some p =>
      have hdig := hp p rfl
      simp only [isPortText, Bool.and_eq_true, List.all_eq_true] at hdig
      rcases List.mem_cons.1 hm with rfl | hm
      · exact hne rfl
      · have h : isNameChar d := by simp [isNameChar, Char.isAlphanum, hdig.2 d hm]
        rw [hd] at h
        cases h

theorem hostinfo_name {n : Str} {port : Option Str} (hn : ∀ c ∈ n, isNameChar c)
    (hp : ∀ p ∈ port, isPortText p) : hostinfo (n ++ Host.portText port) = (n, port) := by
  have hcolon : ':' ∉ n := not_mem_of_forall hn rfl
  have hsplit : partition ':' (n ++ Host.portText port) = (n, port) := by
    rw [partition_append_left hcolon]
    cases port <;> simp [Host.portText, partition]
  have hne : port ≠ some [] := by
    rintro rfl
    exact absurd (hp [] rfl) (by decide)
  unfold hostinfo
  rw [rpartition_of_not_mem (not_mem_name hn hp (d := '@') rfl (by decide))]
  simp only [partition_of_not_mem (not_mem_name hn hp (d := '[') rfl (by decide)), hsplit, if_neg hne]

theorem hostinfo_literal {addr : Str} {port : Option Str}
    (hv : (Host.literal addr port).IsValid) :
    hostinfo (Host.literal addr port).text = (addr, port) := by
  have huser : '@' ∉ (Host.literal addr port).text :=
    not_mem_of_forall (Host.isHostChar_of_mem_text hv) rfl
  have hbr : ']' ∉ addr := by
    intro hm
    have ha := hv.1
    simp only [isIPv6Addr, Bool.and_eq_true, List.all_eq_true] at ha
    exact absurd (ha.1.1 _ hm) (by decide)
  have hne : port ≠ some [] := by
    rintro rfl
    exact absurd (hv.2 [] rfl) (by decide)
  unfold hostinfo
  rw [rpartition_of_not_mem huser]
  simp only [Host.text, partition, if_true, partition_append hbr, Option.getD_some]
  cases port with
  | none => simp [Host.portText, partition]
  | some p =>
    have hp : p ≠ [] := fun h => hne (by rw [h])
    simp [Host.portText, partition, hp]

theorem checkNetloc_netloc (h : '[' ∉ t.host.text) (h' : ']' ∉ t.host.text) :
    checkNetloc t.netloc = .ok () := by
  have hnot : ∀ d : Char, isUnreserved d = false → d ≠ ':' → d ≠ '@' → d ∉ t.host.text →
      d ∉ t.netloc := by
    intro d hd hc ha hh hm
    unfold netloc info at hm
    have hu := t.not_mem_user hd
    have hp := t.not_mem_pswd hd
    split_ifs at hm <;> simp_all
  refine checkNetloc_eq_ok_iff.2 ⟨?_, fun hm => ?_, fun c hm => ?_⟩
  · exact iff_of_false (hnot _ rfl (by decide) (by decide) h) (hnot _ rfl (by decide) (by decide) h')
  · exact absurd hm (hnot _ rfl (by decide) (by decide) h)
  · refine not_isNfkcDelim_of_isAscii (isAscii_of_isUrlChar ?_)
    simp [isUrlChar, t.isNetlocChar_of_mem_netloc c hm]

theorem map_toLower_eq_self {s : Str} : s.map Char.toLower = s ↔ ∀ c ∈ s, c.toLower = c := by
  constructor
  · intro h c hc
    exact List.map_eq_map_iff.1 (h.trans (List.map_id s).symm) c hc
  · intro h
    exact (List.map_congr_left h).trans (List.map_id s)

theorem port_parts {p : Str} (hp : isPortText p) (hinfo : (hostinfo t.host.text).2 = some p)
    {o : Option ℕ} : t.parts.port = .ok o ↔ digitsVal p ≤ 65535 ∧ o = some (digitsVal p) := by
  have hd : p.all Char.isDigit := by
    simp only [isPortText, Bool.and_eq_true] at hp
    exact hp.2
  unfold parts ParseResult.port
  simp only [t.hostinfo_netloc, hinfo, hd, if_true]
  split_ifs with h
  · simp [h, eq_comm]
  · simp [h]

theorem port_parts_none (hinfo : (hostinfo t.host.text).2 = none) : t.parts.port = .ok none := by
  unfold parts ParseResult.port
  simp only [t.hostinfo_netloc, hinfo]

section Decode
variable [UnicodeData]

/-- The host that `decodeurl` returns is the text it was given. -/
def HostKept : Prop :=
  checkNetloc t.netloc = .ok () ∧ ∃ o, t.parts.port = .ok o ∧ (t.decodedWith o).host = t.host.text

theorem lower_name {n : Str} (hn : ∀ c ∈ n, isNameChar c) : lowerHost n = n.map Char.toLower := by
  have ha : ∀ c ∈ n, isAscii c := by
    intro c hc
    exact isAscii_of_isUrlChar (by
      simp [isUrlChar, isNetlocChar_of_isHostChar (show isHostChar c by simp [isHostChar, hn c hc])])
  rw [lowerHost_of_not_mem (not_mem_of_forall hn rfl), lower_ascii ha]

theorem hostname_parts (hinfo : (hostinfo t.host.text).1 ≠ []) :
    t.parts.hostname.getD [] = lowerHost (hostinfo t.host.text).1 := by
  unfold parts ParseResult.hostname
  rw [t.hostinfo_netloc, if_neg hinfo]
  rfl

theorem hostKept_none (h : t.host = .none) : t.HostKept := by
  have htext : t.host.text = [] := by rw [h]; rfl
  refine ⟨t.checkNetloc_netloc (by simp [htext]) (by simp [htext]), none,
    t.port_parts_none (by rw [htext]; rfl), ?_⟩
  show t.parts.hostname.getD [] = _
  unfold parts ParseResult.hostname
  rw [t.hostinfo_netloc, htext]
  rfl

theorem hostKept_name {n : Str} {port : Option Str} (h : t.host = .name n port) :
    t.HostKept ↔ (∀ c ∈ n, c.toLower = c) ∧ ∀ p ∈ port, ∃ k, 0 < k ∧ k ≤ 65535 ∧ p = natStr k := by
  have hv := t.validHost
  rw [h] at hv
  obtain ⟨hne, hn, hp⟩ := hv
  have htext : t.host.text = n ++ Host.portText port := by rw [h]; rfl
  have hinfo : hostinfo t.host.text = (n, port) := by rw [htext, hostinfo_name hn hp]
  have hhost : t.parts.hostname.getD [] = n.map Char.toLower := by
    rw [t.hostname_parts (by rw [hinfo]; exact hne), hinfo, lower_name hn]
  have hcheck : checkNetloc t.netloc = .ok () := by
    refine t.checkNetloc_netloc ?_ ?_ <;> rw [htext] <;> exact not_mem_name hn hp rfl (by decide)
  unfold HostKept decodedWith URI.hostport
  rw [hhost, htext]
  cases port with
  | none =>
    have hport := t.port_parts_none (by rw [hinfo])
    simp [hcheck, hport, Host.portText, map_toLower_eq_self]
  | some p =>
    simp only [hcheck, true_and, t.port_parts (hp p rfl) (by rw [hinfo]), Host.portText]
    constructor
    · rintro ⟨o, ⟨hle, rfl⟩, he⟩
      simp only at he
      split_ifs at he with h0
      · have hlen := congrArg List.length he
        simp at hlen
      · obtain ⟨hname, hport⟩ := List.append_inj he (List.length_map _)
        refine ⟨map_toLower_eq_self.1 hname, ?_⟩
        rintro q ⟨⟩
        exact ⟨digitsVal p, Nat.pos_of_ne_zero h0, hle, (List.cons.inj hport).2.symm⟩
    · rintro ⟨hname, hport⟩
      obtain ⟨k, hk, hle, rfl⟩ := hport p rfl
      refine ⟨some k, ⟨by rwa [digitsVal_natStr], by rw [digitsVal_natStr]⟩, ?_⟩
      simp only
      rw [if_neg (Nat.ne_of_gt hk), map_toLower_eq_self.2 hname]

theorem not_hostKept_literal {addr : Str} {port : Option Str} (h : t.host = .literal addr port) :
    ¬ t.HostKept := by
  rintro ⟨-, o, -, ho⟩
  have hv := t.validHost
  rw [h] at hv
  have hinfo : hostinfo t.host.text = (addr, port) := by rw [h, hostinfo_literal hv]
  have haddr : ∀ c ∈ addr, isHexDigit c ∨ c = ':' ∨ c = '.' := by
    have ha := hv.1
    simp only [isIPv6Addr, Bool.and_eq_true, List.all_eq_true, Bool.or_eq_true,
      decide_eq_true_eq] at ha
    intro c hc
    rcases ha.1.1 c hc with (h | h) | h
    · exact .inl h
    · exact .inr (.inl h)
    · exact .inr (.inr h)
  have hbr : '[' ∉ addr := fun hm => absurd (haddr _ hm) (by decide)
  have hne : addr ≠ [] := by
    rintro rfl
    exact absurd hv.1 (by decide)
  have hhost : '[' ∉ t.parts.hostname.getD [] := by
    rw [t.hostname_parts (by rw [hinfo]; exact hne), hinfo]
    exact fun hm => hbr (mem_of_mem_lowerHost hm (by decide) (by decide))
  have hmem : '[' ∈ (t.decodedWith o).host := by
    rw [ho, h]
    exact List.mem_cons_self
  unfold decodedWith URI.hostport at hmem
  simp only at hmem
  split at hmem
  · exact hhost hmem
  · split_ifs at hmem
    · exact hhost hmem
    · rcases List.mem_append.1 hmem with hm | hm
      · exact hhost hm
      · rcases List.mem_cons.1 hm with hm | hm
        · cases hm
        · exact absurd (isDigit_of_mem_natStr hm) (by decide)

theorem hostKept_iff : t.HostKept ↔ t.host.Plain := by
  rcases h : t.host with _ | ⟨n, port⟩ | ⟨addr, port⟩
  · exact iff_of_true (t.hostKept_none h) trivial
  · exact t.hostKept_name h
  · exact iff_of_false (t.not_hostKept_literal h) id

end Decode

/-! ### The mirror decoder -/

def tail : Str := if t.params.entries ≠ [] then ';' :: t.paramText else []

theorem url_eq : t.url =
    t.type ++ ':' :: '/' :: '/' :: (t.netloc ++ (URI.quotePath t.path ++ t.tail)) := by
  simp [url, base, tail]

theorem exists_quotePath : ∃ q, URI.quotePath t.path = '/' :: q := by
  have hq := t.head?_quotePath
  cases h : URI.quotePath t.path with
  | nil =>
    rw [h] at hq
    cases hq
  | cons c cs =>
    rw [h] at hq
    cases hq
    exact ⟨cs, rfl⟩

theorem not_mem_location : ';' ∉ t.host.text ++ URI.quotePath t.path := by
  intro hm
  rcases List.mem_append.1 hm with hm | hm
  · exact not_mem_of_forall (Host.isHostChar_of_mem_text t.validHost) rfl hm
  · rcases URI.mem_quotePath hm with h | h | h
    · cases h
    · cases h
    · cases h

theorem startsLocation_rest : startsLocation (t.host.text ++ (URI.quotePath t.path ++ t.tail)) := by
  obtain ⟨q, hq⟩ := t.exists_quotePath
  have hn := t.not_mem_location
  unfold startsLocation
  cases h : t.host.text with
  | nil => simp [hq]
  | cons c cs =>
    rw [h] at hn
    have hc : c ≠ ';' := by
      rintro rfl
      exact hn List.mem_cons_self
    simp [hc]

theorem mirrorUser_netloc : mirrorUser (t.netloc.length + 1) t.netloc (URI.quotePath t.path ++ t.tail) =
    if t.user ≠ [] then some (t.info, t.host.text ++ (URI.quotePath t.path ++ t.tail)) else none := by
  have hstart := t.startsLocation_rest
  unfold mirrorUser netloc
  by_cases hu : t.user = []
  · simp [hu, rpartition_of_not_mem t.not_mem_host]
  · have hi : t.info ≠ [] := by simp [info, hu]
    simp only [ne_eq, hu, not_false_eq_true, if_true, List.append_assoc, List.singleton_append,
      rpartition_append t.not_mem_host]
    rw [if_pos ⟨hi, hstart⟩]

def mirrorParm : Option Str := t.paramStr.map fun s => s.takeWhile (· ≠ '\n')

theorem mirrorMatch_url : mirrorMatch t.url = some (t.type, if t.user ≠ [] then some t.info else none,
    t.host.text ++ URI.quotePath t.path, t.mirrorParm) := by
  obtain ⟨q, hq⟩ := t.exists_quotePath
  have hall : ∀ c ∈ t.netloc, isUserChar c := by
    intro c hc
    have hn := t.isNetlocChar_of_mem_netloc c hc
    simp only [isUserChar, Bool.and_eq_true, decide_eq_true_eq]
    constructor <;> rintro rfl <;> cases hn
  have htake : (t.netloc ++ (URI.quotePath t.path ++ t.tail)).takeWhile isUserChar = t.netloc := by
    rw [List.takeWhile_append_of_pos hall, hq]
    simp [isUserChar]
  have hdrop : (t.netloc ++ (URI.quotePath t.path ++ t.tail)).dropWhile isUserChar =
      URI.quotePath t.path ++ t.tail := by
    rw [List.dropWhile_append_of_pos hall, hq]
    simp [isUserChar]
  have hloc : ∀ c ∈ t.host.text ++ URI.quotePath t.path, decide (c ≠ ';') = true := by
    rintro c hc
    rw [decide_eq_true_eq]
    rintro rfl
    exact t.not_mem_location hc
  have hstart := t.startsLocation_rest
  have hnet : t.user = [] → t.netloc = t.host.text := by
    intro hu
    simp [netloc, hu]
  have hlocation : (t.host.text ++ (URI.quotePath t.path ++ t.tail)).takeWhile (fun c => c ≠ ';') =
      t.host.text ++ URI.quotePath t.path := by
    rw [← List.append_assoc, List.takeWhile_append_of_pos hloc]
    unfold tail
    split <;> simp
  have hparm : (t.host.text ++ (URI.quotePath t.path ++ t.tail)).dropWhile (fun c => c ≠ ';') =
      t.tail := by
    rw [← List.append_assoc, List.dropWhile_append_of_pos hloc]
    unfold tail
    split <;> simp
  unfold mirrorMatch
  rw [t.url_eq, partition_append t.not_mem_type]
  simp only [htake, hdrop, t.mirrorUser_netloc]
  by_cases hu : t.user = []
  all_goals
    simp only [ne_eq, hu, not_true_eq_false, not_false_eq_true, if_false, if_true, hnet, hstart]
    simp only [ne_eq] at hlocation hparm
    rw [hlocation, hparm]
    unfold mirrorParm paramStr tail
    split_ifs <;> rfl

theorem mirrorPassword_user :
    mirrorPassword ((if t.user ≠ [] then some t.info else none).getD []) = .ok (t.user, t.pswd) := by
  have hu : ∀ c ∈ t.user, decide (c ≠ ':') = true := by
    intro c hc
    rw [decide_eq_true_eq]
    rintro rfl
    exact t.not_mem_user rfl hc
  have hp : ∀ c ∈ t.pswd, decide (c ≠ '\n') = true := by
    intro c hc
    rw [decide_eq_true_eq]
    rintro rfl
    exact t.not_mem_pswd rfl hc
  unfold mirrorPassword
  by_cases hne : t.user = []
  · have hpw : t.pswd = [] := by
      by_contra hpw
      exact t.pswdUser hpw hne
    simp [hne, hpw]
  · have hi : t.info ≠ [] := by simp [info, hne]
    have hhead : t.info.head? ≠ some ':' := by
      obtain ⟨c, cs, hc⟩ := List.exists_cons_of_ne_nil hne
      have hcu := hu c (by rw [hc]; exact List.mem_cons_self)
      simpa [info, hc] using hcu
    simp only [ne_eq, hne, not_false_eq_true, if_true, Option.getD_some, hi, hhead, if_false]
    unfold info
    simp only [ne_eq] at hu hp
    rw [List.takeWhile_append_of_pos hu, List.dropWhile_append_of_pos hu]
    split_ifs with hpw
    · simpa using hp
    · simpa using (not_not.1 hpw).symm

def mirrorText : Str := t.mirrorParm.getD []

/-! ### Parameters of the mirror decoder -/

theorem mirrorParams_assign {l : List (Str × Str)} (h : ∀ e ∈ l, '=' ∉ e.1) (d : Dict Str Str) :
    mirrorParams d (l.map fun e => e.1 ++ '=' :: e.2) = .ok (d.assign l) := by
  induction l generalizing d with
  | nil => rfl
  | cons e l ih =>
    have hne : e.1 ++ '=' :: e.2 ≠ [] := by simp
    rw [List.map_cons, mirrorParams, if_neg hne, partition_append (h e List.mem_cons_self)]
    exact ih (fun e he => h e (List.mem_cons_of_mem _ he)) _

/-- Names and values without a newline. -/
def NoNewlines (d : Dict Str Str) : Prop := ∀ k v, d.get? k = some v → '\n' ∉ k ∧ '\n' ∉ v

theorem noNewlines_mirrorParams {ss : List Str} (hs : ∀ s ∈ ss, '\n' ∉ s) {d m : Dict Str Str}
    (hd : NoNewlines d) (h : mirrorParams d ss = .ok m) : NoNewlines m := by
  induction ss generalizing d with
  | nil =>
    cases h
    exact hd
  | cons s ss ih =>
    have hss : ∀ s ∈ ss, '\n' ∉ s := fun s hm => hs s (List.mem_cons_of_mem _ hm)
    have hno := hs s List.mem_cons_self
    rw [mirrorParams] at h
    split at h
    · exact ih hss hd h
    · split at h
      · cases h
      · rename_i s1 s2 hp
        refine ih hss (fun k v hv => ?_) h
        rw [Dict.get?_set] at hv
        split at hv
        · rename_i hk
          cases hv
          rw [partition_some hp] at hno
          simp only [List.mem_append, List.mem_cons, not_or] at hno
          exact ⟨by rw [hk]; exact hno.1, hno.2.2⟩
        · exact hd k v hv

theorem decodedParams_eq_iff : t.decodedParams = t.params.mapValues (fun _ => some) ↔
    ∀ e ∈ t.params.entries, e.2 ≠ [] := by
  constructor
  · intro h e he
    have hmap : t.params.entries.map (fun e => (e.1, if e.2 ≠ [] then some e.2 else none)) =
        t.params.entries.map fun e => (e.1, some e.2) := congrArg Dict.entries h
    have heq := (Prod.mk.inj (List.map_eq_map_iff.1 hmap e he)).2
    split_ifs at heq with hne
    exact hne
  · intro h
    refine Dict.ext (List.map_congr_left fun e he => ?_)
    show (e.1, if e.2 ≠ [] then some e.2 else none) = (e.1, some e.2)
    rw [if_pos (h e he)]

theorem mapValues_some_inj {d d' : Dict Str Str}
    (h : d.mapValues (fun _ => some) = d'.mapValues fun _ => some) : d = d' := by
  have hmap : d.entries.map (fun e => (e.1, some e.2)) = d'.entries.map fun e => (e.1, some e.2) :=
    congrArg Dict.entries h
  refine Dict.ext (List.map_injective_iff.2 (fun e e' he => ?_) hmap)
  obtain ⟨h1, h2⟩ := Prod.mk.inj he
  exact Prod.ext h1 (Option.some.inj h2)

theorem mirrorText_noNewline : '\n' ∉ t.mirrorText := by
  unfold mirrorText mirrorParm
  cases t.paramStr with
  | none => simp
  | some s =>
    intro hm
    simpa using List.mem_takeWhile_imp hm

/-- Where the two decoders agree: no capital in the type, a plain host, and no parameter without a
value or with a newline. -/
structure Plain : Prop where
  type : ∀ c ∈ t.type, c.toLower = c
  host : t.host.Plain
  params : ∀ e ∈ t.params.entries, e.2 ≠ [] ∧ '\n' ∉ e.1 ∧ '\n' ∉ e.2

theorem mirrorParams_plain (h : t.Plain) :
    mirrorParams Dict.empty (t.mirrorText.splitOn ';') = .ok t.params := by
  have hpiece : t.params.entries.map piece = t.params.entries.map fun e => e.1 ++ '=' :: e.2 :=
    List.map_congr_left fun e he => if_pos (h.params e he).1
  by_cases hp : t.params.entries = []
  · have ht : t.mirrorText = [] := by simp [mirrorText, mirrorParm, paramStr, hp]
    have hd : t.params = Dict.empty := Dict.ext hp
    rw [ht, hd]
    rfl
  · have hline : t.mirrorText = t.paramText := by
      have hall : ∀ c ∈ t.paramText, decide (c ≠ '\n') = true := by
        intro c hc
        rw [decide_eq_true_eq]
        rintro rfl
        rcases mem_splitOn_of_mem ';' hc with h' | ⟨s, hs, hcs⟩
        · cases h'
        · rw [t.splitOn_paramText hp, hpiece] at hs
          obtain ⟨e, he, rfl⟩ := List.mem_map.1 hs
          obtain ⟨-, h1, h2⟩ := h.params e he
          simp [h1, h2] at hcs
      simp only [mirrorText, mirrorParm, paramStr, ne_eq, hp, not_false_eq_true, if_true,
        Option.map_some, Option.getD_some]
      exact List.takeWhile_eq_self_iff.2 (by simpa using hall)
    rw [hline, t.splitOn_paramText hp, hpiece,
      mirrorParams_assign fun e he => (t.name_of_mem he).2.1]
    exact congrArg Except.ok (Dict.ext (Dict.entries_ofList t.params.nodup))

section Decode
variable [UnicodeData]

theorem decodemirrorurl_url (hl : t.type.map Char.toLower = t.type) : decodemirrorurl t.url =
    (mirrorParams Dict.empty (t.mirrorText.splitOn ';')).map fun params =>
      ⟨t.type, t.host.text, t.path, t.user, t.pswd, params⟩ := by
  have hlower : lower t.type = t.type := by
    have ha : ∀ c ∈ t.type, isAscii c := fun c hc =>
      isAscii_of_isUrlChar (t.isUrlChar_of_mem_base c (by simp [base, hc]))
    rw [lower_ascii ha, hl]
  have hslash : '/' ∉ t.host.text := not_mem_of_forall (Host.isHostChar_of_mem_text t.validHost) rfl
  obtain ⟨q, hq⟩ := t.exists_quotePath
  have hpath : unquote ('/' :: q) = t.path := by rw [← hq, URI.unquote_quotePath]
  unfold decodemirrorurl
  rw [t.mirrorMatch_url]
  simp only [hlower, t.notFile, if_false, t.mirrorPassword_user, hq,
    partition_append hslash, hpath]
  show (mirrorParams Dict.empty (t.mirrorText.splitOn ';')).bind _ = _
  cases mirrorParams Dict.empty (t.mirrorText.splitOn ';') <;> rfl

/-! ### Both decoders -/

/-- Both decoders read what was encoded, the first up to the case of the host. -/
def RoundTrips : Prop :=
  ∃ url u m, encodeurl t.decoded.optional = .ok url ∧ decodeurl url = .ok u ∧
    decodemirrorurl url = .ok m ∧ u.foldHost = t.decoded.optional.foldHost ∧ m.optional = u

theorem plain_of_roundTrips (h : t.RoundTrips) : t.Plain := by
  obtain ⟨url, u, m, henc, hdec, hmir, hfold, heq⟩ := h
  rw [t.encodeurl_decoded] at henc
  cases henc
  have htype : u.type = t.type := congrArg Decoded.type hfold
  have hl : t.type.map Char.toLower = t.type := by rw [← t.decodeurl_type hdec, htype]
  obtain ⟨hcheck, o, ho, rfl⟩ := (t.decodeurl_ok_iff hl).1 hdec
  rw [t.decodemirrorurl_url hl] at hmir
  cases hp : mirrorParams Dict.empty (t.mirrorText.splitOn ';') with
  | error e =>
    rw [hp] at hmir
    cases hmir
  | ok p =>
    rw [hp] at hmir
    cases hmir
    have hhost : t.host.text = (t.decodedWith o).host := congrArg Decoded.host heq
    have hparams : p.mapValues (fun _ => some) = t.decodedParams := congrArg Decoded.params heq
    have hvalues : t.decodedParams = t.params.mapValues fun _ => some :=
      congrArg Decoded.params hfold
    have hpt : p = t.params := mapValues_some_inj (hparams.trans hvalues)
    have hno : NoNewlines t.params := by
      rw [← hpt]
      refine noNewlines_mirrorParams (fun s hs hm => ?_) (fun k v hkv => ?_) hp
      · rw [List.splitOn_eq_splitOnP] at hs
        exact t.mirrorText_noNewline ((mem_splitOnP hs).2.subset hm)
      · cases hkv
    refine ⟨map_toLower_eq_self.1 hl, t.hostKept_iff.1 ⟨hcheck, o, ho, hhost.symm⟩, fun e he => ?_⟩
    exact ⟨t.decodedParams_eq_iff.1 hvalues e he, hno e.1 e.2 (Dict.get?_eq_some_iff.2 he)⟩

theorem roundTrips_of_plain (h : t.Plain) : t.RoundTrips := by
  have hl : t.type.map Char.toLower = t.type := map_toLower_eq_self.2 h.type
  obtain ⟨hcheck, o, ho, hhost⟩ := t.hostKept_iff.2 h.host
  have hparams : t.decodedParams = t.params.mapValues fun _ => some :=
    t.decodedParams_eq_iff.2 fun e he => (h.params e he).1
  have heq : t.decodedWith o = t.decoded.optional := by
    have hd : t.decodedWith o = ⟨t.type, (t.decodedWith o).host, t.path, t.user, t.pswd,
        t.decodedParams⟩ := rfl
    rw [hd, hhost, hparams]
    rfl
  refine ⟨t.url, t.decodedWith o, t.decoded, t.encodeurl_decoded,
    (t.decodeurl_ok_iff hl).2 ⟨hcheck, o, ho, rfl⟩, ?_, by rw [heq], heq.symm⟩
  rw [t.decodemirrorurl_url hl, t.mirrorParams_plain h]
  rfl

theorem roundTrips_iff : t.RoundTrips ↔ t.Plain :=
  ⟨t.plain_of_roundTrips, t.roundTrips_of_plain⟩

end Decode

attribute [local instance] asciiData

namespace Sample

theorem scheme : looksLikeScheme "http".toList := by decide +kernel

theorem notFile : "http".toList ≠ "file".toList := by decide

theorem validHost : (Host.literal "::1".toList (some "80".toList)).IsValid := by
  refine ⟨by decide +kernel, ?_⟩
  rintro p ⟨⟩
  decide +kernel

theorem noSlashes : contains "//".toList "/x".toList = false := by decide +kernel

theorem noChars : ∀ c ∈ ([] : Str), isUnreserved c := List.forall_mem_nil _

theorem pswdUser : ([] : Str) ≠ [] → ([] : Str) ≠ [] := id

theorem names : ∀ k ∈ (Dict.empty : Dict Str Str).keys, k ≠ [] ∧ '=' ∉ k ∧ ';' ∉ k :=
  List.forall_mem_nil _

theorem values : ∀ v ∈ (Dict.empty : Dict Str Str).values, ';' ∉ v := List.forall_mem_nil _

/-- An address with a port comes back without its brackets. -/
def literal : Tokens :=
  ⟨"http".toList, .literal "::1".toList (some "80".toList), "/x".toList, [], [], Dict.empty, scheme,
    notFile, validHost, rfl, noSlashes, noChars, noChars, pswdUser, names, values⟩

end Sample

theorem literal_fails : ¬ Sample.literal.RoundTrips :=
  fun h => (Sample.literal.plain_of_roundTrips h).host

end Tokens

end FetchUrl
end BitBake
end OpenBmc
