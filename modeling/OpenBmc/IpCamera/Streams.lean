import OpenBmc.IpCamera.Refresh

/-!
# Streams of a profile list

`listedProfiles` are the profiles a refresh records: those with a URL whose query has no `snapshot`.
The streams of a profile list are their records, assigned one after the other under their stream
names (`profileStreams_eq`); so no stream is lost exactly when the names differ.
-/

namespace OpenBmc
namespace IpCamera
open Py

/-- A profile that is recorded as a stream: its position, its URL and its name. -/
structure Listed where
  index : Nat
  url : Str
  parsed : ParseResult
  name : Str
deriving DecidableEq

namespace Listed
variable [UnicodeData]

/-- The part of the stream name that depends on the profile. -/
def slug (x : Listed) : Slug := (hostSlug x.parsed).join (tokenSlug x.parsed x.index)

def streamName (streamPrefix : Str) (x : Listed) : Slug :=
  ((prefixSlug streamPrefix).join (hostSlug x.parsed)).join (tokenSlug x.parsed x.index)

def record (streamPrefix : Str) (x : Listed) : StreamRec where
  profileName := x.name
  profileToken := firstValue (parseQs x.parsed.query) "subtype" (natStr x.index)
  snapshot := false
  streamName := x.streamName streamPrefix
  streamUrl := x.url

theorem streamName_val (streamPrefix : Str) (x : Listed) :
    (x.streamName streamPrefix).val = (prefixSlug streamPrefix).val ++ '_' :: x.slug.val := by
  simp [streamName, slug, Slug.join]

theorem streamName_inj {streamPrefix : Str} {x y : Listed} :
    x.streamName streamPrefix = y.streamName streamPrefix ↔ x.slug = y.slug := by
  simp [Slug.ext_iff, streamName_val]

end Listed

section Profiles
variable [UnicodeData]

/-- A profile that is a snapshot, or one to record, or neither. -/
def readProfile (index : Nat) (profile : Json) : Except PyError (Option Listed × Bool) := do
  let url := (← profile.get "url" (.str [])).toStr
  if url = [] then return (none, false)
  let parsed ← urlparse url
  if ("snapshot" : Str) ∈ parseQs parsed.query then return (none, true)
  return (some ⟨index, url, parsed, (← profile.get "name" (.str [])).toStr⟩, false)

def readProfiles : Nat → List Json → Except PyError (List Listed × Bool)
  | _, [] => .ok ([], false)
  | index, profile :: rest => do
    let (listed, snapshot) ← readProfile index profile
    let (others, snapshots) ← readProfiles (index + 1) rest
    return (listed.toList ++ others, snapshot || snapshots)

/-- The profiles of a list that are recorded. -/
def listedProfiles (items : Json) : Except PyError (List Listed) := do
  return (← readProfiles 0 (← items.iter)).1

theorem addProfile_eq (streamPrefix : Str) (index : Nat) (profile : Json)
    (acc : Dict Slug StreamRec × Bool) : addProfile streamPrefix index profile acc =
      (readProfile index profile).map fun r =>
        (acc.1.assign (r.1.toList.map fun x => (x.streamName streamPrefix, x.record streamPrefix)),
          acc.2 || r.2) := by
  unfold addProfile readProfile
  cases hu : profile.get "url" (.str []) with
  | error e => rfl
  | ok v =>
    simp only [bind, Except.bind]
    split
    · simp [pure, Except.pure, Except.map]
    · cases hp : urlparse v.toStr with
      | error e => rfl
      | ok p =>
        simp only
        split
        · simp [pure, Except.pure, Except.map]
        · obtain ⟨n, hn⟩ : ∃ n, profile.get "name" (.str []) = .ok n := Json.get_isOk hu
          simp only [hn, makeStreamName_ok hp, pure, Except.pure]
          simp [Except.map, Listed.record, Listed.streamName]

theorem addProfiles_eq (streamPrefix : Str) (items : List Json) : ∀ (index : Nat)
    (acc : Dict Slug StreamRec × Bool), addProfiles streamPrefix index items acc =
      (readProfiles index items).map fun r =>
        (acc.1.assign (r.1.map fun x => (x.streamName streamPrefix, x.record streamPrefix)),
          acc.2 || r.2) := by
  induction items with
  | nil => intro index acc; simp [addProfiles, readProfiles, Except.map]
  | cons profile rest ih =>
    intro index acc
    rw [addProfiles, readProfiles, addProfile_eq]
    cases hr : readProfile index profile with
    | error e => rfl
    | ok r =>
      simp only [Except.map, bind, Except.bind, ih]
      cases hrs : readProfiles (index + 1) rest with
      | error e => rfl
      | ok rs => simp [pure, Except.pure, Dict.assign_append, Bool.or_assoc]

/-- The streams of a profile list are the records of its listed profiles. -/
theorem profileStreams_ok {streamPrefix : Str} {items : Json} {streams : Dict Slug StreamRec}
    {snapshot : Bool} (h : profileStreams streamPrefix items = .ok (streams, snapshot)) :
    ∃ l, listedProfiles items = .ok l ∧ streams =
      Dict.ofList (l.map fun x => (x.streamName streamPrefix, x.record streamPrefix)) := by
  unfold profileStreams at h
  cases hi : items.iter with
  | error e => simp [hi, bind, Except.bind] at h
  | ok profiles =>
    simp only [hi, bind, Except.bind, addProfiles_eq] at h
    cases hr : readProfiles 0 profiles with
    | error e => simp [hr, Except.map] at h
    | ok r =>
      simp only [hr, Except.map, Except.ok.injEq, Prod.mk.injEq] at h
      exact ⟨r.1, by simp [listedProfiles, hi, hr, bind, Except.bind, pure, Except.pure], h.1.symm⟩

theorem profileStreams_isOk (streamPrefix : Str) {items : Json} {l : List Listed}
    (h : listedProfiles items = .ok l) :
    ∃ streams snapshot, profileStreams streamPrefix items = .ok (streams, snapshot) := by
  unfold listedProfiles at h
  cases hi : items.iter with
  | error e => simp [hi, bind, Except.bind] at h
  | ok profiles =>
    cases hr : readProfiles 0 profiles with
    | error e => simp [hi, hr, bind, Except.bind] at h
    | ok r =>
      refine ⟨Dict.ofList (r.1.map fun x => (x.streamName streamPrefix, x.record streamPrefix)), r.2, ?_⟩
      simp [profileStreams, hi, bind, Except.bind, addProfiles_eq, hr, Except.map, Dict.ofList]

/-- A recorded stream is the record of a listed profile, under its own name. -/
theorem mem_profileStreams {streamPrefix : Str} {items : Json} {streams : Dict Slug StreamRec}
    {snapshot : Bool} {l : List Listed}
    (h : profileStreams streamPrefix items = .ok (streams, snapshot))
    (hl : listedProfiles items = .ok l) {s : Slug} {r : StreamRec} (hs : streams.get? s = some r) :
    ∃ x ∈ l, s = x.streamName streamPrefix ∧ r = x.record streamPrefix := by
  obtain ⟨l', hl', rfl⟩ := profileStreams_ok h
  rw [hl] at hl'
  cases hl'
  obtain ⟨x, hx, hxs⟩ := List.mem_map.1 (Dict.mem_of_get?_ofList hs)
  exact ⟨x, hx, (Prod.mk.inj hxs).1.symm, (Prod.mk.inj hxs).2.symm⟩

/-! ### A stream name is a slug, and so the key of its stream -/

/-- A stream name is a slug, for every URL that `urlparse` accepts; the streams of a profile list are
filed under their names; and `sanitize_fragment` is done once and for all. -/
theorem stream_names_are_slugs :
    (∀ (streamPrefix url : Str) (index : Nat),
      (∃ e, urlparse url = .error e ∧ makeStreamName streamPrefix url index = .error e) ∨
        ∃ name, makeStreamName streamPrefix url index = .ok name ∧ MatchesSlug name.val ∧
          isPathElement name.val ∧ ∀ fallback, sanitizeText name.val fallback = name.val) ∧
      (∀ (streamPrefix : Str) (items : Json) (streams : Dict Slug StreamRec) (snapshot : Bool),
        profileStreams streamPrefix items = .ok (streams, snapshot) →
          ∀ key r, streams.get? key = some r → key = r.streamName) ∧
      ∀ value fallback : Str, MatchesSlug fallback →
        sanitizeText (sanitizeText value fallback) fallback = sanitizeText value fallback := by
  refine ⟨fun streamPrefix url index => ?_, fun streamPrefix items streams snapshot h key r hr => ?_,
    fun value fallback h => ?_⟩
  · cases hp : urlparse url with
    | error e => exact .inl ⟨e, rfl, by simp [makeStreamName, hp, bind, Except.bind]⟩
    | ok p =>
      refine .inr ⟨_, makeStreamName_ok hp, matchesSlug_iff.2 (Slug.isSlug _),
        isPathElement_slug _, ?_⟩
      exact sanitizeText_of_isSlug (Slug.isSlug _)
  · obtain ⟨l, hl, -⟩ := profileStreams_ok h
    obtain ⟨x, -, rfl, rfl⟩ := mem_profileStreams h hl hr
    rfl
  · exact sanitizeText_of_isSlug (isSlug_sanitizeText value (matchesSlug_iff.1 h)) fallback

/-! ### A refresh keeps every stream exactly when their names differ -/

theorem values_ofList_perm_iff {streamPrefix : Str} {l : List Listed} :
    ((Dict.ofList (l.map fun x =>
        (x.streamName streamPrefix, x.record streamPrefix))).values.map StreamRec.streamUrl).Perm
      (l.map Listed.url) ↔ (l.map Listed.slug).Nodup := by
  have hkeys : ((l.map fun x => (x.streamName streamPrefix, x.record streamPrefix)).map
      Prod.fst).Nodup ↔ (l.map Listed.slug).Nodup := by
    simp only [List.map_map, Function.comp_def, List.Nodup, List.pairwise_map, ne_eq,
      Listed.streamName_inj]
  rw [← hkeys]
  constructor
  · intro h
    rw [← Dict.length_ofList]
    simpa using h.length_eq
  · intro h
    rw [Dict.values, Dict.entries_ofList h]
    simp [Function.comp_def, Listed.record]

/-- The profiles to record of the last list that an enumeration brought, if it is not empty. -/
def listedBy (sent : List Sent) : Option (List Listed) :=
  ((listing sent).filter Json.truthy).bind fun items => (listedProfiles items).toOption

/-- After a refresh that lists `l`, there is a stream with the URL of each profile of `l`, one for
each, exactly when the profiles differ in the host or the token that name their streams. -/
theorem streams_kept_iff (cfg : Config) (imports : Bool) (env : TurnEnv) (c : Camera)
    (l : List Listed) (hl : listedBy (afterRefresh cfg imports env c).sent = some l) :
    ((afterRefresh cfg imports env c).camera.streams.values.map StreamRec.streamUrl).Perm
      (l.map Listed.url) ↔ (l.map Listed.slug).Nodup := by
  obtain ⟨e, reqs, hsent, h, -⟩ := refreshed_afterRefresh cfg imports env c
  obtain ⟨items, hitems, hl⟩ := Option.bind_eq_some_iff.1 (hsent ▸ hl)
  have hl : listedProfiles items = .ok l := by
    cases hp : listedProfiles items <;> simp_all [Except.toOption]
  generalize (afterRefresh cfg imports env c).camera = c' at h
  have hsel : ∀ {probes sent selected}, Probed env 0 probes selected → reqs = probes ++ sent →
      (∀ q ∈ sent, q.isProbe = false) → selected = some items := fun hp hr hs => by
    rw [← hp.listing hs, ← hr, hitems]
  cases h with
  | unresolved => simp [answered, listing, lastList] at hitems
  | interrupted _ hp hs =>
    obtain ⟨streams, snapshot, hok⟩ := profileStreams_isOk cfg.streamPrefix hl
    obtain ⟨e, he⟩ := hs items (hsel hp (List.append_nil _).symm (by simp))
    rw [hok] at he
    cases he
  | unreachable _ hp => cases hsel hp (List.append_nil _).symm (by simp)
  | enumerated _ hp hs hpre _ =>
    have hsame := hsel hp rfl fun q hq => by
      have hq := hpre.subset hq
      split at hq
      · exact isProbe_reconcileRequests hq
      · simp at hq
    cases hsame
    obtain ⟨l', hl', rfl⟩ := profileStreams_ok hs
    rw [hl] at hl'
    cases hl'
    exact values_ofList_perm_iff

end Profiles

/-! ### Two recorders, and a URL that names no stream -/

attribute [local instance] asciiData

theorem unparsed_names_no_stream : ¬ ∃ name, makeStreamName "ipcam" "rtsp://[" 0 = .ok name := by
  have herr : (makeStreamName "ipcam" "rtsp://[" 0).toOption.isNone := by decide +kernel
  rintro ⟨name, h⟩
  rw [h] at herr
  cases herr

theorem live_is_slug : ∃ streams snapshot,
    profileStreams "ipcam" (.arr [.obj [("url", .str "rtsp://10.0.0.5/live")]]) =
        .ok (streams, snapshot) ∧
      (∀ key r, streams.get? key = some r → key = r.streamName) ∧
      sanitizeText (sanitizeText "Front Door" Slug.camera.val) Slug.camera.val =
        sanitizeText "Front Door" Slug.camera.val := by
  have hok : (profileStreams "ipcam"
      (.arr [.obj [("url", .str "rtsp://10.0.0.5/live")]])).toOption.isSome := by decide +kernel
  cases hs : profileStreams "ipcam" (.arr [.obj [("url", .str "rtsp://10.0.0.5/live")]]) with
  | error e => rw [hs] at hok; cases hok
  | ok r =>
    exact ⟨r.1, r.2, rfl, stream_names_are_slugs.2.1 _ _ _ _ hs,
      stream_names_are_slugs.2.2 _ _ (matchesSlug_iff.2 Slug.camera.isSlug)⟩

namespace Sample

/-- A main and a sub stream. -/
def subtypes : List String :=
  ["rtsp://10.0.0.5/live?subtype=0", "rtsp://10.0.0.5/live?subtype=1"]

/-- Two channels. -/
def channels : List String :=
  ["rtsp://10.0.0.5/live?channel=1&subtype=0", "rtsp://10.0.0.5/live?channel=2&subtype=0"]

def recorder : Camera := { Camera.fresh with address := some "10.0.0.5" }

/-- The recorder's refresh that lists these profiles. -/
def listed (urls : List String) : Turn :=
  afterRefresh config false (turnEnv (sources urls) accepted) recorder

end Sample

theorem subtypes_kept : ((afterRefresh Sample.config false
      (Sample.turnEnv (Sample.sources Sample.subtypes) Sample.accepted)
      Sample.recorder).camera.streams.values.map StreamRec.streamUrl).Perm
    (((listedBy (Sample.listed Sample.subtypes).sent).getD []).map Listed.url) := by
  have hl : listedBy (Sample.listed Sample.subtypes).sent =
      some ((listedBy (Sample.listed Sample.subtypes).sent).getD []) := by decide +kernel
  exact (streams_kept_iff Sample.config false (Sample.turnEnv (Sample.sources Sample.subtypes)
    Sample.accepted) Sample.recorder _ hl).2 (by decide +kernel)

/-- The second channel takes the name of the first, which is lost. -/
theorem channels_lost :
    ((listedBy (Sample.listed Sample.channels).sent).map (List.map Listed.url) =
        some (Sample.channels.map String.toList)) ∧
      (Sample.listed Sample.channels).camera.streams.values.map StreamRec.streamUrl =
        ["rtsp://10.0.0.5/live?channel=2&subtype=0"] ∧
      ¬ ((Sample.listed Sample.channels).camera.streams.values.map StreamRec.streamUrl).Perm
        (Sample.channels.map String.toList) := by
  decide +kernel

end IpCamera
end OpenBmc
