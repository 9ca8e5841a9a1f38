import OpenBmc.IpCamera.State

/-!
# Work on one camera

`_refresh_camera_locked` and the request loops, as programs over one camera record and the log of
requests sent (`TurnM`). A program of this kind cannot touch another camera. `Refreshed` says once
what a refresh can do, whether it returns or raises (`refreshCamera_spec`); `sendAll_spec` does the
same for the loops that send requests and only log a failed one.
-/

namespace OpenBmc
namespace IpCamera
open Py

structure Turn where
  camera : Camera
  sent : List Sent

abbrev TurnM := EStateM PyError Turn

def modifyCamera (f : Camera → Camera) : TurnM Unit := modify fun t => { t with camera := f t.camera }

/-- The reply is the next one the environment has for this camera. -/
def request (env : TurnEnv) (r : Request) : TurnM Reply :=
  modifyGet fun t => (env.reply t.sent.length, { t with sent := t.sent ++ [⟨r, env.reply t.sent.length⟩] })

def requestJson (env : TurnEnv) (r : Request) : TurnM Json := do
  liftExcept (← request env r).json

def requestSources (env : TurnEnv) (r : Request) : TurnM Json := do
  liftExcept (← request env r).sources

/-- `try: .. except (HTTPError, URLError) as error`. -/
def attempt {α : Type} (m : TurnM α) : TurnM (Except PyError α) :=
  tryCatch (.ok <$> m) fun e => if isUrlError e then pure (.error e) else throw e

/-- Requests one after the other; one that go2rtc refuses is only logged. -/
def sendAll (env : TurnEnv) (requests : List Request) : TurnM Unit :=
  forM requests fun r => do
    let _ ← attempt (requestJson env r)

/-! ### Profiles -/

section Profiles
variable [UnicodeData]

/-- One round of the loop over the profiles; the accumulator is `new_streams` and
`snapshot_support`. -/
def addProfile (streamPrefix : Str) (index : Nat) (profile : Json)
    (acc : Dict Slug StreamRec × Bool) : Except PyError (Dict Slug StreamRec × Bool) := do
  let url := (← profile.get "url" (.str [])).toStr
  if url = [] then return acc
  let query := parseQs (← urlparse url).query
  if ("snapshot" : Str) ∈ query then return (acc.1, true)
  let streamName ← makeStreamName streamPrefix url index
  let streamSlug := sanitizeFragment streamName.val (Slug.stream.join (Slug.ofNat index))
  let profileName := (← profile.get "name" (.str [])).toStr
  return (acc.1.set streamSlug
    { profileName
      profileToken := firstValue query "subtype" (natStr index)
      snapshot := false
      streamName
      streamUrl := url }, acc.2)

def addProfiles (streamPrefix : Str) : Nat → List Json → Dict Slug StreamRec × Bool →
    Except PyError (Dict Slug StreamRec × Bool)
  | _, [], acc => .ok acc
  | index, profile :: rest, acc => do
    addProfiles streamPrefix (index + 1) rest (← addProfile streamPrefix index profile acc)

/-- The streams of a profile list, and whether one of the profiles is a snapshot. -/
def profileStreams (streamPrefix : Str) (items : Json) :
    Except PyError (Dict Slug StreamRec × Bool) := do
  addProfiles streamPrefix 0 (← items.iter) (Dict.empty, false)

end Profiles

/-! ### Refreshing -/

/-- `{entry["stream_name"]: entry["stream_url"] for entry in streams.values()}`. -/
def recordedStreams (streams : Dict Slug StreamRec) : Dict Slug Str :=
  Dict.ofList (streams.values.map fun r => (r.streamName, r.streamUrl))

/-- The names to delete, sorted. -/
def staleNames (previous desired : Dict Slug Str) : List Slug :=
  (previous.keys.filter (· ∉ desired)).insertionSort (· ≤ ·)

def reconcileGo2rtcStreams (env : TurnEnv) (previous : Dict Slug Str)
    (newStreams : Dict Slug StreamRec) : TurnM Unit := do
  let desired := recordedStreams newStreams
  sendAll env ((staleNames previous desired).map .deleteStream)
  sendAll env (desired.entries.map fun e => .putStream e.1 e.2)

/-- `_camera_credentials`. -/
def cameraCredentials (camera : Camera) : List (Option Str × Option Str) :=
  let username := camera.username.getD []
  let password := camera.password.getD []
  (if username ≠ [] ∨ password ≠ [] then [(some username, some password)] else []) ++ [(none, none)]

namespace Camera

/-- `camera.get("endpoint") or camera.get("address") or ""`. -/
def target (c : Camera) : Str :=
  if c.endpoint.getD [] ≠ [] then c.endpoint.getD [] else c.address.getD []

def withAddress (c : Camera) (address : Str) (now : Nat) : Camera :=
  { c with address := some address, lastRefreshUsec := some now }

/-- No credentials worked. -/
def unreachable (c : Camera) (lastError : Str) : Camera :=
  { c with
    present := some false
    functional := some false
    authStatus := some "failed"
    lastError := some (if lastError ≠ [] then lastError else "unable to enumerate profiles") }

def enumerated (c : Camera) (streams : Dict Slug StreamRec) (snapshot : Bool) (now : Nat) : Camera :=
  { c with
    streams
    present := some true
    functional := some true
    authStatus := some "ok"
    snapshotSupport := some snapshot
    lastSeenUsec := some now
    lastError := some [] }

end Camera

section Refresh
variable [UnicodeData]

/-- The loop over the credentials: the first profile list that is not empty, or else the last
error. -/
def probe (env : TurnEnv) (endpoint : Str) :
    List (Option Str × Option Str) → Str → TurnM (Option Json × Str)
  | [], lastError => pure (none, lastError)
  | (username, password) :: rest, lastError => do
    let candidate ← liftExcept (do buildUrl (← urlparse endpoint) username password)
    match ← attempt (requestSources env (.probe candidate)) with
    | .error e => probe env endpoint rest (errorText e)
    | .ok items => if items.truthy then pure (some items, lastError) else probe env endpoint rest lastError

/-- `_refresh_camera_locked`, for a camera that is there. -/
def refreshCamera (cfg : Config) (importStreams : Bool) (env : TurnEnv) : TurnM Unit := do
  let camera := (← get).camera
  let endpoint ← liftExcept (ensureOnvifUrl camera.target)
  let stripped ← liftExcept (stripCredentials endpoint)
  modifyCamera fun c => { c with endpoint := some stripped }
  let address ← liftExcept (extractAddress endpoint)
  modifyCamera fun c => c.withAddress address env.refreshedAt
  let (selected, lastError) ← probe env endpoint (cameraCredentials camera) []
  match selected with
  | none => modifyCamera fun c => c.unreachable lastError
  | some items => do
    let previous := recordedStreams camera.streams
    let (streams, snapshot) ← liftExcept (profileStreams cfg.streamPrefix items)
    modifyCamera fun c => c.enumerated streams snapshot env.seenAt
    if importStreams then reconcileGo2rtcStreams env previous streams

end Refresh

/-! ### What the request loops do -/

/-- No exception but a refusal, which is logged. -/
def Reply.quiet (reply : Reply) : Bool :=
  match reply.json with
  | .ok _ => true
  | .error e => isUrlError e

/-- Requests with the replies the environment has for them, from the `n`-th on. -/
def answered (env : TurnEnv) : Nat → List Request → List Sent
  | _, [] => []
  | n, r :: rs => ⟨r, env.reply n⟩ :: answered env (n + 1) rs

@[simp] theorem length_answered (env : TurnEnv) : ∀ n rs, (answered env n rs).length = rs.length
  | _, [] => rfl
  | n, _ :: rs => by simp [answered, length_answered env (n + 1) rs]

theorem answered_append (env : TurnEnv) : ∀ n rs rs',
    answered env n (rs ++ rs') = answered env n rs ++ answered env (n + rs.length) rs'
  | _, [], _ => rfl
  | n, r :: rs, rs' => by
    rw [List.cons_append, answered, answered_append env (n + 1) rs rs', answered, List.cons_append,
      List.length_cons, Nat.add_right_comm, Nat.add_assoc]

theorem request_mem_of_mem_answered {env : TurnEnv} {s : Sent} : ∀ {n : Nat} {rs : List Request},
    s ∈ answered env n rs → s.request ∈ rs
  | _, [], h => by simp [answered] at h
  | _, r :: rs, h => by
    rcases List.mem_cons.1 h with rfl | h
    · simp
    · exact List.mem_cons_of_mem _ (request_mem_of_mem_answered h)

theorem reply_mem_of_mem_answered {env : TurnEnv} {s : Sent} : ∀ {n : Nat} {rs : List Request},
    s ∈ answered env n rs → ∃ m, s.reply = env.reply m
  | _, [], h => by simp [answered] at h
  | n, _ :: _, h => by
    rcases List.mem_cons.1 h with rfl | h
    · exact ⟨n, rfl⟩
    · exact reply_mem_of_mem_answered h

theorem mem_answered_of_mem {env : TurnEnv} {r : Request} : ∀ {n : Nat} {rs : List Request},
    r ∈ rs → ∃ s ∈ answered env n rs, s.request = r
  | _, r' :: rs, h => by
    rcases List.mem_cons.1 h with rfl | h
    · exact ⟨_, List.mem_cons_self .., rfl⟩
    · obtain ⟨s, hs, hr⟩ := mem_answered_of_mem (n := _ + 1) h
      exact ⟨s, List.mem_cons_of_mem _ hs, hr⟩

/-- The turn with more requests sent. -/
def Turn.logged (t : Turn) (log : List Sent) : Turn := { t with sent := t.sent ++ log }

@[simp] theorem Turn.camera_logged (t : Turn) (log : List Sent) : (t.logged log).camera = t.camera :=
  rfl

@[simp] theorem Turn.sent_logged (t : Turn) (log : List Sent) :
    (t.logged log).sent = t.sent ++ log := rfl

@[simp] theorem Turn.logged_nil (t : Turn) : t.logged [] = t := by simp [Turn.logged]

@[simp] theorem Turn.logged_logged (t : Turn) (l l' : List Sent) :
    (t.logged l).logged l' = t.logged (l ++ l') := by simp [Turn.logged]

/-- The turn with the answer to one more request. -/
def Turn.log (t : Turn) (env : TurnEnv) (r : Request) : Turn :=
  t.logged (answered env t.sent.length [r])

section Wp
variable {α : Type} {env : TurnEnv} {r : Request} {t : Turn} {E : PyError → Turn → Prop}

@[simp] theorem wp_modifyCamera {f : Camera → Camera} {Q : Unit → Turn → Prop} :
    wp (modifyCamera f) Q E t ↔ Q () { t with camera := f t.camera } := Iff.rfl

@[simp] theorem wp_request {Q : Reply → Turn → Prop} :
    wp (request env r) Q E t ↔ Q (env.reply t.sent.length) (t.log env r) := Iff.rfl

@[simp] theorem wp_requestJson {Q : Json → Turn → Prop} :
    wp (requestJson env r) Q E t ↔
      (∀ j, (env.reply t.sent.length).json = .ok j → Q j (t.log env r)) ∧
        ∀ e, (env.reply t.sent.length).json = .error e → E e (t.log env r) := by
  simp [requestJson]

@[simp] theorem wp_requestSources {Q : Json → Turn → Prop} :
    wp (requestSources env r) Q E t ↔
      (∀ j, (env.reply t.sent.length).sources = .ok j → Q j (t.log env r)) ∧
        ∀ e, (env.reply t.sent.length).sources = .error e → E e (t.log env r) := by
  simp [requestSources]

@[simp] theorem wp_attempt {m : TurnM α} {Q : Except PyError α → Turn → Prop} :
    wp (attempt m) Q E t ↔ wp m (fun a => Q (.ok a))
      (fun e t' => (isUrlError e → Q (.error e) t') ∧ (¬ isUrlError e → E e t')) t := by
  have hhandler : (fun e => wp (if isUrlError e then pure (.error e) else throw e) Q E) =
      fun e t' => (isUrlError e → Q (.error e) t') ∧ (¬ isUrlError e → E e t') := by
    funext e t'
    rw [wp_ite, wp_pure, wp_throw]
  rw [attempt, wp_tryCatch, wp_map, hhandler]

end Wp

theorem sendAll_cons (env : TurnEnv) (r : Request) (rs : List Request) :
    sendAll env (r :: rs) = attempt (requestJson env r) >>= fun _ => sendAll env rs := by
  simp only [sendAll, List.forM_cons, bind_assoc, pure_bind]

/-- Either every request was sent, and no reply was worse than a refusal, or the loop stopped at the
first such reply. The record is not touched. -/
theorem sendAll_spec (env : TurnEnv) (rs : List Request) (t : Turn) :
    wp (sendAll env rs)
      (fun _ t' => t' = t.logged (answered env t.sent.length rs) ∧
        ∀ s ∈ answered env t.sent.length rs, s.reply.quiet)
      (fun _ t' => ∃ pre, pre <+: rs ∧ t' = t.logged (answered env t.sent.length pre) ∧
        ∃ s ∈ answered env t.sent.length pre, ¬ s.reply.quiet) t := by
  induction rs generalizing t with
  | nil => simp [sendAll, answered]
  | cons r rs ih =>
    have hlen : (t.log env r).sent.length = t.sent.length + 1 := by simp [Turn.log]
    have hnext : ∀ rs', (t.log env r).logged (answered env (t.log env r).sent.length rs') =
        t.logged (answered env t.sent.length (r :: rs')) := fun rs' => by
      rw [hlen]; simp [Turn.log, answered]
    have hrest : (env.reply t.sent.length).quiet → wp (sendAll env rs)
        (fun _ t' => t' = t.logged (answered env t.sent.length (r :: rs)) ∧
          ∀ s ∈ answered env t.sent.length (r :: rs), s.reply.quiet)
        (fun _ t' => ∃ pre, pre <+: r :: rs ∧
          t' = t.logged (answered env t.sent.length pre) ∧
          ∃ s ∈ answered env t.sent.length pre, ¬ s.reply.quiet) (t.log env r) := fun hq => by
      refine (ih (t.log env r)).mono (fun _ t' h => ?_) fun _ t' h => ?_
      · refine ⟨h.1.trans (hnext rs), fun s hs => ?_⟩
        rcases List.mem_cons.1 hs with rfl | hs
        · exact hq
        · exact h.2 s (by rwa [hlen])
      · obtain ⟨pre, hp, ht, s, hs, hns⟩ := h
        refine ⟨r :: pre, (List.prefix_cons_inj r).2 hp, ht.trans (hnext pre), s, ?_, hns⟩
        rw [hlen] at hs
        exact List.mem_cons_of_mem _ hs
    rw [sendAll_cons, wp_bind, wp_attempt, wp_requestJson]
    refine ⟨fun j hj => hrest (by simp [Reply.quiet, hj]), fun e he => ⟨fun hu =>
      hrest (by simp [Reply.quiet, he, hu]), fun hu => ⟨[r], by simp, rfl, ?_⟩⟩⟩
    exact ⟨⟨r, env.reply t.sent.length⟩, by simp [answered], by simpa [Reply.quiet, he] using hu⟩

/-- What reconciling sends for the names recorded before and the new streams. -/
def reconcileRequests (previous : Dict Slug Str) (newStreams : Dict Slug StreamRec) : List Request :=
  (staleNames previous (recordedStreams newStreams)).map .deleteStream ++
    (recordedStreams newStreams).entries.map fun e => .putStream e.1 e.2

theorem reconcile_spec (env : TurnEnv) (previous : Dict Slug Str) (newStreams : Dict Slug StreamRec) (t : Turn) :
    wp (reconcileGo2rtcStreams env previous newStreams)
      (fun _ t' => t' = t.logged (answered env t.sent.length (reconcileRequests previous newStreams)) ∧
        ∀ s ∈ answered env t.sent.length (reconcileRequests previous newStreams), s.reply.quiet)
      (fun _ t' => ∃ pre, pre <+: reconcileRequests previous newStreams ∧
        t' = t.logged (answered env t.sent.length pre)) t := by
  have happ : ∀ n, answered env n (reconcileRequests previous newStreams) =
      answered env n ((staleNames previous (recordedStreams newStreams)).map .deleteStream) ++
        answered env (n + ((staleNames previous (recordedStreams newStreams)).map
          Request.deleteStream).length) ((recordedStreams newStreams).entries.map
            fun e => .putStream e.1 e.2) := fun n => answered_append env n _ _
  rw [reconcileGo2rtcStreams, wp_bind]
  refine (sendAll_spec env _ t).mono ?_ ?_
  · rintro _ _ ⟨rfl, hq⟩
    refine (sendAll_spec env _ _).mono ?_ ?_
    · rintro _ _ ⟨rfl, hq'⟩
      simp only [Turn.sent_logged, List.length_append, length_answered] at hq' ⊢
      rw [happ]
      refine ⟨by rw [Turn.logged_logged], fun s hs => ?_⟩
      exact (List.mem_append.1 hs).elim (hq s) (hq' s)
    · rintro _ _ ⟨pre, hp, rfl, -⟩
      refine ⟨_ ++ pre, (List.prefix_append_right_inj _).2 hp, ?_⟩
      simp only [Turn.sent_logged, List.length_append, length_answered, Turn.logged_logged]
      rw [answered_append]
  · rintro _ _ ⟨pre, hp, rfl, -⟩
    exact ⟨pre, hp.trans (List.prefix_append _ _), rfl⟩

/-! ### What a refresh does -/

def Request.isProbe : Request → Bool
  | .probe _ => true
  | _ => false

/-- The list that the last request brought. -/
def lastList (log : List Sent) : Option Json := log.getLast?.bind fun s => s.reply.sources.toOption

/-- The list that the last enumeration brought. -/
def listing (sent : List Sent) : Option Json := lastList (sent.filter fun s => s.request.isProbe)

theorem lastList_cons (s : Sent) (log : List Sent) :
    lastList (s :: log) = if log = [] then s.reply.sources.toOption else lastList log := by
  cases log with
  | nil => simp [lastList]
  | cons s' log => simp [lastList]

/-- The probing loop sent `reqs`; `selected` is what the last of them brought, if it is not empty. -/
structure Probed (env : TurnEnv) (n : Nat) (reqs : List Request) (selected : Option Json) : Prop where
  probes : ∀ q ∈ reqs, q.isProbe
  selected : (lastList (answered env n reqs)).filter Json.truthy = selected

theorem filter_isProbe_answered (env : TurnEnv) {p : Bool} : ∀ {n : Nat} {reqs : List Request},
    (∀ q ∈ reqs, q.isProbe = p) → (answered env n reqs).filter (fun s => s.request.isProbe) =
      if p then answered env n reqs else []
  | _, [], _ => by cases p <;> rfl
  | n, r :: rs, h => by
    have ih := filter_isProbe_answered env (n := n + 1) fun q hq => h q (List.mem_cons_of_mem _ hq)
    have hr := h r (List.mem_cons_self ..)
    rw [answered, List.filter_cons]
    cases p <;> simp [hr, ih]

theorem isProbe_reconcileRequests {previous : Dict Slug Str} {newStreams : Dict Slug StreamRec}
    {q : Request} (h : q ∈ reconcileRequests previous newStreams) : q.isProbe = false := by
  rcases List.mem_append.1 h with h | h
  · obtain ⟨_, -, rfl⟩ := List.mem_map.1 h; rfl
  · obtain ⟨_, -, rfl⟩ := List.mem_map.1 h; rfl

theorem probed_nil (env : TurnEnv) (n : Nat) : Probed env n [] none := ⟨by simp, rfl⟩

/-- Later requests that do not enumerate leave the listing alone. -/
theorem Probed.listing {env : TurnEnv} {probes sent : List Request} {selected : Option Json}
    (h : Probed env 0 probes selected) (hs : ∀ q ∈ sent, q.isProbe = false) :
    (listing (answered env 0 (probes ++ sent))).filter Json.truthy = selected := by
  rw [IpCamera.listing, answered_append, List.filter_append, filter_isProbe_answered env hs,
    filter_isProbe_answered env h.probes]
  simpa using h.selected

theorem lastList_answered {env : TurnEnv} {items : Json} {reqs : List Request} {n : Nat}
    (h : lastList (answered env n reqs) = some items) : ∃ m, (env.reply m).sources = .ok items := by
  obtain ⟨s, hs, hi⟩ := Option.bind_eq_some_iff.1 h
  obtain ⟨m, hm⟩ := reply_mem_of_mem_answered (List.mem_of_getLast? hs)
  refine ⟨m, ?_⟩
  rw [← hm]
  cases hr : s.reply.sources <;> simp_all [Except.toOption]

theorem Probed.reply {env : TurnEnv} {n : Nat} {reqs : List Request} {items : Json}
    (h : Probed env n reqs (some items)) : ∃ m, (env.reply m).sources = .ok items :=
  lastList_answered (Option.filter_eq_some_iff.1 h.selected).1

/-- A request whose reply does not end the loop. -/
theorem Probed.cons {env : TurnEnv} {n : Nat} {reqs : List Request} {selected : Option Json}
    {src : Str} (h : Probed env (n + 1) reqs selected)
    (hq : ∀ items, (env.reply n).sources = .ok items → ¬ items.truthy) :
    Probed env n (.probe src :: reqs) selected where
  probes q hq := by
    rcases List.mem_cons.1 hq with rfl | hq
    exacts [rfl, h.probes q hq]
  selected := by
    rw [answered, lastList_cons]
    split
    · have hsel := h.selected
      rename_i hnil
      rw [hnil] at hsel
      rw [← hsel]
      cases hs : (env.reply n).sources with
      | error e => rfl
      | ok items => simpa [Except.toOption, lastList] using hq items hs
    · exact h.selected

theorem probed_last {env : TurnEnv} {n : Nat} {src : Str} {selected : Option Json}
    (h : (env.reply n).sources.toOption.filter Json.truthy = selected) :
    Probed env n [.probe src] selected :=
  ⟨by simp [Request.isProbe], by simpa [answered, lastList] using h⟩

/-- The error text of an enumeration that go2rtc refused. -/
def Sent.refusal (s : Sent) : Option Str :=
  match s.reply.sources with
  | .ok _ => none
  | .error e => if isUrlError e then some (errorText e) else none

/-- The error text of the last enumeration refused, or else `default`. -/
def lastRefusal (log : List Sent) (default : Str) : Str :=
  (log.filterMap Sent.refusal).getLast?.getD default

theorem lastRefusal_cons (s : Sent) (log : List Sent) (default : Str) :
    lastRefusal (s :: log) default = lastRefusal log (s.refusal.getD default) := by
  unfold lastRefusal
  cases hs : s.refusal with
  | none => rw [List.filterMap_cons_none hs]; rfl
  | some text => rw [List.filterMap_cons_some hs, List.getLast?_cons]; rfl

section Spec
variable [UnicodeData] {cfg : Config} {env : TurnEnv}

theorem probe_nil (endpoint lastError : Str) :
    probe env endpoint [] lastError = pure (none, lastError) := rfl

theorem probe_spec (endpoint : Str) (creds : List (Option Str × Option Str)) (err : Str) (t : Turn) :
    wp (probe env endpoint creds err)
      (fun r t' => ∃ reqs, t' = t.logged (answered env t.sent.length reqs) ∧
        Probed env t.sent.length reqs r.1 ∧
        (r.1 = none → r.2 = lastRefusal (answered env t.sent.length reqs) err))
      (fun _ t' => ∃ reqs, t' = t.logged (answered env t.sent.length reqs) ∧
        Probed env t.sent.length reqs none) t := by
  induction creds generalizing err t with
  | nil => exact ⟨[], by simp [answered], probed_nil _ _, fun _ => rfl⟩
  | cons cred creds ih =>
    obtain ⟨username, password⟩ := cred
    rw [probe, wp_bind, wp_liftExcept]
    refine ⟨fun candidate _ => ?_, fun e _ => ⟨[], by simp [answered], probed_nil _ _⟩⟩
    have hlen : (t.log env (.probe candidate)).sent.length = t.sent.length + 1 := by simp [Turn.log]
    have hlog : ∀ reqs, (t.log env (.probe candidate)).logged
        (answered env (t.log env (.probe candidate)).sent.length reqs) =
          t.logged (answered env t.sent.length (.probe candidate :: reqs)) := fun reqs => by
      rw [hlen]; simp [Turn.log, answered]
    -- the loop goes on after a refusal, and after an empty list
    have hnext : ∀ err', err' = (Sent.refusal ⟨.probe candidate, env.reply t.sent.length⟩).getD err →
        (∀ items, (env.reply t.sent.length).sources = .ok items → ¬ items.truthy) →
        wp (probe env endpoint creds err')
          (fun r t' => ∃ reqs, t' = t.logged (answered env t.sent.length reqs) ∧
            Probed env t.sent.length reqs r.1 ∧
            (r.1 = none → r.2 = lastRefusal (answered env t.sent.length reqs) err))
          (fun _ t' => ∃ reqs, t' = t.logged (answered env t.sent.length reqs) ∧
            Probed env t.sent.length reqs none) (t.log env (.probe candidate)) := by
      rintro err' rfl hq
      refine (ih _ _).mono ?_ ?_
      · rintro r t' ⟨reqs, ht, hr, he⟩
        rw [hlen] at hr he
        refine ⟨_, ht.trans (hlog reqs), hr.cons hq, fun hnone => ?_⟩
        rw [he hnone, answered, lastRefusal_cons]
      · rintro e t' ⟨reqs, ht, hr⟩
        rw [hlen] at hr
        exact ⟨_, ht.trans (hlog reqs), hr.cons hq⟩
    rw [wp_bind, wp_attempt, wp_requestSources]
    refine ⟨fun items hi => ?_, fun e he => ⟨fun hu => ?_, fun _ => ?_⟩⟩
    · have hitems : ∀ items', (env.reply t.sent.length).sources = .ok items' → items' = items :=
        fun items' h => by rw [hi] at h; cases h; rfl
      rw [wp_ite]
      refine ⟨fun ht => ⟨[.probe candidate], rfl, probed_last ?_, nofun⟩, fun ht =>
        hnext err (by simp [Sent.refusal, hi]) fun items' h => by rwa [hitems items' h]⟩
      simp [hi, Except.toOption, ht]
    · exact hnext _ (by simp [Sent.refusal, he, hu]) fun items h => by rw [he] at h; cases h
    · exact ⟨[.probe candidate], rfl, probed_last (by simp [he, Except.toOption])⟩

/-- The endpoint of a record made complete, without its credentials, and its host. -/
structure Resolved (c : Camera) (endpoint stripped address : Str) : Prop where
  ensure : ensureOnvifUrl c.target = .ok endpoint
  strip : stripCredentials endpoint = .ok stripped
  extract : extractAddress endpoint = .ok address

def Camera.addressed (c : Camera) (stripped address : Str) (now : Nat) : Camera :=
  { c with endpoint := some stripped }.withAddress address now

/-- Everything a refresh can do to a record: the exception if it raises, the record it leaves, and
the requests it sends. -/
inductive Refreshed (cfg : Config) (importStreams : Bool) (env : TurnEnv) (c : Camera) :
    Option PyError → Camera → List Request → Prop
  /-- The address is unusable. -/
  | unresolved {e} (h : ∀ endpoint stripped address, ¬ Resolved c endpoint stripped address) :
      Refreshed cfg importStreams env c (some e) c []
  /-- An enumeration raised, or its list is malformed. -/
  | interrupted {e endpoint stripped address probes selected}
      (h : Resolved c endpoint stripped address) (hp : Probed env 0 probes selected)
      (hs : ∀ items ∈ selected, ∃ e, profileStreams cfg.streamPrefix items = .error e) :
      Refreshed cfg importStreams env c (some e) (c.addressed stripped address env.refreshedAt) probes
  /-- No credentials gave a list. -/
  | unreachable {endpoint stripped address probes} (h : Resolved c endpoint stripped address)
      (hp : Probed env 0 probes none) :
      Refreshed cfg importStreams env c none ((c.addressed stripped address
        env.refreshedAt).unreachable (lastRefusal (answered env 0 probes) [])) probes
  /-- The streams were listed, and reconciling sent `sent`. -/
  | enumerated {e endpoint stripped address probes items streams snapshot sent}
      (h : Resolved c endpoint stripped address) (hp : Probed env 0 probes (some items))
      (hs : profileStreams cfg.streamPrefix items = .ok (streams, snapshot))
      (hsent : sent <+: if importStreams then
        reconcileRequests (recordedStreams c.streams) streams else [])
      (hok : e = none → (sent = if importStreams then
          reconcileRequests (recordedStreams c.streams) streams else []) ∧
        ∀ s ∈ answered env probes.length sent, s.reply.quiet) :
      Refreshed cfg importStreams env c e
        ((c.addressed stripped address env.refreshedAt).enumerated streams snapshot env.seenAt)
        (probes ++ sent)

theorem refreshCamera_spec (cfg : Config) (importStreams : Bool) (env : TurnEnv) (c : Camera) :
    wp (refreshCamera cfg importStreams env)
      (fun _ t' => ∃ reqs, t'.sent = answered env 0 reqs ∧
        Refreshed cfg importStreams env c none t'.camera reqs)
      (fun e t' => ∃ reqs, t'.sent = answered env 0 reqs ∧
        Refreshed cfg importStreams env c (some e) t'.camera reqs) ⟨c, []⟩ := by
  rw [refreshCamera, wp_bind, wp_get, wp_bind, wp_liftExcept]
  refine ⟨fun endpoint hen => ?_, fun e he => ⟨[], rfl, .unresolved fun a b d h => ?_⟩⟩
  swap
  · have := h.ensure
    rw [he] at this; cases this
  rw [wp_bind, wp_liftExcept]
  refine ⟨fun stripped hst => ?_, fun e he => ⟨[], rfl, .unresolved fun a b d h => ?_⟩⟩
  swap
  · have h1 := h.ensure
    have h2 := h.strip
    rw [hen] at h1; cases h1
    rw [he] at h2; cases h2
  obtain ⟨p, o, hp, -⟩ := stripCredentials_ok hst
  have hex := extractAddress_ok hp
  have hres : Resolved c endpoint stripped (p.hostname.getD endpoint) := ⟨hen, hst, hex⟩
  rw [wp_bind, wp_modifyCamera, wp_bind, wp_liftExcept]
  refine ⟨fun address ha => ?_, fun e he => by rw [hex] at he; cases he⟩
  rw [hex] at ha; cases ha
  rw [wp_bind, wp_modifyCamera, wp_bind]
  refine (probe_spec _ _ _ _).mono ?_ ?_
  · rintro ⟨_ | items, lastError⟩ _ ⟨reqs, rfl, hp, he⟩
    · obtain rfl := he rfl
      exact ⟨reqs, rfl, .unreachable hres hp⟩
    · rw [wp_bind, wp_liftExcept]
      refine ⟨fun ss hs => ?_, fun e he => ⟨reqs, rfl, .interrupted hres hp fun items' hi => ?_⟩⟩
      swap
      · cases hi; exact ⟨e, he⟩
      obtain ⟨streams, snapshot⟩ := ss
      rw [wp_bind, wp_modifyCamera]
      cases importStreams with
      | false =>
        refine ⟨reqs ++ [], by simp, .enumerated hres hp hs (by simp) fun _ => ⟨by simp, ?_⟩⟩
        simp [answered]
      | true =>
        refine (reconcile_spec _ _ _ _).mono ?_ ?_
        · rintro _ _ ⟨rfl, hq⟩
          simp only [Turn.sent_logged, List.nil_append, length_answered] at hq
          refine ⟨reqs ++ _, ?_, .enumerated hres hp hs (List.prefix_refl _) fun _ => ⟨rfl, hq⟩⟩
          simp [answered_append]
        · rintro _ _ ⟨pre, hpre, rfl⟩
          refine ⟨reqs ++ pre, ?_, .enumerated hres hp hs hpre nofun⟩
          simp [answered_append]
  · rintro e _ ⟨reqs, rfl, hp⟩
    exact ⟨reqs, rfl, .interrupted hres hp nofun⟩

/-- The record and the log that a refresh leaves. -/
def afterRefresh (cfg : Config) (importStreams : Bool) (env : TurnEnv) (c : Camera) : Turn :=
  outState (refreshCamera cfg importStreams env ⟨c, []⟩)

theorem refreshed_afterRefresh (cfg : Config) (importStreams : Bool) (env : TurnEnv) (c : Camera) :
    ∃ e reqs, (afterRefresh cfg importStreams env c).sent = answered env 0 reqs ∧
      Refreshed cfg importStreams env c e (afterRefresh cfg importStreams env c).camera reqs ∧
      (e = none ↔ returned (refreshCamera cfg importStreams env ⟨c, []⟩)) := by
  have h := refreshCamera_spec cfg importStreams env c
  unfold wp at h
  unfold afterRefresh outState returned
  split at h
  · obtain ⟨reqs, hs, hr⟩ := h
    exact ⟨none, reqs, hs, hr, by simp⟩
  · obtain ⟨reqs, hs, hr⟩ := h
    exact ⟨some _, reqs, hs, hr, by simp⟩

end Spec

end IpCamera
end OpenBmc
