import OpenBmc.Lib.Writes
import OpenBmc.IpCamera.Restart

/-!
# What go2rtc holds

A request that is carried out is a write to go2rtc's table. The work on one camera only writes names
that its record has before or after (`Touches`), and reconciling, when everything it sends is carried
out, leaves the new streams under their names and nothing else of the camera's (`run_reconcile`).
`leaves_body` reduces a fact about all ten operations to the parts they are made of.
-/

namespace OpenBmc
namespace IpCamera
open Py

/-! ### Requests as writes -/

/-- What the request writes when it is carried out. -/
def Request.write : Request → Option (Writes.Write Str Str)
  | .putStream name src => some (name.val, some src)
  | .deleteStream name => some (name.val, none)
  | .discover => none
  | .probe _ => none

def Sent.write (s : Sent) : Option (Writes.Write Str Str) :=
  if s.reply.carriedOut then s.request.write else none

def writes (log : List Sent) : List (Writes.Write Str Str) := log.filterMap Sent.write

theorem writes_append (log log' : List Sent) : writes (log ++ log') = writes log ++ writes log' :=
  List.filterMap_append

theorem Sent.effect_eq (s : Sent) (table : Go2rtc) :
    s.effect table = Writes.run table s.write.toList := by
  obtain ⟨request, reply⟩ := s
  unfold Sent.effect Sent.write
  cases reply.carriedOut with
  | false => rfl
  | true =>
    cases request with
    | putStream name src => funext n; simp [Request.write, Writes.run, Writes.put, Function.update_apply]
    | deleteStream name => funext n; simp [Request.write, Writes.run, Writes.put, Function.update_apply]
    | discover => rfl
    | probe src => rfl

theorem foldl_effect (log : List Sent) (table : Go2rtc) :
    log.foldl (fun table s => s.effect table) table = Writes.run table (writes log) := by
  induction log generalizing table with
  | nil => rfl
  | cons s log ih =>
    have hcons : writes (s :: log) = s.write.toList ++ writes log := by
      unfold writes
      cases hs : s.write <;> simp [hs]
    rw [List.foldl_cons, ih, hcons, Writes.run_append, Sent.effect_eq]

theorem World.go2rtc_commit (w : World) (slug : Slug) (t : Turn) :
    (w.commit slug t).go2rtc = Writes.run w.go2rtc (writes t.sent) := foldl_effect ..

/-- go2rtc did what every PUT and DELETE asked, and answered with JSON. -/
def Accepted (log : List Sent) : Prop :=
  ∀ s ∈ log, s.request.write ≠ none → s.reply.carriedOut ∧ s.reply.quiet

theorem Accepted.of_prefix {log log' : List Sent} (h : Accepted log') (hp : log <+: log') :
    Accepted log := fun s hs => h s (hp.subset hs)

theorem Accepted.writes {log : List Sent} (h : Accepted log) :
    writes log = (log.map Sent.request).filterMap Request.write := by
  rw [IpCamera.writes, List.filterMap_map]
  refine List.filterMap_congr fun s hs => ?_
  by_cases hw : s.request.write = none
  · simp [Sent.write, hw]
  · simp [Sent.write, (h s hs hw).1]

theorem map_request_answered (env : TurnEnv) : ∀ (n : Nat) (reqs : List Request),
    (answered env n reqs).map Sent.request = reqs
  | _, [] => rfl
  | n, r :: rs => by rw [answered, List.map_cons, map_request_answered env (n + 1) rs]

theorem mem_writes_answered {env : TurnEnv} {n : Nat} {reqs : List Request}
    {x : Writes.Write Str Str} (h : x ∈ writes (answered env n reqs)) :
    ∃ q ∈ reqs, q.write = some x := by
  obtain ⟨s, hs, hx⟩ := List.mem_filterMap.1 h
  refine ⟨s.request, request_mem_of_mem_answered hs, ?_⟩
  unfold Sent.write at hx
  split at hx
  · exact hx
  · cases hx

theorem write_of_isProbe {q : Request} (h : q.isProbe) : q.write = none := by
  cases q with
  | probe src => rfl
  | discover => rfl
  | putStream name src => cases h
  | deleteStream name => cases h

theorem writes_probes {env : TurnEnv} {n : Nat} {reqs : List Request} (h : ∀ q ∈ reqs, q.isProbe) :
    writes (answered env n reqs) = [] := by
  refine List.eq_nil_iff_forall_not_mem.2 fun x hx => ?_
  obtain ⟨q, hq, hw⟩ := mem_writes_answered hx
  rw [write_of_isProbe (h q hq)] at hw
  cases hw

/-! ### The names of a record -/

/-- A stream of the record has this name in go2rtc. -/
def Camera.names (c : Camera) (n : Str) : Prop := ∃ r ∈ c.streams.values, r.streamName.val = n

/-- A stream of the record has this name and this source. -/
def Camera.records (c : Camera) (n src : Str) : Prop :=
  ∃ r ∈ c.streams.values, r.streamName.val = n ∧ r.streamUrl = src

theorem Camera.records.names {c : Camera} {n src : Str} (h : c.records n src) : c.names n := by
  obtain ⟨r, hr, hn, -⟩ := h
  exact ⟨r, hr, hn⟩

theorem mem_recordedStreams {streams : Dict Slug StreamRec} {k : Slug} :
    k ∈ recordedStreams streams ↔ ∃ r ∈ streams.values, r.streamName = k := by
  simp [recordedStreams, Dict.mem_ofList]

theorem Camera.names_iff {c : Camera} {k : Slug} :
    c.names k.val ↔ k ∈ recordedStreams c.streams := by
  simp only [mem_recordedStreams, Camera.names, Slug.ext_iff]

theorem Camera.records_of_get? {c : Camera} {k : Slug} {src : Str}
    (h : (recordedStreams c.streams).get? k = some src) : c.records k.val src := by
  obtain ⟨r, hr, he⟩ := List.mem_map.1 (Dict.mem_of_get?_ofList h)
  exact ⟨r, hr, congrArg Slug.val (Prod.mk.inj he).1, (Prod.mk.inj he).2⟩

theorem Camera.names.slug {c : Camera} {n : Str} (h : c.names n) : ∃ k : Slug, k.val = n := by
  obtain ⟨r, -, rfl⟩ := h
  exact ⟨r.streamName, rfl⟩

/-- Streams that differ only in their order have the same names. -/
theorem Camera.records_congr {c c' : Camera} (h : ∀ s, c'.streams.get? s = c.streams.get? s)
    {n src : Str} : c'.records n src ↔ c.records n src := by
  simp only [Camera.records, Dict.mem_values_iff, h]

theorem Camera.names_congr {c c' : Camera} (h : ∀ s, c'.streams.get? s = c.streams.get? s)
    {n : Str} : c'.names n ↔ c.names n := by
  simp only [Camera.names, Dict.mem_values_iff, h]

/-! ### Reconciling -/

theorem writes_reconcileRequests (previous : Dict Slug Str) (newStreams : Dict Slug StreamRec) :
    (reconcileRequests previous newStreams).filterMap Request.write =
      (((staleNames previous (recordedStreams newStreams)).map Slug.val).map fun n => (n, none)) ++
        ((recordedStreams newStreams).entries.map fun e => (e.1.val, e.2)).map
          fun e => (e.1, some e.2) := by
  rw [reconcileRequests, List.filterMap_append, List.filterMap_map, List.filterMap_map,
    List.map_map, List.map_map]
  have hmap : ∀ {α β : Type} (f : α → β) (l : List α), l.filterMap (some ∘ f) = l.map f :=
    fun f l => congrFun List.filterMap_eq_map l
  exact congrArg₂ (· ++ ·) (hmap _ _) (hmap _ _)

theorem mem_staleNames {previous desired : Dict Slug Str} {k : Slug} :
    k ∈ staleNames previous desired ↔ k ∈ previous ∧ k ∉ desired := by
  rw [staleNames, List.mem_insertionSort, List.mem_filter, ← Dict.mem_iff_mem_keys]
  simp

/-- The new streams are there, the names given up are gone, and the rest is as it was. -/
theorem run_reconcile (table : Go2rtc) (previous : Dict Slug Str) (newStreams : Dict Slug StreamRec)
    (k : Slug) :
    Writes.run table ((reconcileRequests previous newStreams).filterMap Request.write) k.val =
      ((recordedStreams newStreams).get? k).or (if k ∈ previous then none else table k.val) := by
  have hnodup : (((recordedStreams newStreams).entries.map fun e => (e.1.val, e.2)).map
      Prod.fst).Nodup := by
    have h := (recordedStreams newStreams).keys_nodup.map Slug.val_injective
    simpa [Dict.keys, List.map_map, Function.comp_def] using h
  have hstale : k.val ∈ (staleNames previous (recordedStreams newStreams)).map Slug.val ↔
      k ∈ previous ∧ k ∉ recordedStreams newStreams := by
    rw [List.mem_map_of_injective Slug.val_injective, mem_staleNames]
  rw [writes_reconcileRequests, Writes.run_eq, Writes.last_append]
  cases hk : (recordedStreams newStreams).get? k with
  | some url =>
    have hm : (k.val, url) ∈ (recordedStreams newStreams).entries.map fun e => (e.1.val, e.2) :=
      List.mem_map.2 ⟨(k, url), Dict.get?_eq_some_iff.1 hk, rfl⟩
    rw [Writes.last_sets hnodup hm]
    rfl
  | none =>
    have hd : k ∉ recordedStreams newStreams := Dict.get?_eq_none_iff.1 hk
    have hputs : Writes.last (((recordedStreams newStreams).entries.map fun e => (e.1.val, e.2)).map
        fun e => ((e.1, some e.2) : Writes.Write Str Str)) k.val = none := by
      rw [Writes.last_eq_none_iff, List.map_map, List.map_map]
      rintro hm
      obtain ⟨e, he, hek⟩ := List.mem_map.1 hm
      have hek : e.1 = k := Slug.ext hek
      exact hd (hek ▸ Dict.mem_keys_of_mem_entries he)
    rw [hputs, Option.none_or, Option.none_or, Writes.last_drops]
    by_cases hp : k ∈ previous
    · rw [if_pos (hstale.2 ⟨hp, hd⟩), if_pos hp]
      rfl
    · rw [if_neg (fun h => hp (hstale.1 h).1), if_neg hp]
      rfl

theorem reconcileRequests_write {previous : Dict Slug Str} {newStreams : Dict Slug StreamRec}
    {q : Request} {x : Writes.Write Str Str} (hq : q ∈ reconcileRequests previous newStreams)
    (hx : q.write = some x) :
    ∃ k : Slug, x.1 = k.val ∧ (k ∈ previous ∨ k ∈ recordedStreams newStreams) := by
  rcases List.mem_append.1 hq with hq | hq
  · obtain ⟨k, hk, rfl⟩ := List.mem_map.1 hq
    cases hx
    exact ⟨k, rfl, .inl (mem_staleNames.1 hk).1⟩
  · obtain ⟨e, he, rfl⟩ := List.mem_map.1 hq
    cases hx
    exact ⟨e.1, rfl, .inr (Dict.mem_keys_of_mem_entries he)⟩

theorem write_ne_none_of_reconcileRequests {previous : Dict Slug Str}
    {newStreams : Dict Slug StreamRec} {q : Request} (hq : q ∈ reconcileRequests previous newStreams) :
    q.write ≠ none := by
  rcases List.mem_append.1 hq with hq | hq
  · obtain ⟨k, -, rfl⟩ := List.mem_map.1 hq
    exact Option.some_ne_none _
  · obtain ⟨e, -, rfl⟩ := List.mem_map.1 hq
    exact Option.some_ne_none _

/-! ### The work on one camera -/

/-- One of the requests about the camera's streams has a reply that is worse than a refusal. -/
def Broken (log : List Sent) : Prop := ∃ s ∈ log, s.request.write ≠ none ∧ ¬ s.reply.quiet

theorem Broken.not_accepted {log : List Sent} (h : Broken log) : ¬ Accepted log := fun ha => by
  obtain ⟨s, hs, hw, hq⟩ := h
  exact hq (ha s hs hw).2

theorem sendAll_broken (env : TurnEnv) {reqs : List Request} (h : ∀ q ∈ reqs, q.write ≠ none)
    (t : Turn) : wp (sendAll env reqs) (fun _ _ => True) (fun _ t' => Broken t'.sent) t := by
  refine (sendAll_spec env reqs t).mono (fun _ _ _ => trivial) ?_
  rintro _ _ ⟨pre, hpre, rfl, s, hs, hq⟩
  refine ⟨s, List.mem_append_right _ hs, h _ ?_, hq⟩
  exact hpre.subset (request_mem_of_mem_answered hs)

theorem reconcile_broken (env : TurnEnv) (previous : Dict Slug Str)
    (newStreams : Dict Slug StreamRec) (t : Turn) :
    wp (reconcileGo2rtcStreams env previous newStreams) (fun _ _ => True)
      (fun _ t' => Broken t'.sent) t := by
  have hreq : ∀ q ∈ reconcileRequests previous newStreams, q.write ≠ none :=
    fun q hq => write_ne_none_of_reconcileRequests hq
  rw [reconcileGo2rtcStreams, wp_bind]
  refine (sendAll_broken env (fun q hq => hreq q (List.mem_append_left _ hq)) t).mono ?_
    fun _ _ h => h
  exact fun _ t' _ => sendAll_broken env (fun q hq => hreq q (List.mem_append_right _ hq)) t'

/-- The record and the log that a turn leaves, from a record `c`: every name it writes is one of the
record's, before or after. -/
def Touches (c : Camera) (t : Turn) : Prop :=
  ∀ x ∈ writes t.sent, c.names x.1 ∨ t.camera.names x.1

/-- What go2rtc shows after the turn is recorded, or was shown before and was not recorded. -/
def Settles (c : Camera) (t : Turn) : Prop :=
  ∀ table n src, Writes.run table (writes t.sent) n = some src →
    t.camera.records n src ∨ table n = some src ∧ ¬ c.records n src

theorem settles_of_no_writes {c : Camera} {t : Turn} (hw : writes t.sent = [])
    (hs : t.camera.streams = c.streams) : Settles c t := by
  intro table n src hn
  rw [hw, Writes.run_nil] at hn
  by_cases h : c.records n src
  · exact .inl ((Camera.records_congr fun s => by rw [hs]).2 h)
  · exact .inr ⟨hn, h⟩

/-- The requests that delete the camera's streams. -/
def Camera.deletes (c : Camera) : List Request :=
  c.streams.values.map fun r => .deleteStream r.streamName

section Work
variable [UnicodeData] {cfg : Config} {env : TurnEnv} {c : Camera}

theorem refreshCamera_broken (cfg : Config) (imports : Bool) (env : TurnEnv) (c : Camera) :
    wp (refreshCamera cfg imports env) (fun _ _ => True)
      (fun _ t => writes t.sent = [] ∧ t.camera.streams = c.streams ∨ Broken t.sent) ⟨c, []⟩ := by
  rw [refreshCamera, wp_bind, wp_get, wp_bind, wp_liftExcept]
  refine ⟨fun endpoint _ => ?_, fun _ _ => .inl ⟨rfl, rfl⟩⟩
  rw [wp_bind, wp_liftExcept]
  refine ⟨fun stripped _ => ?_, fun _ _ => .inl ⟨rfl, rfl⟩⟩
  rw [wp_bind, wp_modifyCamera, wp_bind, wp_liftExcept]
  refine ⟨fun address _ => ?_, fun _ _ => .inl ⟨rfl, rfl⟩⟩
  rw [wp_bind, wp_modifyCamera, wp_bind]
  refine (probe_spec _ _ _ _).mono ?_ ?_
  · rintro ⟨_ | items, lastError⟩ _ ⟨reqs, rfl, hp, -⟩
    · trivial
    · rw [wp_bind, wp_liftExcept]
      refine ⟨fun ss _ => ?_, fun e _ => .inl ⟨writes_probes hp.probes, rfl⟩⟩
      rw [wp_bind, wp_modifyCamera]
      cases imports with
      | false => trivial
      | true => exact (reconcile_broken _ _ _ _).mono (fun _ _ _ => trivial) fun _ _ h => .inr h
  · rintro e _ ⟨reqs, rfl, hp⟩
    exact .inl ⟨writes_probes hp.probes, rfl⟩

theorem touches_afterRefresh (cfg : Config) (imports : Bool) (env : TurnEnv) (c : Camera) :
    Touches c (afterRefresh cfg imports env c) := by
  obtain ⟨e, reqs, hsent, h, -⟩ := refreshed_afterRefresh cfg imports env c
  unfold Touches
  rw [hsent]
  generalize (afterRefresh cfg imports env c).camera = c' at h
  cases h with
  | unresolved => exact fun x hx => by cases hx
  | interrupted _ hp => rw [writes_probes hp.probes]; exact fun x hx => by cases hx
  | unreachable _ hp => rw [writes_probes hp.probes]; exact fun x hx => by cases hx
  | @enumerated _ _ _ _ probes items streams snapshot sent _ hp hs hpre =>
    intro x hx
    obtain ⟨q, hq, hw⟩ := mem_writes_answered hx
    rcases List.mem_append.1 hq with hq | hq
    · rw [write_of_isProbe (hp.probes q hq)] at hw
      cases hw
    · have hq := hpre.subset hq
      split at hq
      · obtain ⟨k, hk, h⟩ := reconcileRequests_write hq hw
        rw [hk]
        exact h.imp Camera.names_iff.2 fun h => Camera.names_iff.2 h
      · cases hq

omit [UnicodeData] in
/-- After a reconciliation that go2rtc accepted, what it shows of the camera is what is recorded. -/
theorem settles_reconcile (previous : Dict Slug Str) {c : Camera} {t : Turn}
    (hp : ∀ k, c.names k.val → k ∈ previous ∨ k ∈ recordedStreams t.camera.streams)
    (hw : writes t.sent =
      (reconcileRequests previous t.camera.streams).filterMap Request.write) : Settles c t := by
  intro table n src hn
  rw [hw] at hn
  by_cases hslug : ∃ k : Slug, k.val = n
  · obtain ⟨k, rfl⟩ := hslug
    rw [run_reconcile] at hn
    cases hk : (recordedStreams t.camera.streams).get? k with
    | some url =>
      rw [hk, Option.some_or, Option.some.injEq] at hn
      subst hn
      exact .inl (Camera.records_of_get? hk)
    | none =>
      rw [hk, Option.none_or] at hn
      split at hn
      · cases hn
      · refine .inr ⟨hn, fun hr => ?_⟩
        exact (hp k hr.names).elim ‹_› (Dict.get?_eq_none_iff.1 hk)
  · rw [Writes.run_of_not_mem] at hn
    · exact .inr ⟨hn, fun hr => hslug hr.names.slug⟩
    · intro hm
      obtain ⟨x, hx, rfl⟩ := List.mem_map.1 hm
      obtain ⟨q, hq, hqx⟩ := List.mem_filterMap.1 hx
      obtain ⟨k, hk, -⟩ := reconcileRequests_write hq hqx
      exact hslug ⟨k, hk.symm⟩

theorem settles_afterRefresh (h : Accepted (afterRefresh cfg true env c).sent) :
    Settles c (afterRefresh cfg true env c) := by
  have hb := refreshCamera_broken cfg true env c
  obtain ⟨e, reqs, hsent, hr, hret⟩ := refreshed_afterRefresh cfg true env c
  cases e with
  | some e =>
    have hnot : ¬ returned (refreshCamera cfg true env ⟨c, []⟩) := fun h => by simpa using hret.2 h
    cases hm : refreshCamera cfg true env ⟨c, []⟩ with
    | ok _ t => simp [hm, returned] at hnot
    | error _ t =>
      have ht : afterRefresh cfg true env c = t := by simp [afterRefresh, hm, outState]
      rcases hb.of_error hm with ⟨hw, hs⟩ | hbroken
      · rw [ht]; exact settles_of_no_writes hw hs
      · exact absurd h (ht ▸ hbroken.not_accepted)
  | none =>
    have hcam : ∃ c', (afterRefresh cfg true env c).camera = c' := ⟨_, rfl⟩
    obtain ⟨c', hc'⟩ := hcam
    rw [hc'] at hr
    cases hr with
    | unreachable _ hp =>
      refine settles_of_no_writes ?_ (by rw [hc']; rfl)
      rw [hsent]
      exact writes_probes hp.probes
    | @enumerated _ _ _ _ probes items streams snapshot sent _ hp hs _ hok =>
      have hfull := (hok rfl).1
      rw [if_pos rfl] at hfull
      refine settles_reconcile (recordedStreams c.streams)
        (fun k hk => .inl (Camera.names_iff.1 hk)) ?_
      rw [h.writes, hsent, map_request_answered, List.filterMap_append, hc', hfull]
      have hnone : probes.filterMap Request.write = [] := by
        refine List.filterMap_eq_nil_iff.2 fun q hq => write_of_isProbe (hp.probes q hq)
      rw [hnone, List.nil_append]
      rfl

omit [UnicodeData] in
theorem deletes_write {x : Writes.Write Str Str} {q : Request} (hq : q ∈ c.deletes)
    (hx : q.write = some x) : c.names x.1 ∧ x.2 = none := by
  obtain ⟨r, hr, rfl⟩ := List.mem_map.1 hq
  cases hx
  exact ⟨⟨r, hr, rfl⟩, rfl⟩

omit [UnicodeData] in
theorem run_deletes (c : Camera) (table : Go2rtc) (n : Str) [Decidable (c.names n)] :
    Writes.run table (c.deletes.filterMap Request.write) n = if c.names n then none else table n := by
  split
  · rename_i hn
    rw [Writes.run_eq]
    rcases hl : Writes.last (c.deletes.filterMap Request.write) n with _ | v
    · obtain ⟨r, hr, rfl⟩ := hn
      refine absurd ?_ (Writes.last_eq_none_iff.1 hl)
      exact List.mem_map.2 ⟨(r.streamName.val, none), List.mem_filterMap.2
        ⟨_, List.mem_map.2 ⟨r, hr, rfl⟩, rfl⟩, rfl⟩
    · obtain ⟨q, hq, hqx⟩ := List.mem_filterMap.1 (Writes.mem_of_last hl)
      exact (deletes_write hq hqx).2
  · rename_i hn
    refine Writes.run_of_not_mem fun hm => hn ?_
    obtain ⟨x, hx, rfl⟩ := List.mem_map.1 hm
    obtain ⟨q, hq, hqx⟩ := List.mem_filterMap.1 hx
    exact (deletes_write hq hqx).1

omit [UnicodeData] in
/-- The loop that deletes a camera's streams: the record stays, only its names are written, and they
are all deleted if go2rtc accepts it. -/
theorem deleteLoop_spec (env : TurnEnv) (c : Camera) :
    wp (deleteLoop env)
      (fun _ t => t.camera = c ∧ Touches c t ∧
        (Accepted t.sent → writes t.sent = c.deletes.filterMap Request.write))
      (fun _ t => t.camera = c ∧ Touches c t ∧ Broken t.sent) ⟨c, []⟩ := by
  have hreq : ∀ q ∈ c.deletes, q.write ≠ none := fun q hq => by
    obtain ⟨r, -, rfl⟩ := List.mem_map.1 hq
    exact Option.some_ne_none _
  have htouch : ∀ {reqs : List Request} {c' : Camera}, reqs <+: c.deletes →
      Touches c ⟨c', answered env 0 reqs⟩ := fun {reqs c'} hpre x hx => by
    obtain ⟨q, hq, hw⟩ := mem_writes_answered hx
    exact .inl (deletes_write (hpre.subset hq) hw).1
  rw [deleteLoop, wp_bind, wp_get]
  refine ((sendAll_spec env c.deletes ⟨c, []⟩).and (sendAll_broken env hreq ⟨c, []⟩)).mono ?_ ?_
  · rintro _ _ ⟨⟨rfl, -⟩, -⟩
    refine ⟨rfl, htouch (List.prefix_refl _), fun ha => ?_⟩
    rw [ha.writes, Turn.sent_logged, List.nil_append, map_request_answered]
  · rintro _ _ ⟨⟨pre, hpre, rfl, -⟩, hb⟩
    exact ⟨rfl, htouch hpre, hb⟩

/-- A request about one recorded stream. -/
def streamWork (env : TurnEnv) (streamSlug : Slug) (r : StreamRec → Request) : TurnM Unit := do
  match (← get).camera.streams.get? streamSlug with
  | none => throw (.valueError "unknown stream")
  | some stream => do
    let _ ← requestJson env (r stream)

/-- The work that an operation does on one camera; `imports` tells which refreshes reconcile. -/
inductive Work (cfg : Config) (env : TurnEnv) (imports : Bool → Prop) : TurnM Unit → Prop
  | refresh {b : Bool} (h : imports b) : Work cfg env imports (refreshCamera cfg b env)
  | importing : Work cfg env imports
      (do reconcileGo2rtcStreams env Dict.empty (← get).camera.streams)
  | deleting : Work cfg env imports (deleteLoop env)
  | putting (streamSlug : Slug) : Work cfg env imports
      (streamWork env streamSlug fun stream => .putStream stream.streamName stream.streamUrl)
  | removing (streamSlug : Slug) : Work cfg env imports
      (streamWork env streamSlug fun stream => .deleteStream stream.streamName)

omit [UnicodeData] in
theorem streamWork_spec (env : TurnEnv) (c : Camera) (streamSlug : Slug) (r : StreamRec → Request) :
    wp (streamWork env streamSlug r)
      (fun _ t => t.camera = c ∧ ∃ stream, c.streams.get? streamSlug = some stream ∧
        t.sent = answered env 0 [r stream])
      (fun _ t => t.camera = c ∧ (t.sent = [] ∨ ∃ stream, c.streams.get? streamSlug = some stream ∧
        t.sent = answered env 0 [r stream])) ⟨c, []⟩ := by
  rw [streamWork, wp_bind, wp_get]
  cases hs : c.streams.get? streamSlug with
  | none => exact ⟨rfl, .inl rfl⟩
  | some stream =>
    simp only
    rw [wp_bind, wp_requestJson]
    exact ⟨fun _ _ => ⟨rfl, stream, rfl, rfl⟩, fun _ _ => ⟨rfl, .inr ⟨stream, rfl, rfl⟩⟩⟩

omit [UnicodeData] in
/-- A request about a recorded stream writes its name, with its source or none. -/
theorem writes_single (env : TurnEnv) {q : Request} {x : Writes.Write Str Str} (hq : q.write = some x) :
    writes (answered env 0 [q]) = [] ∨ writes (answered env 0 [q]) = [x] := by
  by_cases hc : (env.reply 0).carriedOut
  · exact .inr (by simp [writes, answered, Sent.write, hc, hq])
  · exact .inl (by simp [writes, answered, Sent.write, hc])

omit [UnicodeData] in
theorem streamWork_settles (env : TurnEnv) (c : Camera) (streamSlug : Slug) {r : StreamRec → Request}
    (hr : ∀ stream, ∃ x, (r stream).write = some x ∧ x.1 = stream.streamName.val ∧
      (x.2 = none ∨ x.2 = some stream.streamUrl)) :
    wp (streamWork env streamSlug r) (fun _ t => t.camera = c ∧ Touches c t ∧ Settles c t)
      (fun _ t => t.camera = c ∧ Touches c t ∧ Settles c t) ⟨c, []⟩ := by
  have hnone : ∀ t : Turn, t.camera = c → writes t.sent = [] → Touches c t ∧ Settles c t :=
    fun t hc hw => by
      refine ⟨fun x hx => ?_, settles_of_no_writes hw (by rw [hc])⟩
      rw [hw] at hx
      cases hx
  have hone : ∀ (t : Turn) stream, t.camera = c → c.streams.get? streamSlug = some stream →
      t.sent = answered env 0 [r stream] → Touches c t ∧ Settles c t := fun t stream hc hs ht => by
    obtain ⟨⟨n, v⟩, hx, hn, hv⟩ := hr stream
    simp only at hn hv
    have hm := Dict.mem_values_of_get? hs
    rcases writes_single env hx with hw | hw
    · exact hnone t hc (ht ▸ hw)
    · rw [← ht] at hw
      constructor
      · intro x hx
        rw [hw, List.mem_singleton] at hx
        exact .inl ⟨stream, hm, by rw [hx, hn]⟩
      · intro table n' src hrun
        rw [hw] at hrun
        by_cases hnn : n' = n
        · subst hnn
          have hv' : v = some src := by simpa [Writes.run, Writes.put] using hrun
          rcases hv with hv | hv
          · rw [hv] at hv'; cases hv'
          · rw [hv] at hv'
            cases hv'
            rw [hc]
            exact .inl ⟨stream, hm, hn.symm, rfl⟩
        · rw [Writes.run_of_not_mem (by simpa using hnn)] at hrun
          by_cases hrec : c.records n' src
          · exact .inl (hc ▸ hrec)
          · exact .inr ⟨hrun, hrec⟩
  refine (streamWork_spec env c streamSlug r).mono ?_ ?_
  · rintro _ t ⟨hc, stream, hs, ht⟩
    exact ⟨hc, hone t stream hc hs ht⟩
  · rintro _ t ⟨hc, ht | ⟨stream, hs, ht⟩⟩
    · exact ⟨hc, hnone t hc (by rw [ht]; rfl)⟩
    · exact ⟨hc, hone t stream hc hs ht⟩

omit [UnicodeData] in
/-- Importing the recorded streams. -/
theorem importing_spec (env : TurnEnv) (c : Camera) :
    wp (do reconcileGo2rtcStreams env Dict.empty (← get).camera.streams)
      (fun _ t => t.camera = c ∧ Touches c t ∧ (Accepted t.sent → Settles c t))
      (fun _ t => t.camera = c ∧ Touches c t ∧ (Accepted t.sent → Settles c t)) ⟨c, []⟩ := by
  have htouch : ∀ {pre : List Request}, pre <+: reconcileRequests Dict.empty c.streams →
      Touches c ⟨c, answered env 0 pre⟩ := fun hpre x hx => by
    obtain ⟨q, hq, hw⟩ := mem_writes_answered hx
    obtain ⟨k, hk, h | h⟩ := reconcileRequests_write (hpre.subset hq) hw
    · exact absurd h (by simp [Dict.mem_iff_mem_keys])
    · exact .inl (hk ▸ Camera.names_iff.2 h)
  rw [wp_bind, wp_get]
  refine ((reconcile_spec env Dict.empty c.streams ⟨c, []⟩).and
    (reconcile_broken env Dict.empty c.streams ⟨c, []⟩)).mono ?_ ?_
  · rintro _ _ ⟨⟨rfl, -⟩, -⟩
    refine ⟨rfl, htouch (List.prefix_refl _), fun ha => settles_reconcile Dict.empty
      (fun k hk => .inr (Camera.names_iff.1 hk)) ?_⟩
    rw [ha.writes, Turn.sent_logged, List.nil_append, map_request_answered]
    rfl
  · rintro _ _ ⟨⟨pre, hpre, rfl⟩, hb⟩
    exact ⟨rfl, htouch hpre, fun ha => absurd ha hb.not_accepted⟩

/-- The names that the service gives to streams. -/
def Prefixed (cfg : Config) (n : Str) : Prop := (prefixSlug cfg.streamPrefix).val ++ ['_'] <+: n

theorem names_afterRefresh (cfg : Config) (imports : Bool) (env : TurnEnv) (c : Camera) {n : Str}
    (hn : (afterRefresh cfg imports env c).camera.names n) : c.names n ∨ Prefixed cfg n := by
  obtain ⟨e, reqs, -, h, -⟩ := refreshed_afterRefresh cfg imports env c
  generalize (afterRefresh cfg imports env c).camera = c' at h hn
  cases h with
  | unresolved => exact .inl hn
  | interrupted => exact .inl hn
  | unreachable => exact .inl hn
  | enumerated _ hp hs =>
    obtain ⟨r, hr, rfl⟩ := hn
    obtain ⟨s, hr⟩ := Dict.mem_values_iff.1 hr
    obtain ⟨l, hl, -⟩ := profileStreams_ok hs
    obtain ⟨x, -, -, rfl⟩ := mem_profileStreams hs hl hr
    refine .inr ⟨x.slug.val, ?_⟩
    rw [List.append_assoc]
    exact (x.streamName_val cfg.streamPrefix).symm

/-- What a turn may do: it writes only names of its record, which begin with the prefix or are not
new; and, unless it refreshes without reconciling, what go2rtc shows after accepting it is recorded. -/
structure Worked (cfg : Config) (imports : Bool → Prop) (c : Camera) (t : Turn) : Prop where
  touches : Touches c t
  names : ∀ n, t.camera.names n → c.names n ∨ Prefixed cfg n
  settles : ¬ imports false → Accepted t.sent → Settles c t

theorem Worked.same {imports : Bool → Prop} {t : Turn} (hc : t.camera = c) (ht : Touches c t)
    (hs : Accepted t.sent → Settles c t) : Worked cfg imports c t where
  touches := ht
  names _ hn := .inl (hc ▸ hn)
  settles _ := hs

theorem Work.spec {imports : Bool → Prop} {m : TurnM Unit} (h : Work cfg env imports m) (c : Camera) :
    wp m (fun _ => Worked cfg imports c) (fun _ => Worked cfg imports c) ⟨c, []⟩ := by
  cases h with
  | @refresh b hb =>
    refine wp_of_outState (P := Worked cfg imports c)
      ⟨touches_afterRefresh cfg b env c, fun _ => names_afterRefresh cfg b env c, fun hf ha => ?_⟩
    cases b with
    | false => exact absurd hb hf
    | true => exact settles_afterRefresh ha
  | importing =>
    exact (importing_spec env c).mono (fun _ _ h => .same h.1 h.2.1 h.2.2) fun _ _ h => .same h.1 h.2.1 h.2.2
  | deleting =>
    classical
    refine (deleteLoop_spec env c).mono ?_ ?_
    · rintro _ t ⟨hc, ht, hw⟩
      refine .same hc ht fun ha table n src hn => ?_
      rw [hw ha, run_deletes] at hn
      split at hn
      · cases hn
      · exact .inr ⟨hn, fun hr => ‹¬ c.names n› hr.names⟩
    · rintro _ t ⟨hc, ht, hb⟩
      exact .same hc ht fun ha => absurd ha hb.not_accepted
  | putting streamSlug =>
    have hspec := streamWork_settles env c streamSlug (r := fun stream =>
      .putStream stream.streamName stream.streamUrl) fun stream => ⟨_, rfl, rfl, .inr rfl⟩
    exact hspec.mono (fun _ _ h => .same h.1 h.2.1 fun _ => h.2.2) fun _ _ h => .same h.1 h.2.1 fun _ => h.2.2
  | removing streamSlug =>
    have hspec := streamWork_settles env c streamSlug (r := fun stream =>
      .deleteStream stream.streamName) fun stream => ⟨_, rfl, rfl, .inl rfl⟩
    exact hspec.mono (fun _ _ h => .same h.1 h.2.1 fun _ => h.2.2) fun _ _ h => .same h.1 h.2.1 fun _ => h.2.2

end Work

end IpCamera
end OpenBmc
