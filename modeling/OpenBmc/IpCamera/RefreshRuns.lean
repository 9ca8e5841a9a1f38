import OpenBmc.IpCamera.StreamRuns

/-!
# Refreshing all cameras

The loop of `refresh_all` does for each camera in turn what a refresh of that camera alone does, until
one raises (`refreshAll_in_order`). When none raises, every list is there and go2rtc accepts all it is
sent, go2rtc shows exactly the recorded streams (`refreshAll_converges`).
-/

namespace OpenBmc
namespace IpCamera
open Py

section RefreshAll
variable [UnicodeData] {cfg : Config} {env : Env} {imports : Bool} {w : World}

/-- The state after the refresh of one camera, returned or raised. -/
def World.refreshed (cfg : Config) (env : Env) (imports : Bool) (w : World) (slug : Slug) : World :=
  match w.cameras.get? slug with
  | none => w
  | some c => w.commit slug (afterRefresh cfg imports (env.turn slug) c)

def World.refreshedAll (cfg : Config) (env : Env) (imports : Bool) (w : World) (l : List Slug) : World :=
  l.foldl (World.refreshed cfg env imports) w

/-- The refresh of the camera's record does not raise. -/
def Fine (cfg : Config) (env : Env) (imports : Bool) (w : World) (slug : Slug) : Prop :=
  ∀ c, w.cameras.get? slug = some c → returned (refreshCamera cfg imports (env.turn slug) ⟨c, []⟩)

/-- The record that a refresh of the camera alone leaves. -/
def refreshedRecord (cfg : Config) (env : Env) (imports : Bool) (slug : Slug) (c : Camera) : Camera :=
  (afterRefresh cfg imports (env.turn slug) c).camera

/-- The requests that a refresh of the camera alone sends. -/
def refreshLog (cfg : Config) (env : Env) (imports : Bool) (w : World) (slug : Slug) : List Sent :=
  ((w.cameras.get? slug).map fun c => (afterRefresh cfg imports (env.turn slug) c).sent).getD []

theorem refreshed_of_none {slug : Slug} (h : w.cameras.get? slug = none) :
    w.refreshed cfg env imports slug = w := by
  simp only [World.refreshed, h]

theorem refreshed_of_some {slug : Slug} {c : Camera} (h : w.cameras.get? slug = some c) :
    w.refreshed cfg env imports slug = w.commit slug (afterRefresh cfg imports (env.turn slug) c) := by
  simp only [World.refreshed, h]

theorem get?_refreshed (w : World) (slug k : Slug) :
    (w.refreshed cfg env imports slug).cameras.get? k =
      if k = slug then (w.cameras.get? k).map (refreshedRecord cfg env imports k)
      else w.cameras.get? k := by
  cases hc : w.cameras.get? slug with
  | none =>
    rw [refreshed_of_none hc]
    split
    · subst_vars; rw [hc]; rfl
    · rfl
  | some c =>
    simp only [refreshed_of_some hc, World.commit, Dict.get?_set]
    split
    · subst_vars; rw [hc]; rfl
    · rfl

theorem sent_refreshed (w : World) (slug : Slug) :
    (w.refreshed cfg env imports slug).sent = w.sent ++ refreshLog cfg env imports w slug := by
  unfold refreshLog
  cases hc : w.cameras.get? slug with
  | none => simp [refreshed_of_none hc]
  | some c => simp [refreshed_of_some hc, World.commit]

theorem go2rtc_refreshed (w : World) (slug : Slug) :
    (w.refreshed cfg env imports slug).go2rtc =
      Writes.run w.go2rtc (writes (refreshLog cfg env imports w slug)) := by
  unfold refreshLog
  cases hc : w.cameras.get? slug with
  | none => rw [refreshed_of_none hc]; rfl
  | some c => rw [refreshed_of_some hc]; exact World.go2rtc_commit ..

theorem keys_refreshed (w : World) (slug : Slug) :
    (w.refreshed cfg env imports slug).cameras.keys = w.cameras.keys := by
  cases hc : w.cameras.get? slug with
  | none => rw [refreshed_of_none hc]
  | some c => rw [refreshed_of_some hc]; exact Dict.keys_set_of_mem (Dict.mem_of_get? hc) _

/-- The loop publishes nothing and writes nothing to the state file. -/
structure Unpublished (w w' : World) : Prop where
  objects : w'.objects = w.objects
  bus : w'.bus = w.bus
  manager : w'.manager = w.manager
  file : w'.file = w.file

theorem unpublished_refreshedAll (cfg : Config) (env : Env) (imports : Bool) (l : List Slug) (w : World) :
    Unpublished w (w.refreshedAll cfg env imports l) := by
  induction l generalizing w with
  | nil => exact ⟨rfl, rfl, rfl, rfl⟩
  | cons slug l ih =>
    obtain ⟨h1, h2, h3, h4⟩ := ih (w.refreshed cfg env imports slug)
    have hone : Unpublished w (w.refreshed cfg env imports slug) := by
      cases hc : w.cameras.get? slug with
      | none => rw [refreshed_of_none hc]; exact ⟨rfl, rfl, rfl, rfl⟩
      | some c => rw [refreshed_of_some hc]; exact ⟨rfl, rfl, rfl, rfl⟩
    exact ⟨h1.trans hone.1, h2.trans hone.2, h3.trans hone.3, h4.trans hone.4⟩

/-- Another camera's refresh changes nothing for `k`. -/
theorem fine_refreshed {slug k : Slug} (h : k ≠ slug) :
    Fine cfg env imports (w.refreshed cfg env imports slug) k ↔ Fine cfg env imports w k := by
  unfold Fine
  rw [get?_refreshed, if_neg h]

theorem refreshLog_refreshed {slug k : Slug} (h : k ≠ slug) :
    refreshLog cfg env imports (w.refreshed cfg env imports slug) k = refreshLog cfg env imports w k := by
  unfold refreshLog
  rw [get?_refreshed, if_neg h]

theorem get?_refreshedAll {l : List Slug} (hl : l.Nodup) (w : World) (k : Slug) :
    (w.refreshedAll cfg env imports l).cameras.get? k =
      if k ∈ l then (w.cameras.get? k).map (refreshedRecord cfg env imports k)
      else w.cameras.get? k := by
  induction l generalizing w with
  | nil => rfl
  | cons slug l ih =>
    obtain ⟨hs, hl⟩ := List.nodup_cons.1 hl
    rw [World.refreshedAll, List.foldl_cons]
    refine (ih hl (w.refreshed cfg env imports slug)).trans ?_
    rw [get?_refreshed]
    by_cases hk : k = slug
    · subst hk
      rw [if_neg hs, if_pos rfl, if_pos List.mem_cons_self]
    · simp only [List.mem_cons, hk, false_or, if_false]

theorem sent_refreshedAll {l : List Slug} (hl : l.Nodup) (w : World) :
    (w.refreshedAll cfg env imports l).sent =
      w.sent ++ l.flatMap (refreshLog cfg env imports w) := by
  induction l generalizing w with
  | nil => simp [World.refreshedAll]
  | cons slug l ih =>
    obtain ⟨hs, hl⟩ := List.nodup_cons.1 hl
    have hlogs : l.flatMap (refreshLog cfg env imports (w.refreshed cfg env imports slug)) =
        l.flatMap (refreshLog cfg env imports w) :=
      List.flatMap_congr fun k hk => refreshLog_refreshed (ne_of_mem_of_not_mem hk hs)
    rw [World.refreshedAll, List.foldl_cons]
    refine (ih hl (w.refreshed cfg env imports slug)).trans ?_
    rw [hlogs, sent_refreshed, List.flatMap_cons, List.append_assoc]

/-- One round of the loop. -/
theorem refreshTurn_spec (w : World) {slug : Slug} (hs : slug ∈ w.cameras) :
    wp (refreshTurn cfg env imports slug)
      (fun _ w' => w' = w.refreshed cfg env imports slug ∧ Fine cfg env imports w slug)
      (fun _ w' => w' = w.refreshed cfg env imports slug ∧ ¬ Fine cfg env imports w slug) w := by
  refine wp_turn.2 ⟨fun c hc => ?_, fun hn => absurd hs (Dict.get?_eq_none_iff.1 hn)⟩
  rw [refreshed_of_some hc]
  unfold wp Fine afterRefresh
  rw [hc]
  cases hm : refreshCamera cfg imports (env.turn slug) ⟨c, []⟩ with
  | ok _ t => simp [returned, outState, hm]
  | error _ t => simp [returned, outState, hm]

/-- The loop refreshes every camera, or stops at the first refresh that raises. -/
theorem refreshLoop_spec {l : List Slug} (hl : l.Nodup) (w : World) (hmem : ∀ k ∈ l, k ∈ w.cameras) :
    wp (forM l (refreshTurn cfg env imports))
      (fun _ w' => w' = w.refreshedAll cfg env imports l ∧ ∀ k ∈ l, Fine cfg env imports w k)
      (fun _ w' => ∃ front last rest, l = front ++ last :: rest ∧
        w' = w.refreshedAll cfg env imports (front ++ [last]) ∧
        (∀ k ∈ front, Fine cfg env imports w k) ∧ ¬ Fine cfg env imports w last) w := by
  induction l generalizing w with
  | nil => exact ⟨rfl, by simp⟩
  | cons slug l ih =>
    obtain ⟨hs, hl⟩ := List.nodup_cons.1 hl
    have hne : ∀ k ∈ l, k ≠ slug := fun k hk => ne_of_mem_of_not_mem hk hs
    rw [List.forM_cons, wp_bind]
    refine (refreshTurn_spec w (hmem slug List.mem_cons_self)).mono ?_ ?_
    · rintro _ _ ⟨rfl, hf⟩
      have hmem' : ∀ k ∈ l, k ∈ (w.refreshed cfg env imports slug).cameras := fun k hk => by
        rw [Dict.mem_iff_mem_keys, keys_refreshed]
        exact hmem k (List.mem_cons_of_mem _ hk)
      refine (ih hl _ hmem').mono ?_ ?_
      · rintro _ _ ⟨rfl, hfine⟩
        refine ⟨rfl, fun k hk => ?_⟩
        rcases List.mem_cons.1 hk with rfl | hk
        · exact hf
        · exact (fine_refreshed (hne k hk)).1 (hfine k hk)
      · rintro _ _ ⟨front, last, rest, rfl, rfl, hfine, hlast⟩
        refine ⟨slug :: front, last, rest, rfl, rfl, fun k hk => ?_, fun h => hlast ?_⟩
        · rcases List.mem_cons.1 hk with rfl | hk
          · exact hf
          · exact (fine_refreshed (hne k (by simp [hk]))).1 (hfine k hk)
        · exact (fine_refreshed (hne last (by simp))).2 h
    · rintro _ _ ⟨rfl, hf⟩
      exact ⟨[], slug, l, rfl, rfl, by simp, hf⟩

/-- The loop reached every camera, or stopped at one whose refresh raised. -/
inductive Reached (cfg : Config) (env : Env) (w w' : World) : Prop
  | all (h : ∀ k ∈ w.cameras.keys, Fine cfg env cfg.autoImportStreams w k)
      (hc : w'.cameras = (w.refreshedAll cfg env cfg.autoImportStreams w.cameras.keys).cameras)
      (hs : w'.sent = (w.refreshedAll cfg env cfg.autoImportStreams w.cameras.keys).sent)
      (hg : w'.go2rtc = (w.refreshedAll cfg env cfg.autoImportStreams w.cameras.keys).go2rtc)
  | stopped {front last rest} (hk : w.cameras.keys = front ++ last :: rest)
      (h : ∀ k ∈ front, Fine cfg env cfg.autoImportStreams w k)
      (hl : ¬ Fine cfg env cfg.autoImportStreams w last)
      (hw : w' = w.refreshedAll cfg env cfg.autoImportStreams (front ++ [last]))

theorem refreshAll_spec (cfg : Config) (env : Env) (w : World) :
    wp (refreshAll cfg env)
      (fun _ w' => (∀ k ∈ w.cameras.keys, Fine cfg env cfg.autoImportStreams w k) ∧
        Reached cfg env w w' ∧ w'.file = some (reload w'.cameras))
      (fun _ w' => Reached cfg env w w') w := by
  rw [refreshAll, wp_bind, wp_get, wp_bind]
  refine (refreshLoop_spec w.cameras.keys_nodup w fun k hk => hk).mono ?_ ?_
  · rintro _ _ ⟨rfl, hfine⟩
    rw [wp_bind, wp_saveState]
    refine ⟨fun _ => ?_, fun _ _ => .all hfine rfl rfl rfl⟩
    rw [wp_bind, wp_get]
    have hsync : ∀ l : List Slug, Leaves SameStore (forM l (syncCameraInterfaces cfg)) :=
      fun l => .forM fun _ _ => sameStore_sync
    refine (hsync _ _).mono ?_ ?_
    · intro _ w' hs
      refine ⟨hfine, .all hfine hs.cameras hs.sent hs.go2rtc, hs.file.trans ?_⟩
      rw [hs.cameras]
      rfl
    · exact fun _ w' hs => .all hfine hs.cameras hs.sent hs.go2rtc
  · rintro _ _ ⟨front, last, rest, hk, rfl, hfine, hlast⟩
    exact .stopped hk hfine hlast rfl

/-- What refreshing all cameras leaves, returned or raised. -/
def afterRefreshAll (cfg : Config) (env : Env) (w : World) : World :=
  outState (exec cfg env .refreshAll w)

/-- Refreshing all cameras goes through them in the order of the store. Each of the cameras it reaches
gets the record that refreshing it alone would give, and is asked what refreshing it alone would ask,
whatever the others answer; the first refresh that raises is the last, and then nothing is saved or
published. An operation that returns has reached all of them and saved what they are. -/
theorem refreshAll_in_order (cfg : Config) (env : Env) (w : World) :
    ∃ done rest, w.cameras.keys = done ++ rest ∧
      (∀ k, (afterRefreshAll cfg env w).cameras.get? k = if k ∈ done then
        (w.cameras.get? k).map (refreshedRecord cfg env cfg.autoImportStreams k)
        else w.cameras.get? k) ∧
      (afterRefreshAll cfg env w).sent = done.flatMap (refreshLog cfg env cfg.autoImportStreams w) ∧
      (∀ k ∈ done.dropLast, Fine cfg env cfg.autoImportStreams w k) ∧
      (rest ≠ [] → ∃ k ∈ done, ¬ Fine cfg env cfg.autoImportStreams w k) ∧
      ((∃ k ∈ done, ¬ Fine cfg env cfg.autoImportStreams w k) → Unpublished w (afterRefreshAll cfg env w)) ∧
      (returned (exec cfg env .refreshAll w) → rest = [] ∧ (afterRefreshAll cfg env w).file = some (reload (afterRefreshAll cfg env w).cameras)) := by
  have hspec := refreshAll_spec cfg env { w with sent := [], written := [] }
  have hreached : Reached cfg env { w with sent := [], written := [] }
      (afterRefreshAll cfg env w) := (hspec.mono (fun _ _ h => h.2.1) fun _ _ h => h).outState
  have hret : returned (exec cfg env .refreshAll w) →
      (∀ k ∈ w.cameras.keys, Fine cfg env cfg.autoImportStreams w k) ∧
        (afterRefreshAll cfg env w).file =
          some (reload (afterRefreshAll cfg env w).cameras) := fun hr =>
    have h := hspec.of_ok (returned_iff.1 hr)
    ⟨h.1, h.2.2⟩
  cases hreached with
  | all hfine hc hs hg =>
    refine ⟨w.cameras.keys, [], (List.append_nil _).symm, fun k => ?_, ?_, fun k hk =>
      hfine k (List.dropLast_subset _ hk), fun h => absurd rfl h, ?_, fun hr => ⟨rfl, (hret hr).2⟩⟩
    · rw [hc]
      exact get?_refreshedAll w.cameras.keys_nodup _ k
    · rw [hs, sent_refreshedAll w.cameras.keys_nodup]
      rfl
    · rintro ⟨k, hk, hn⟩
      exact absurd (hfine k hk) hn
  | @stopped front last rest hk hfine hlast hw =>
    have hk : w.cameras.keys = (front ++ [last]) ++ rest := by simpa using hk
    have hnodup : (front ++ [last]).Nodup := by
      have h := w.cameras.keys_nodup
      rw [hk] at h
      exact (List.nodup_append.1 h).1
    refine ⟨front ++ [last], rest, hk, fun k => ?_, ?_, fun k hk => hfine k ?_, fun _ =>
      ⟨last, by simp, hlast⟩, fun _ => ?_, fun hr => ?_⟩
    · rw [hw]
      exact get?_refreshedAll hnodup _ k
    · rw [hw, sent_refreshedAll hnodup]
      rfl
    · rwa [List.dropLast_concat] at hk
    · rw [hw]
      obtain ⟨h1, h2, h3, h4⟩ := unpublished_refreshedAll cfg env cfg.autoImportStreams
        (front ++ [last]) { w with sent := [], written := [] }
      exact ⟨h1, h2, h3, h4⟩
    · refine absurd ((hret hr).1 last ?_) hlast
      rw [hk]
      simp

/-! ### When everything succeeds -/

/-- The camera names this stream in go2rtc before or after. -/
def NamedBy (w w' : World) (k : Slug) (n : Str) : Prop :=
  (∃ c, w.cameras.get? k = some c ∧ c.names n) ∨ ∃ c, w'.cameras.get? k = some c ∧ c.names n

omit [UnicodeData] in
theorem NamedBy.mem_keys {w' : World} {k : Slug} {n : Str} (h : NamedBy w w' k n) :
    k ∈ w.cameras.keys ∨ k ∈ w'.cameras.keys := by
  rcases h with ⟨c, hc, -⟩ | ⟨c, hc, -⟩
  · exact .inl (Dict.mem_of_get? hc)
  · exact .inr (Dict.mem_of_get? hc)

theorem refreshLog_writes (w : World) (k : Slug) (n : Str)
    (hn : n ∈ (writes (refreshLog cfg env imports w k)).map Prod.fst) :
    ∃ c, w.cameras.get? k = some c ∧ (c.names n ∨ (refreshedRecord cfg env imports k c).names n) := by
  obtain ⟨x, hx, rfl⟩ := List.mem_map.1 hn
  unfold refreshLog at hx
  cases hc : w.cameras.get? k with
  | none => rw [hc] at hx; cases hx
  | some c =>
    rw [hc] at hx
    exact ⟨c, rfl, touches_afterRefresh cfg imports (env.turn k) c x hx⟩

/-- Cameras that do not name `n` leave it alone. -/
theorem go2rtc_refreshedAll_of_not_named {l : List Slug} (hl : l.Nodup) (w : World) {n : Str}
    (h : ∀ k ∈ l, ∀ c, w.cameras.get? k = some c →
      ¬ c.names n ∧ ¬ (refreshedRecord cfg env imports k c).names n) :
    (w.refreshedAll cfg env imports l).go2rtc n = w.go2rtc n := by
  induction l generalizing w with
  | nil => rfl
  | cons slug l ih =>
    obtain ⟨hs, hl⟩ := List.nodup_cons.1 hl
    have hrest : ∀ k ∈ l, ∀ c, (w.refreshed cfg env imports slug).cameras.get? k = some c →
        ¬ c.names n ∧ ¬ (refreshedRecord cfg env imports k c).names n := fun k hk c hc => by
      rw [get?_refreshed, if_neg (ne_of_mem_of_not_mem hk hs)] at hc
      exact h k (List.mem_cons_of_mem _ hk) c hc
    have hslug : n ∉ (writes (refreshLog cfg env imports w slug)).map Prod.fst := fun hm => by
      obtain ⟨c, hc, hn⟩ := refreshLog_writes w slug n hm
      obtain ⟨h1, h2⟩ := h slug List.mem_cons_self c hc
      exact hn.elim h1 h2
    rw [World.refreshedAll, List.foldl_cons]
    refine (ih hl (w.refreshed cfg env imports slug) hrest).trans ?_
    rw [go2rtc_refreshed, Writes.run_of_not_mem hslug]

/-- The streams of a profile list have different names. -/
theorem get?_recordedStreams {streamPrefix : Str} {items : Json} {streams : Dict Slug StreamRec}
    {snapshot : Bool} (h : profileStreams streamPrefix items = .ok (streams, snapshot))
    {r : StreamRec} (hr : r ∈ streams.values) :
    (recordedStreams streams).get? r.streamName = some r.streamUrl := by
  have hkey : ∀ j ∈ streams.values, streams.get? j.streamName = some j := fun j hj => by
    obtain ⟨s, hs⟩ := Dict.mem_values_iff.1 hj
    obtain ⟨l, hl, -⟩ := profileStreams_ok h
    obtain ⟨x, -, rfl, rfl⟩ := mem_profileStreams h hl hs
    exact hs
  refine Dict.get?_ofList_map hr fun j hj hjr => ?_
  have hsame := (hkey j hj).symm.trans ((congrArg streams.get? hjr).trans (hkey r hr))
  rw [Option.some.inj hsame]

/-- A refresh that lists the streams, and that go2rtc accepts, puts each of them there. -/
theorem run_afterRefresh {tenv : TurnEnv} {c : Camera}
    (hf : returned (refreshCamera cfg true tenv ⟨c, []⟩))
    (ha : Accepted (afterRefresh cfg true tenv c).sent)
    (hok : (afterRefresh cfg true tenv c).camera.authStatus = some "ok") (table : Go2rtc)
    {n src : Str} (hr : (afterRefresh cfg true tenv c).camera.records n src) :
    Writes.run table (writes (afterRefresh cfg true tenv c).sent) n = some src := by
  obtain ⟨e, reqs, hsent, h, hret⟩ := refreshed_afterRefresh cfg true tenv c
  obtain rfl := hret.2 hf
  rw [ha.writes, hsent, map_request_answered]
  generalize (afterRefresh cfg true tenv c).camera = c' at h hok hr
  cases h with
  | unreachable =>
    simp only [Camera.unreachable] at hok
    exact absurd hok (by decide)
  | @enumerated _ _ _ _ probes items streams snapshot sent _ hp hs _ hfull =>
    have hfull := (hfull rfl).1
    rw [if_pos rfl] at hfull
    have hnone : probes.filterMap Request.write = [] :=
      List.filterMap_eq_nil_iff.2 fun q hq => write_of_isProbe (hp.probes q hq)
    obtain ⟨r, hr, rfl, rfl⟩ := hr
    rw [List.filterMap_append, hnone, List.nil_append, hfull, run_reconcile,
      get?_recordedStreams hs hr, Option.some_or]

/-- Where the last camera that names `n` refreshes. -/
theorem go2rtc_refreshedAll (cfg : Config) (env : Env) (imports : Bool) {l : List Slug} (hl : l.Nodup)
    (w : World) {k : Slug} (hk : k ∈ l)
    {c : Camera} (hc : w.cameras.get? k = some c) {n : Str}
    (h : ∀ k' ∈ l, k' ≠ k → ∀ c', w.cameras.get? k' = some c' →
      ¬ c'.names n ∧ ¬ (refreshedRecord cfg env imports k' c').names n) :
    ∃ table, (w.refreshedAll cfg env imports l).go2rtc n =
      Writes.run table (writes (afterRefresh cfg imports (env.turn k) c).sent) n := by
  obtain ⟨front, rest, rfl⟩ := List.append_of_mem hk
  obtain ⟨hfront, hcons, hdisj⟩ := List.nodup_append.1 hl
  obtain ⟨hkr, hrest⟩ := List.nodup_cons.1 hcons
  have hkf : k ∉ front := fun hm => hdisj k hm k List.mem_cons_self rfl
  set w₁ := w.refreshedAll cfg env imports front
  have hc₁ : w₁.cameras.get? k = some c := by rw [get?_refreshedAll hfront, if_neg hkf, hc]
  have hother : ∀ k' ∈ rest, ∀ c', (w₁.refreshed cfg env imports k).cameras.get? k' = some c' →
      ¬ c'.names n ∧ ¬ (refreshedRecord cfg env imports k' c').names n := fun k' hk' c' hc' => by
    have hne : k' ≠ k := ne_of_mem_of_not_mem hk' hkr
    have hnf : k' ∉ front := fun hm => hdisj k' hm k' (List.mem_cons_of_mem _ hk') rfl
    rw [get?_refreshed, if_neg hne, get?_refreshedAll hfront, if_neg hnf] at hc'
    exact h k' (by simp [hk']) hne c' hc'
  refine ⟨w₁.go2rtc, ?_⟩
  have hsplit : w.refreshedAll cfg env imports (front ++ k :: rest) =
      (w₁.refreshed cfg env imports k).refreshedAll cfg env imports rest := by
    rw [World.refreshedAll, List.foldl_append, List.foldl_cons]
    rfl
  rw [hsplit, go2rtc_refreshedAll_of_not_named hrest _ hother, refreshed_of_some hc₁,
    World.go2rtc_commit]

/-- After such a run (nothing under the prefix at the start, every refresh reconciling, every PUT and
DELETE accepted), refreshing all cameras makes go2rtc show under the prefix exactly the recorded
streams, provided that it returns, that every camera lists its streams, and that no two cameras name
the same stream before or after. -/
theorem refreshAll_converges (cfg : Config) (go2rtc : Go2rtc) (w₀ w : World) (env : Env)
    (h₀ : start cfg (newProcess none go2rtc) = .ok () w₀)
    (hempty : ∀ n, Prefixed cfg n → go2rtc n = none) (hr : Runs cfg (Reconciling cfg) OnFile w₀ w)
    (hg : Reconciling cfg env .refreshAll w) (hret : returned (exec cfg env .refreshAll w))
    (hok : ∀ k c, (afterRefreshAll cfg env w).cameras.get? k = some c → c.authStatus = some "ok")
    (hapart : ∀ k k' n, NamedBy w (afterRefreshAll cfg env w) k n →
      NamedBy w (afterRefreshAll cfg env w) k' n → k = k') (n src : Str) (hn : Prefixed cfg n) :
    (afterRefreshAll cfg env w).go2rtc n = some src ↔
      ∃ k c r, (afterRefreshAll cfg env w).cameras.get? k = some c ∧ r ∈ c.streams.values ∧
        r.streamName.val = n ∧ r.streamUrl = src := by
  have hb₀ : Backed cfg w₀ := backed_start h₀ hempty
  constructor
  · intro hs
    obtain ⟨k, c, hk, r, hr, hn, hsrc⟩ := ((hb₀.runs hr).exec hg) n src hn hs
    exact ⟨k, c, r, hk, hr, hn, hsrc⟩
  · rintro ⟨k, c', r, hk, hr', hrn, hsrc⟩
    have himports : cfg.autoImportStreams = true := by
      cases hi : cfg.autoImportStreams with
      | true => rfl
      | false => exact absurd hi.symm hg.1
    obtain ⟨hfine, hreached, -⟩ := (refreshAll_spec cfg env { w with sent := [], written := [] }).of_ok
      (returned_iff.1 hret)
    cases hreached with
    | stopped hkeys _ hl => exact absurd (hfine _ (by rw [hkeys]; simp)) hl
    | all _ hc hsent hgo =>
      have hrecords : ∀ k, (afterRefreshAll cfg env w).cameras.get? k =
          (w.cameras.get? k).map (refreshedRecord cfg env cfg.autoImportStreams k) := fun k => by
        refine (congrArg (fun d : Store => d.get? k) hc).trans ?_
        rw [get?_refreshedAll w.cameras.keys_nodup]
        split
        · rfl
        · rename_i hk
          have hnone : w.cameras.get? k = none := Dict.get?_eq_none_iff.2 hk
          show w.cameras.get? k = _
          rw [hnone]; rfl
      have hk' := hk
      rw [hrecords, Option.map_eq_some_iff] at hk'
      obtain ⟨c, hc, rfl⟩ := hk'
      have hmem : k ∈ w.cameras.keys := Dict.mem_of_get? hc
      have hnamed : NamedBy w (afterRefreshAll cfg env w) k n :=
        .inr ⟨_, hk, r, hr', hrn⟩
      have hothers : ∀ k' ∈ w.cameras.keys, k' ≠ k → ∀ c', w.cameras.get? k' = some c' →
          ¬ c'.names n ∧ ¬ (refreshedRecord cfg env cfg.autoImportStreams k' c').names n := by
        intro k' _ hne c' hc'
        refine ⟨fun h => hne (hapart k' k n (.inl ⟨c', hc', h⟩) hnamed), fun h => hne ?_⟩
        refine hapart k' k n (.inr ⟨_, ?_, h⟩) hnamed
        rw [hrecords, hc']
        rfl
      have ha : Accepted (afterRefresh cfg cfg.autoImportStreams (env.turn k) c).sent := fun s hs => by
        refine hg.2 s ?_
        rw [show (outState (exec cfg env .refreshAll w)).sent = _ from hsent,
          sent_refreshedAll w.cameras.keys_nodup]
        refine List.mem_append_right _ (List.mem_flatMap.2 ⟨k, hmem, ?_⟩)
        simp only [refreshLog, hc, Option.map_some, Option.getD_some]
        exact hs
      obtain ⟨table, htable⟩ := go2rtc_refreshedAll cfg env cfg.autoImportStreams w.cameras.keys_nodup
        { w with sent := [], written := [] } hmem hc hothers
      refine ((congrFun hgo n).trans htable).trans ?_
      have hf := hfine k hmem c hc
      have hauth := hok k _ hk
      rw [refreshedRecord] at hauth hr'
      rw [himports] at ha hf hauth hr' ⊢
      exact run_afterRefresh hf ha hauth table ⟨r, hr', hrn, hsrc⟩

end RefreshAll

attribute [local instance] asciiData

theorem refreshAll_converges_sample :
    (afterRefreshAll Sample.config Sample.camera Sample.discovered).go2rtc "ipcam_10_0_0_5_0" =
        some "rtsp://10.0.0.5/live?subtype=0".toList ↔
      ∃ k c r, (afterRefreshAll Sample.config Sample.camera Sample.discovered).cameras.get? k = some c ∧
        r ∈ c.streams.values ∧ r.streamName.val = "ipcam_10_0_0_5_0" ∧
        r.streamUrl = "rtsp://10.0.0.5/live?subtype=0" := by
  have hstart : start Sample.config (newProcess none fun _ => none) = .ok () Sample.booted :=
    returned_iff.1 (by decide +kernel)
  have hg₁ : Reconciling Sample.config Sample.camera .discoverAndRefresh Sample.booted := by
    refine ⟨Bool.false_ne_true, ?_⟩
    unfold Accepted
    decide +kernel
  have hg₂ : Reconciling Sample.config Sample.camera .refreshAll Sample.discovered := by
    refine ⟨Bool.false_ne_true, ?_⟩
    unfold Accepted
    decide +kernel
  have hstep : Step Sample.config (Reconciling Sample.config) OnFile Sample.booted Sample.discovered :=
    .op hg₁
  have hauth : ∀ e ∈ (afterRefreshAll Sample.config Sample.camera Sample.discovered).cameras.entries,
      e.2.authStatus = some "ok" := by decide +kernel
  have hone : ∀ k k', (k ∈ Sample.discovered.cameras.keys ∨
      k ∈ (afterRefreshAll Sample.config Sample.camera Sample.discovered).cameras.keys) →
      (k' ∈ Sample.discovered.cameras.keys ∨
      k' ∈ (afterRefreshAll Sample.config Sample.camera Sample.discovered).cameras.keys) → k = k' := by
    have h₁ : Sample.discovered.cameras.keys = [cameraSlug "10.0.0.5"] := by decide +kernel
    have h₂ : (afterRefreshAll Sample.config Sample.camera Sample.discovered).cameras.keys =
        [cameraSlug "10.0.0.5"] := by decide +kernel
    rw [h₁, h₂]
    simp only [List.mem_singleton, or_self]
    exact fun k k' hk hk' => hk.trans hk'.symm
  have hn : Prefixed Sample.config "ipcam_10_0_0_5_0" := by unfold Prefixed; decide +kernel
  have hret : returned (exec Sample.config Sample.camera .refreshAll Sample.discovered) := by
    decide +kernel
  have hok : ∀ k c, (afterRefreshAll Sample.config Sample.camera Sample.discovered).cameras.get? k =
      some c → c.authStatus = some "ok" := fun k c hc => hauth (k, c) (Dict.get?_eq_some_iff.1 hc)
  have hapart : ∀ k k' n, NamedBy Sample.discovered (afterRefreshAll Sample.config Sample.camera
      Sample.discovered) k n → NamedBy Sample.discovered (afterRefreshAll Sample.config Sample.camera
      Sample.discovered) k' n → k = k' := fun k k' n hk hk' => hone k k' hk.mem_keys hk'.mem_keys
  exact refreshAll_converges Sample.config (fun _ => none) Sample.booted Sample.discovered Sample.camera
    hstart (fun _ _ => rfl) (.single hstep) hg₂ hret hok hapart _ _ hn

end IpCamera
end OpenBmc
