import OpenBmc.IpCamera.Go2rtc

/-!
# Runs of the service and go2rtc

Names that do not begin with the service's stream prefix are never touched, in any run
(`foreign_streams_kept`). In a run whose PUTs and DELETEs go2rtc accepts and whose refreshes all
reconcile, go2rtc never shows anything under the prefix but recorded streams (`no_stream_left_over`).
-/

namespace OpenBmc
namespace IpCamera
open Py

section Body
variable [UnicodeData] {cfg : Config} {env : Env} {op : Op} {R : World → World → Prop}

/-- Whether the refreshes of the operation reconcile. -/
def Op.Imports (cfg : Config) : Op → Bool → Prop
  | .refreshOne _ imports, b => b = imports
  | .addCamera _ _ _ imports, b => b = imports
  | _, b => b = cfg.autoImportStreams

/-- The parts that the operations are made of, seen from the store, go2rtc and the log of requests. -/
structure Parts (cfg : Config) (env : Env) (op : Op) (R : World → World → Prop) : Prop where
  bus : ∀ w w', w'.cameras = w.cameras → w'.go2rtc = w.go2rtc → w'.sent = w.sent → R w w'
  ask : ∀ w s, s.request = .discover → R w { w with sent := w.sent ++ [s] }
  upsert : ∀ slug f, (∀ c, (f c).streams = c.streams) → ∀ w, R w (w.upserted slug f)
  turn : ∀ slug missing m, Work cfg (env.turn slug) (op.Imports cfg) m → Leaves R (turn slug missing m)
  remove : ∀ slug, Leaves R (do
    IpCamera.turn slug (.keyError slug.val) (deleteLoop (env.turn slug))
    modify fun w => { w with cameras := w.cameras.erase slug })

namespace Parts
variable [IsPreorder World R]

omit [IsPreorder World R] in
theorem exportCamera (h : Parts cfg env op R) (slug : Slug) : Leaves R (exportCamera cfg slug) :=
  busFrame_exportCamera.mono fun w w' hf => h.bus w w' hf.cameras hf.go2rtc hf.sent

omit [IsPreorder World R] in
theorem sync (h : Parts cfg env op R) (slug : Slug) : Leaves R (syncCameraInterfaces cfg slug) :=
  busFrame_sync.mono fun w w' hf => h.bus w w' hf.cameras hf.go2rtc hf.sent

theorem saveState (h : Parts cfg env op R) : Leaves R (saveState env) := fun w =>
  wp_saveState.2 ⟨fun _ => h.bus w _ rfl rfl rfl, fun _ _ => refl_of R w⟩

theorem refreshOne (h : Parts cfg env op R) {imports : Bool} (hi : op.Imports cfg imports)
    (slug : Slug) : Leaves R (refreshOne cfg env slug imports) :=
  .bind (h.turn slug _ _ (.refresh hi)) fun _ => .bind h.saveState fun _ => h.sync slug

theorem refreshAll (h : Parts cfg env op R) (hi : op.Imports cfg cfg.autoImportStreams) :
    Leaves R (refreshAll cfg env) :=
  .bind .get fun _ => .bind (.forM fun slug _ => h.turn slug _ _ (.refresh hi)) fun _ =>
    .bind h.saveState fun _ => .bind .get fun _ => .forM fun slug _ => h.sync slug

theorem discoverItem (h : Parts cfg env op R) (item : Json) : Leaves R (discoverItem cfg item) := by
  refine .bindExcept fun found _ => ?_
  cases found with
  | none => exact .pure _
  | some found =>
    exact .bind .get fun _ => .ite (.pure _) (.bind (.modify (h.upsert _ _ fun _ => rfl)) fun _ =>
      h.exportCamera _)

omit [UnicodeData] in
theorem added_streams (c : Camera) (stripped username password : Str) :
    (c.added stripped username password).streams = c.streams := by
  simp only [Camera.added, Camera.named]
  split <;> rfl

theorem body (h : Parts cfg env op R) : Leaves R (op.body cfg env) := by
  cases op with
  | discoverAndRefresh =>
    exact .bind (.modify fun w => h.ask w _ rfl) fun _ => .bindExcept fun _ _ =>
      .bind (.forM fun item _ => h.discoverItem item) fun _ => h.refreshAll rfl
  | refreshAll => exact h.refreshAll rfl
  | refreshOne slug imports => exact h.refreshOne rfl slug
  | addCamera address username password imports =>
    refine .bind ?_ fun _ => .pure _
    exact .bindExcept fun _ _ => .bindExcept fun _ _ => .bind (.modify (h.upsert _ _ fun _ => rfl))
      fun _ => .bindExcept fun _ _ =>
        .bind (.modify (h.upsert _ _ fun c => added_streams c _ _ _)) fun _ =>
          .bind (h.exportCamera _) fun _ => .bind (h.refreshOne rfl _) fun _ => .pure _
  | removeCameraByPath path =>
    refine .bind .get fun w => ?_
    split
    · exact .throw _
    · rename_i slug _
      rw [← bind_assoc]
      refine .bind (h.remove slug) fun _ => .bind ?_ fun _ => .bind h.saveState fun _ => ?_
      · exact busFrame_unexportCamera.mono fun w w' hf => h.bus w w' hf.cameras hf.go2rtc hf.sent
      · exact .modify fun w => h.bus w _ rfl rfl rfl
  | setCameraCredentials slug username password =>
    exact .bind .get fun _ => .ite (.throw _) (.bind (.modify (h.upsert _ _ fun _ => rfl)) fun _ =>
      h.refreshOne rfl slug)
  | importStreams slug => exact h.turn slug _ _ .importing
  | deleteStreams slug => exact h.turn slug _ _ .deleting
  | importCameraStream slug streamSlug => exact h.turn slug _ _ (.putting streamSlug)
  | removeCameraStream slug streamSlug => exact h.turn slug _ _ (.removing streamSlug)

end Parts
end Body

/-! ### Runs -/

section Runs
variable [UnicodeData]

/-- An operation that meets `good`, returned or raised, or a restart from a state that meets `safe`. -/
inductive Step (cfg : Config) (good : Env → Op → World → Prop) (safe : World → Prop) :
    World → World → Prop
  | op {w env o} : good env o w → Step cfg good safe w (outState (exec cfg env o w))
  | restart {w w'} : safe w → start cfg (newProcess w.file w.go2rtc) = .ok () w' →
      Step cfg good safe w w'

abbrev Runs (cfg : Config) (good : Env → Op → World → Prop) (safe : World → Prop) :
    World → World → Prop := Relation.ReflTransGen (Step cfg good safe)

theorem Reachable.step {cfg : Config} {good : Env → Op → World → Prop} {safe : World → Prop}
    {w w' : World} (h : Reachable cfg good w) (hs : Step cfg good safe w w') :
    Reachable cfg good w' := by
  cases hs with
  | op hg => exact .op h hg
  | restart _ hs => exact .restart h hs

/-! ### Names outside the prefix -/

variable {cfg : Config} {env : Env} {op : Op} {w w' : World}

/-- The records name only streams under the prefix. -/
def AllPrefixed (cfg : Config) (w : World) : Prop :=
  ∀ k c, w.cameras.get? k = some c → ∀ n, c.names n → Prefixed cfg n

structure KeepsForeign (cfg : Config) (w w' : World) : Prop where
  prefixed : AllPrefixed cfg w → AllPrefixed cfg w'
  foreign : AllPrefixed cfg w → ∀ n, ¬ Prefixed cfg n → w'.go2rtc n = w.go2rtc n

instance : IsPreorder World (KeepsForeign cfg) where
  refl _ := ⟨id, fun _ _ _ => rfl⟩
  trans _ _ _ h h' := ⟨h'.prefixed ∘ h.prefixed, fun hp n hn =>
    (h'.foreign (h.prefixed hp) n hn).trans (h.foreign hp n hn)⟩

theorem AllPrefixed.set {slug : Slug} {c : Camera} (h : AllPrefixed cfg w)
    (hc : ∀ n, c.names n → Prefixed cfg n) (hw : w'.cameras = w.cameras.set slug c) :
    AllPrefixed cfg w' := fun k c' hk => by
  rw [hw, Dict.get?_set] at hk
  split at hk
  · cases hk; exact hc
  · exact h k c' hk

theorem Work.leaves {R : World → World → Prop} [IsPreorder World R] {slug : Slug} {missing : PyError}
    {m : TurnM Unit} {imports : Bool → Prop} (hm : Work cfg (env.turn slug) imports m)
    (h : ∀ w c t, w.cameras.get? slug = some c → Worked cfg imports c t → R w (w.commit slug t)) :
    Leaves R (turn slug missing m) := fun w =>
  wp_turn.2 ⟨fun c hc => (hm.spec c).mono (fun _ t ht => h w c t hc ht) fun _ t ht => h w c t hc ht,
    fun _ => refl_of R w⟩

theorem KeepsForeign.commit {slug : Slug} {c : Camera} {t : Turn} {imports : Bool → Prop}
    (hc : w.cameras.get? slug = some c) (h : Worked cfg imports c t) :
    KeepsForeign cfg w (w.commit slug t) := by
  have hnames : AllPrefixed cfg w → ∀ n, t.camera.names n → Prefixed cfg n := fun hp n hn =>
    (h.names n hn).elim (hp slug c hc n) id
  refine ⟨fun hp => hp.set (hnames hp) rfl, fun hp n hn => ?_⟩
  rw [World.go2rtc_commit]
  refine Writes.run_of_not_mem fun hm => hn ?_
  obtain ⟨x, hx, rfl⟩ := List.mem_map.1 hm
  exact (h.touches x hx).elim (hp slug c hc _) (hnames hp _)

theorem parts_keepsForeign : Parts cfg env op (KeepsForeign cfg) where
  bus w w' hc hg _ := ⟨fun h => by rwa [AllPrefixed, hc], fun _ n _ => by rw [hg]⟩
  ask _ _ _ := ⟨id, fun _ _ _ => rfl⟩
  upsert slug f hf w := by
    refine ⟨fun hp => hp.set (fun n hn => ?_) rfl, fun _ _ _ => rfl⟩
    rw [Camera.names, hf] at hn
    cases hg : w.cameras.get? slug with
    | none => rw [hg] at hn; simp [Camera.fresh] at hn
    | some c => rw [hg] at hn; exact hp slug c hg n hn
  turn slug _ m hm := hm.leaves fun _ _ _ hc h => .commit hc h
  remove slug := by
    have hwork : Work cfg (env.turn slug) (op.Imports cfg) (deleteLoop (env.turn slug)) := .deleting
    refine .bind (hwork.leaves fun _ _ _ hc h => .commit hc h) fun _ => .modify fun w => ?_
    · refine ⟨fun hp k c hk => hp k c ?_, fun _ _ _ => rfl⟩
      rw [Dict.get?_erase] at hk
      split at hk
      · cases hk
      · exact hk

theorem keeps_prefixed : Keeps cfg (fun _ c => ∀ n, c.names n → Prefixed cfg n) env op where
  refreshed k _ imports hc n hn := (names_afterRefresh cfg imports (env.turn k) _ hn).elim (hc n) id
  found _ items item found _ _ _ _ hc n hn := by
    rcases hc with hc | rfl
    · exact hc n hn
    · simp [Camera.names, Camera.discovered, Camera.fresh] at hn
  added address username password imports _ endpoint host _ _ c hc := by
    have hc : ∀ n, c.names n → Prefixed cfg n := by
      rcases hc with hc | rfl
      · exact hc
      · exact fun n hn => by simp [Camera.names, Camera.fresh] at hn
    refine ⟨fun _ _ => hc, fun stripped _ n hn => hc n ?_⟩
    rwa [Camera.names, Parts.added_streams] at hn
  credentials _ _ _ _ _ hc := hc

theorem Reachable.prefixed (h : Reachable cfg (fun _ _ _ => True) w) : AllPrefixed cfg w :=
  (h.inv (P := fun _ c => ∀ n, c.names n → Prefixed cfg n)
    (fun _ _ hc n hn => hc n ((Camera.names_congr fun s => Dict.get?_sorted _ s).1 hn))
    fun _ _ _ _ => keeps_prefixed).records

/-- In every run, whatever is answered and whichever operations raise, go2rtc keeps what it has under
each name that does not begin with the service's stream prefix. -/
theorem foreign_streams_kept (cfg : Config) (w w' : World) (h : Reachable cfg (fun _ _ _ => True) w)
    (hr : Runs cfg (fun _ _ _ => True) (fun _ => True) w w') (n : Str) (hn : ¬ Prefixed cfg n) :
    w'.go2rtc n = w.go2rtc n := by
  have hrun : Reachable cfg (fun _ _ _ => True) w' ∧ w'.go2rtc n = w.go2rtc n := by
    induction hr with
    | refl => exact ⟨h, rfl⟩
    | @tail v v' _ hs ih =>
      obtain ⟨hv, hn'⟩ := ih
      refine ⟨hv.step hs, Eq.trans ?_ hn'⟩
      cases hs with
      | @op env o _ =>
        have hkept : Leaves (KeepsForeign cfg) (o.body cfg env) := parts_keepsForeign.body
        exact (hkept.outState { v with sent := [], written := [] }).foreign hv.prefixed n hn
      | restart _ hs => rw [((start_spec cfg _ _).of_ok hs).2.go2rtc]; rfl
  exact hrun.2

/-! ### Nothing is left over -/

/-- A camera records a stream with this name and source. -/
def Recorded (w : World) (n src : Str) : Prop :=
  ∃ k c, w.cameras.get? k = some c ∧ c.records n src

/-- Under the prefix, go2rtc shows only recorded streams. -/
def Backed (cfg : Config) (w : World) : Prop :=
  ∀ n src, Prefixed cfg n → w.go2rtc n = some src → Recorded w n src

structure Tidy (cfg : Config) (w w' : World) : Prop where
  sent : w.sent <+: w'.sent
  backed : Accepted w'.sent → Backed cfg w → Backed cfg w'

instance : IsPreorder World (Tidy cfg) where
  refl _ := ⟨List.prefix_refl _, fun _ => id⟩
  trans _ _ _ h h' := ⟨h.sent.trans h'.sent, fun ha hb =>
    h'.backed ha (h.backed (ha.of_prefix h'.sent) hb)⟩

omit [UnicodeData] in
theorem accepted_commit (w : World) (slug : Slug) {t : Turn} (h : Accepted (w.commit slug t).sent) :
    Accepted t.sent := fun s hs => h s (List.mem_append_right _ hs)

theorem Tidy.commit {slug : Slug} {c : Camera} {t : Turn} (hc : w.cameras.get? slug = some c)
    (h : Accepted t.sent → Settles c t) : Tidy cfg w (w.commit slug t) := by
  refine ⟨List.prefix_append _ _, fun ha hb n src hn hs => ?_⟩
  rw [World.go2rtc_commit] at hs
  rcases h (accepted_commit w slug ha) _ n src hs with hr | ⟨hs, hr⟩
  · exact ⟨slug, t.camera, Dict.get?_set_self .., hr⟩
  · obtain ⟨k, c', hk, hr'⟩ := hb n src hn hs
    have hne : k ≠ slug := by
      rintro rfl
      rw [hc] at hk
      cases hk
      exact hr hr'
    exact ⟨k, c', (Dict.get?_set_ne _ hne _).trans hk, hr'⟩

/-- Removing a camera whose streams are deleted. -/
theorem tidy_remove (slug : Slug) : Leaves (Tidy cfg) (do
    turn slug (.keyError slug.val) (deleteLoop (env.turn slug))
    modify fun w => { w with cameras := w.cameras.erase slug }) := fun w => by
  classical
  rw [wp_bind]
  refine wp_turn.2 ⟨fun c hc => (deleteLoop_spec (env.turn slug) c).mono ?_ ?_,
    fun _ => refl_of (Tidy cfg) w⟩
  · rintro _ t ⟨-, -, hw⟩
    rw [wp_modify]
    refine ⟨List.prefix_append _ _, fun ha hb n src hn hs => ?_⟩
    have hrun : Writes.run w.go2rtc (writes t.sent) n = some src := by
      rw [← World.go2rtc_commit w slug t]; exact hs
    rw [hw (accepted_commit w slug ha), run_deletes] at hrun
    split at hrun
    · cases hrun
    · rename_i hnot
      obtain ⟨k, c', hk, hr⟩ := hb n src hn hrun
      have hne : k ≠ slug := by
        rintro rfl
        rw [hc] at hk
        cases hk
        exact hnot hr.names
      refine ⟨k, c', ?_, hr⟩
      simp only [World.commit, Dict.get?_erase, if_neg hne, Dict.get?_set_ne _ hne, hk]
  · rintro _ t ⟨-, -, hb⟩
    exact .commit hc fun ha => absurd ha hb.not_accepted

theorem parts_tidy (h : ¬ op.Imports cfg false) : Parts cfg env op (Tidy cfg) where
  bus w w' hc hg hs := by
    refine ⟨hs ▸ List.prefix_refl _, fun _ hb n src hn hsrc => ?_⟩
    rw [hg] at hsrc
    obtain ⟨k, c, hk, hr⟩ := hb n src hn hsrc
    exact ⟨k, c, hc ▸ hk, hr⟩
  ask w s _ := ⟨List.prefix_append _ _, fun _ hb => hb⟩
  upsert slug f hf w := by
    refine ⟨List.prefix_refl _, fun _ hb n src hn hs => ?_⟩
    obtain ⟨k, c, hk, hr⟩ := hb n src hn hs
    by_cases hks : k = slug
    · subst hks
      refine ⟨k, f c, ?_, ?_⟩
      · simp only [World.upserted, hk, Option.getD_some, Dict.get?_set_self]
      · exact (Camera.records_congr fun s => by rw [hf]).2 hr
    · exact ⟨k, c, (Dict.get?_set_ne _ hks _).trans hk, hr⟩
  turn slug _ m hm := hm.leaves fun _ _ _ hc hw => .commit hc (hw.settles h)
  remove slug := tidy_remove slug

/-- Every refresh of the operation reconciles, and go2rtc accepts every PUT and DELETE of it. -/
def Reconciling (cfg : Config) (env : Env) (op : Op) (w : World) : Prop :=
  ¬ op.Imports cfg false ∧ Accepted (outState (exec cfg env op w)).sent

theorem Backed.exec (hb : Backed cfg w) (h : Reconciling cfg env op w) :
    Backed cfg (outState (exec cfg env op w)) :=
  ((parts_tidy h.1).body.outState { w with sent := [], written := [] }).backed h.2 hb

theorem Backed.restart (hb : Backed cfg w) (hf : OnFile w)
    (hs : start cfg (newProcess w.file w.go2rtc) = .ok () w') : Backed cfg w' := by
  have hsame := ((start_spec cfg _ _).of_ok hs).2
  intro n src hn hsrc
  rw [hsame.go2rtc] at hsrc
  obtain ⟨k, c, hk, hr⟩ := hb n src hn hsrc
  rcases hf with hf | ⟨-, hc⟩
  · refine ⟨k, c.reloaded, ?_, (Camera.records_congr fun s => Dict.get?_sorted _ s).2 hr⟩
    rw [hsame.cameras, newProcess, hf, Option.getD_some, get?_reload, hk]
    rfl
  · rw [hc] at hk
    cases hk

theorem Backed.runs (hb : Backed cfg w) (hr : Runs cfg (Reconciling cfg) OnFile w w') :
    Backed cfg w' := by
  induction hr with
  | refl => exact hb
  | tail _ hs ih =>
    cases hs with
    | op hg => exact ih.exec hg
    | restart hf hs => exact ih.restart hf hs

/-- A new service finds nothing under its prefix. -/
theorem backed_start {go2rtc : Go2rtc} (h : start cfg (newProcess none go2rtc) = .ok () w)
    (hempty : ∀ n, Prefixed cfg n → go2rtc n = none) : Backed cfg w := fun n src hn hs => by
  rw [((start_spec cfg _ _).of_ok h).2.go2rtc] at hs
  have hs : go2rtc n = some src := hs
  rw [hempty n hn] at hs
  cases hs

/-- Started without a state file, and with nothing under its prefix in go2rtc, the service leaves
nothing behind there: in every run whose refreshes all reconcile, in which go2rtc accepts every PUT and
DELETE, and which restarts only while the state file is up to date, go2rtc shows under the prefix only
streams that are recorded, with their sources, whatever else fails. -/
theorem no_stream_left_over (cfg : Config) (go2rtc : Go2rtc) (w₀ w : World)
    (h₀ : start cfg (newProcess none go2rtc) = .ok () w₀)
    (hempty : ∀ n, Prefixed cfg n → go2rtc n = none) (hr : Runs cfg (Reconciling cfg) OnFile w₀ w)
    (n src : Str) (hn : Prefixed cfg n) (hs : w.go2rtc n = some src) :
    ∃ k c r, w.cameras.get? k = some c ∧ r ∈ c.streams.values ∧ r.streamName.val = n ∧
      r.streamUrl = src := by
  obtain ⟨k, c, hk, r, hr, hn, hsrc⟩ := (backed_start h₀ hempty).runs hr n src hn hs
  exact ⟨k, c, r, hk, hr, hn, hsrc⟩

end Runs

attribute [local instance] asciiData

theorem foreign_streams_kept_sample :
    Sample.discovered.go2rtc "kitchen" = Sample.booted.go2rtc "kitchen" := by
  have hboot : Reachable Sample.config (fun _ _ _ => True) Sample.booted :=
    .boot (returned_iff.1 (by decide +kernel))
  have hn : ¬ Prefixed Sample.config "kitchen" := by unfold Prefixed; decide +kernel
  exact foreign_streams_kept Sample.config Sample.booted Sample.discovered hboot
    (.single (@Step.op _ _ _ _ Sample.booted Sample.camera .discoverAndRefresh trivial)) "kitchen" hn

theorem no_stream_left_over_sample :
    ∃ k c r, Sample.discovered.cameras.get? k = some c ∧ r ∈ c.streams.values ∧
      r.streamName.val = "ipcam_10_0_0_5_1" ∧ r.streamUrl = "rtsp://10.0.0.5/live?subtype=1" := by
  have hstart : start Sample.config (newProcess none fun _ => none) = .ok () Sample.booted :=
    returned_iff.1 (by decide +kernel)
  have hg : Reconciling Sample.config Sample.camera .discoverAndRefresh Sample.booted := by
    refine ⟨Bool.false_ne_true, ?_⟩
    unfold Accepted
    decide +kernel
  have hn : Prefixed Sample.config "ipcam_10_0_0_5_1" := by unfold Prefixed; decide +kernel
  have hs : Sample.discovered.go2rtc "ipcam_10_0_0_5_1" = some "rtsp://10.0.0.5/live?subtype=1".toList := by
    decide +kernel
  have hstep : Step Sample.config (Reconciling Sample.config) OnFile Sample.booted Sample.discovered :=
    .op hg
  exact no_stream_left_over Sample.config (fun _ => none) Sample.booted Sample.discovered hstart
    (fun _ _ => rfl) (.single hstep) _ _ hn hs

end IpCamera
end OpenBmc
