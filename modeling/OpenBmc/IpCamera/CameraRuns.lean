import OpenBmc.IpCamera.RefreshRuns

/-!
# Operations on one camera

An operation on one camera leaves the others alone: their records, their objects, and in go2rtc every
name the camera does not have (`one_camera_touched`). Adding a camera and removing it again gives back
the state before (`add_remove_restores`).
-/

namespace OpenBmc
namespace IpCamera
open Py

section Parts
variable {env : Env} {w w' : World} {slug : Slug}

/-- The record of the camera names this stream in go2rtc. -/
def World.names (w : World) (slug : Slug) (n : Str) : Prop :=
  ∃ c, w.cameras.get? slug = some c ∧ c.names n

/-- The other cameras' records and objects stay, and so does what go2rtc shows under names that the
camera has neither before nor after. -/
structure OnlyCamera (slug : Slug) (w w' : World) : Prop where
  records : w'.cameras.erase slug = w.cameras.erase slug
  objects : ∀ k, k ≠ slug → w'.objects.get? k = w.objects.get? k
  go2rtc : ∀ n, ¬ w.names slug n → ¬ w'.names slug n → w'.go2rtc n = w.go2rtc n

/-- Nothing is asked of go2rtc, and the camera keeps its streams. -/
structure Quiet (slug : Slug) (w w' : World) : Prop where
  records : w'.cameras.erase slug = w.cameras.erase slug
  objects : ∀ k, k ≠ slug → w'.objects.get? k = w.objects.get? k
  go2rtc : w'.go2rtc = w.go2rtc
  names : ∀ n, w'.names slug n ↔ w.names slug n

instance : IsPreorder World (Quiet slug) where
  refl _ := ⟨rfl, fun _ _ => rfl, rfl, fun _ => Iff.rfl⟩
  trans _ _ _ h h' := ⟨h'.1.trans h.1, fun k hk => (h'.2 k hk).trans (h.2 k hk), h'.3.trans h.3,
    fun n => (h'.4 n).trans (h.4 n)⟩

theorem Quiet.then {w₁ : World} (h : Quiet slug w w₁) (h' : OnlyCamera slug w₁ w') :
    OnlyCamera slug w w' where
  records := h'.records.trans h.records
  objects k hk := (h'.objects k hk).trans (h.objects k hk)
  go2rtc n hn hn' := by
    rw [h'.go2rtc n (fun h₁ => hn ((h.names n).1 h₁)) hn', h.go2rtc]

theorem OnlyCamera.then {w₁ : World} (h : OnlyCamera slug w w₁) (h' : Quiet slug w₁ w') :
    OnlyCamera slug w w' where
  records := h'.records.trans h.records
  objects k hk := (h'.objects k hk).trans (h.objects k hk)
  go2rtc n hn hn' := by
    rw [h'.go2rtc, h.go2rtc n hn fun h₁ => hn' ((h'.names n).2 h₁)]

theorem Quiet.only (h : Quiet slug w w') : OnlyCamera slug w w' :=
  ⟨h.records, h.objects, fun n _ _ => by rw [h.go2rtc]⟩

/-- A quiet part before. -/
theorem leaves_quiet_then {α β : Type} {m : Svc α} {f : α → Svc β} (hm : Leaves (Quiet slug) m)
    (hf : ∀ a, Leaves (OnlyCamera slug) (f a)) : Leaves (OnlyCamera slug) (m >>= f) := fun w => by
  rw [wp_bind]
  exact (hm w).mono (fun a w₁ h => (hf a w₁).mono (fun _ _ h' => h.then h') fun _ _ h' => h.then h')
    fun _ _ h => h.only

/-- A quiet part behind. -/
theorem leaves_then_quiet {α β : Type} {m : Svc α} {f : α → Svc β} (hm : Leaves (OnlyCamera slug) m)
    (hf : ∀ a, Leaves (Quiet slug) (f a)) : Leaves (OnlyCamera slug) (m >>= f) := fun w => by
  rw [wp_bind]
  exact (hm w).mono (fun a w₁ h => (hf a w₁).mono (fun _ _ h' => h.then h') fun _ _ h' => h.then h')
    fun _ _ h => h

theorem quiet_of_busFrame {α : Type} {m : Svc α} (h : Leaves (BusFrame slug) m) :
    Leaves (Quiet slug) m := h.mono fun _ _ hf =>
  ⟨by rw [hf.cameras], hf.others, hf.go2rtc, fun n => by rw [World.names, World.names, hf.cameras]⟩

theorem quiet_saveState : Leaves (Quiet slug) (saveState env) := fun w =>
  wp_saveState.2 ⟨fun _ => ⟨rfl, fun _ _ => rfl, rfl, fun _ => Iff.rfl⟩,
    fun _ _ => refl_of (Quiet slug) w⟩

theorem quiet_upsert {f : Camera → Camera} (hf : ∀ c, (f c).streams = c.streams) :
    Leaves (Quiet slug) (upsert slug f) := .modify fun w => by
  refine ⟨Dict.erase_set .., fun _ _ => rfl, rfl, fun n => ?_⟩
  simp only [World.names, World.upserted, Dict.get?_set_self, Option.some.injEq, exists_eq_left',
    Camera.names, hf]
  cases w.cameras.get? slug with
  | none => simp [Camera.fresh]
  | some c => simp

end Parts

section Target
variable [UnicodeData] {cfg : Config} {env : Env} {slug : Slug}

/-- The camera an operation is about; the two that are about all cameras have none. -/
def Op.target (cfg : Config) (w : World) : Op → Option Slug
  | .discoverAndRefresh => none
  | .refreshAll => none
  | .refreshOne slug _ => some slug
  | .addCamera address _ _ _ =>
    ((ensureOnvifUrl address >>= extractAddress).toOption).map cameraSlug
  | .removeCameraByPath path => w.cameras.keys.find? fun candidate => cameraPath cfg candidate = path
  | .setCameraCredentials slug _ _ => some slug
  | .importStreams slug => some slug
  | .deleteStreams slug => some slug
  | .importCameraStream slug _ => some slug
  | .removeCameraStream slug _ => some slug

theorem only_turn {missing : PyError} {m : TurnM Unit} {imports : Bool → Prop}
    (hm : Work cfg (env.turn slug) imports m) : Leaves (OnlyCamera slug) (turn slug missing m) :=
  fun w => by
    have hcommit : ∀ c t, w.cameras.get? slug = some c → Worked cfg imports c t →
        OnlyCamera slug w (w.commit slug t) := fun c t hc ht => by
      refine ⟨Dict.erase_set .., fun _ _ => rfl, fun n hn hn' => ?_⟩
      rw [World.go2rtc_commit]
      refine Writes.run_of_not_mem fun hm => ?_
      obtain ⟨x, hx, rfl⟩ := List.mem_map.1 hm
      rcases ht.touches x hx with h | h
      · exact hn ⟨c, hc, h⟩
      · exact hn' ⟨t.camera, Dict.get?_set_self .., h⟩
    exact wp_turn.2 ⟨fun c hc => (hm.spec c).mono (fun _ t ht => hcommit c t hc ht)
      fun _ t ht => hcommit c t hc ht, fun _ => (refl_of (Quiet slug) w).only⟩

theorem only_refreshOne (imports : Bool) :
    Leaves (OnlyCamera slug) (refreshOne cfg env slug imports) := by
  have hwork : Work cfg (env.turn slug) (· = imports) (refreshCamera cfg imports (env.turn slug)) :=
    .refresh rfl
  exact leaves_then_quiet (only_turn hwork) fun _ =>
    .bind quiet_saveState fun _ => quiet_of_busFrame busFrame_sync

theorem only_addCamera {address username password : Str} {imports : Bool} {endpoint host : Str}
    (he : ensureOnvifUrl address = .ok endpoint) (hh : extractAddress endpoint = .ok host) :
    Leaves (OnlyCamera (cameraSlug host)) (addCamera cfg env address username password imports) := by
  have haddr : addCamera cfg env address username password imports = (do
      upsert (cameraSlug host) fun c => { c with address := some host }
      let stripped ← liftExcept (stripCredentials endpoint)
      upsert (cameraSlug host) fun c => c.added stripped username password
      exportCamera cfg (cameraSlug host)
      refreshOne cfg env (cameraSlug host) imports
      return cameraPath cfg (cameraSlug host)) := by
    unfold addCamera
    rw [he]
    show (liftExcept (extractAddress endpoint) >>= _) = _
    rw [hh]
    rfl
  rw [haddr]
  exact leaves_quiet_then (quiet_upsert fun _ => rfl) fun _ => leaves_quiet_then (.liftExcept _) fun _ =>
    leaves_quiet_then (quiet_upsert fun c => Parts.added_streams c _ _ _) fun _ =>
      leaves_quiet_then (quiet_of_busFrame busFrame_exportCamera) fun _ =>
        leaves_then_quiet (only_refreshOne imports) fun _ => .pure _

omit [UnicodeData] in
/-- The camera's names are deleted with it, or it stays. -/
theorem only_remove : Leaves (OnlyCamera slug) (do
    turn slug (.keyError slug.val) (deleteLoop (env.turn slug))
    modify fun w => { w with cameras := w.cameras.erase slug }) := fun w => by
  rw [wp_bind]
  have hcommit : ∀ c t, w.cameras.get? slug = some c → Touches c t → t.camera = c →
      OnlyCamera slug w (w.commit slug t) := fun c t hc ht htc => by
    refine ⟨Dict.erase_set .., fun _ _ => rfl, fun n hn _ => ?_⟩
    rw [World.go2rtc_commit]
    refine Writes.run_of_not_mem fun hm => hn ?_
    obtain ⟨x, hx, rfl⟩ := List.mem_map.1 hm
    rcases ht x hx with h | h
    · exact ⟨c, hc, h⟩
    · exact ⟨c, hc, htc ▸ h⟩
  refine wp_turn.2 ⟨fun c hc => (deleteLoop_spec (env.turn slug) c).mono ?_ ?_,
    fun _ => (refl_of (Quiet slug) w).only⟩
  · rintro _ t ⟨htc, ht, -⟩
    rw [wp_modify]
    have hone := hcommit c t hc ht htc
    refine ⟨?_, hone.objects, fun n hn _ => ?_⟩
    · show ((w.commit slug t).cameras.erase slug).erase slug = _
      rw [Dict.erase_of_not_mem (by simp), hone.records]
    · refine hone.go2rtc n hn fun ⟨c', hc', h⟩ => hn ⟨c, hc, ?_⟩
      have hsame : c' = c := by
        have hself : (w.commit slug t).cameras.get? slug = some t.camera := Dict.get?_set_self ..
        rw [hself] at hc'
        rw [← Option.some.inj hc', htc]
      exact hsame ▸ h
  · rintro _ t ⟨htc, ht, -⟩
    exact hcommit c t hc ht htc

/-- An operation on one camera, returned or raised, leaves alone the records and the objects of all
other cameras, and in go2rtc every name that this camera has neither before nor after. -/
theorem one_camera_touched (cfg : Config) (env : Env) (op : Op) (w : World) (slug : Slug)
    (h : op.target cfg w = some slug) : OnlyCamera slug w (outState (exec cfg env op w)) := by
  have hbody : ∀ {m : Svc Unit}, Leaves (OnlyCamera slug) m →
      OnlyCamera slug w (outState (m { w with sent := [], written := [] })) := fun hm => by
    have hq : Quiet slug w { w with sent := [], written := [] } :=
      ⟨rfl, fun _ _ => rfl, rfl, fun _ => Iff.rfl⟩
    exact hq.then (hm.outState _)
  have hwork : ∀ {m : TurnM Unit} {missing : PyError},
      Work cfg (env.turn slug) (fun _ => True) m → Leaves (OnlyCamera slug) (turn slug missing m) :=
    fun hm => only_turn hm
  cases op with
  | discoverAndRefresh => cases h
  | refreshAll => cases h
  | refreshOne k imports => cases h; exact hbody (only_refreshOne imports)
  | addCamera address username password imports =>
    rw [Op.target, Option.map_eq_some_iff] at h
    obtain ⟨host, hh, rfl⟩ := h
    cases he : ensureOnvifUrl address with
    | error e => rw [he] at hh; cases hh
    | ok endpoint =>
      have hx : extractAddress endpoint = .ok host := by
        rw [he] at hh
        cases hx : extractAddress endpoint with
        | error e =>
          have hnone : (Except.ok endpoint >>= extractAddress).toOption = none := by
            show (extractAddress endpoint).toOption = none
            rw [hx]; rfl
          rw [hnone] at hh
          cases hh
        | ok host' =>
          have hsome : (Except.ok endpoint >>= extractAddress).toOption = some host' := by
            show (extractAddress endpoint).toOption = some host'
            rw [hx]; rfl
          rw [hsome] at hh
          rw [Option.some.inj hh]
      exact hbody (leaves_then_quiet (only_addCamera he hx) fun _ => .pure _)
  | removeCameraByPath path =>
    have hrest : Leaves (OnlyCamera slug) (do
        turn slug (.keyError slug.val) (deleteLoop (env.turn slug))
        modify fun w => { w with cameras := w.cameras.erase slug }
        unexportCamera cfg slug
        saveState env
        syncManager cfg) := by
      rw [← bind_assoc]
      exact leaves_then_quiet only_remove fun _ => .bind (quiet_of_busFrame busFrame_unexportCamera)
        fun _ => .bind quiet_saveState fun _ => quiet_of_busFrame busFrame_syncManager
    have hq : Quiet slug w { w with sent := [], written := [] } :=
      ⟨rfl, fun _ _ => rfl, rfl, fun _ => Iff.rfl⟩
    have hwp : wp (removeCameraByPath cfg env path) (fun _ => OnlyCamera slug { w with sent := [], written := [] })
        (fun _ => OnlyCamera slug { w with sent := [], written := [] })
        { w with sent := [], written := [] } := by
      rw [removeCameraByPath, wp_bind, wp_get]
      rw [Op.target] at h
      simp only [h]
      exact hrest _
    exact hq.then hwp.outState
  | setCameraCredentials k username password =>
    cases h
    refine hbody (leaves_quiet_then .get fun _ => ?_)
    split
    · exact fun w => (refl_of (Quiet slug) w).only
    · exact leaves_quiet_then (quiet_upsert fun _ => rfl) fun _ => only_refreshOne _
  | importStreams k => cases h; exact hbody (hwork .importing)
  | deleteStreams k => cases h; exact hbody (hwork .deleting)
  | importCameraStream k streamSlug => cases h; exact hbody (hwork (.putting streamSlug))
  | removeCameraStream k streamSlug => cases h; exact hbody (hwork (.removing streamSlug))

/-! ### Adding and removing -/

omit [UnicodeData] in
theorem find?_cameraPath {w : World} (h : slug ∈ w.cameras) :
    w.cameras.keys.find? (fun candidate => cameraPath cfg candidate = cameraPath cfg slug) =
      some slug := by
  cases hf : w.cameras.keys.find? fun candidate => cameraPath cfg candidate = cameraPath cfg slug with
  | none => exact absurd (by simp) (List.find?_eq_none.1 hf slug h)
  | some k =>
    have hk : cameraPath cfg k = cameraPath cfg slug := by simpa using List.find?_some hf
    rw [cameraPath_inj.1 hk]

omit [UnicodeData] in
/-- A removal that returns: the camera is gone, the store is saved, and go2rtc has none of its streams
if it accepted their deletion. -/
theorem removeCameraByPath_spec (w : World) (hw : w.sent = []) :
    wp (removeCameraByPath cfg env (cameraPath cfg slug))
      (fun _ w' => slug ∈ w.cameras ∧ slug ∉ w'.cameras ∧ w'.file = some (reload w'.cameras) ∧
        (Accepted w'.sent → ∀ n, w.names slug n → w'.go2rtc n = none))
      (fun _ _ => True) w := by
  classical
  rw [removeCameraByPath, wp_bind, wp_get]
  split
  · trivial
  rename_i k hk
  have hpath : cameraPath cfg k = cameraPath cfg slug := by simpa using List.find?_some hk
  obtain rfl := cameraPath_inj.1 hpath
  have hmem : k ∈ w.cameras := List.mem_of_find?_eq_some hk
  rw [wp_bind]
  refine wp_turn.2 ⟨fun c hc => (deleteLoop_spec (env.turn k) c).mono ?_ fun _ _ _ => trivial,
    fun _ => trivial⟩
  rintro _ t ⟨-, -, hwrites⟩
  rw [wp_bind, wp_modify, wp_bind]
  refine (busFrame_unexportCamera _).mono (fun _ w₂ hf => ?_) fun _ _ _ => trivial
  rw [wp_bind, wp_saveState]
  refine ⟨fun _ => ?_, fun _ _ => trivial⟩
  have hcam : w₂.cameras = (w.commit k t).cameras.erase k := hf.cameras
  refine ⟨hmem, ?_, rfl, fun ha n hn => ?_⟩
  · show k ∉ w₂.cameras
    rw [hcam]
    simp
  · obtain ⟨c', hc', hn⟩ := hn
    rw [hc] at hc'
    cases hc'
    show w₂.go2rtc n = none
    have hsent : w₂.sent = t.sent := by rw [hf.sent]; simp [World.commit, hw]
    have ha : Accepted t.sent := hsent ▸ ha
    rw [hf.go2rtc]
    show (w.commit k t).go2rtc n = none
    rw [World.go2rtc_commit, hwrites ha, run_deletes, if_pos hn]

/-- Adding a camera that is not known and removing it by its path, when both return in a run without
exceptions, gives back the store, the objects, the bus and the manager as they were; and go2rtc is as
before but for the streams that the camera had got, which are gone if their deletion was accepted. -/
theorem add_remove_restores (cfg : Config) (w w₁ w₂ : World) (env env' : Env)
    (address username password : Str) (imports : Bool) (slug : Slug)
    (h : Reachable cfg (fun env op w => returned (exec cfg env op w)) w)
    (htarget : (Op.addCamera address username password imports).target cfg w = some slug)
    (hnew : slug ∉ w.cameras)
    (h₁ : exec cfg env (.addCamera address username password imports) w = .ok () w₁)
    (h₂ : exec cfg env' (.removeCameraByPath (cameraPath cfg slug)) w₁ = .ok () w₂) :
    w₂.cameras = w.cameras ∧ (∀ k, w₂.objects.get? k = w.objects.get? k) ∧
      (∀ e, e ∈ w₂.bus ↔ e ∈ w.bus) ∧ w₂.manager = w.manager ∧
      w₂.file = some (reload w.cameras) ∧
      (∀ n, ¬ w₁.names slug n → w₂.go2rtc n = w.go2rtc n) ∧
      (Accepted w₂.sent → ∀ n, w₁.names slug n → w₂.go2rtc n = none) := by
  have hret₁ : returned (exec cfg env (.addCamera address username password imports) w) := by rw [h₁]; rfl
  have hret₂ : returned (exec cfg env' (.removeCameraByPath (cameraPath cfg slug)) w₁) := by rw [h₂]; rfl
  have hm : Mirrors cfg w := h.mirrors
  have hm₁ : Mirrors cfg w₁ := by simpa [h₁, outState] using exec_mirrors hm hret₁
  have hm₂ : Mirrors cfg w₂ := by simpa [h₂, outState] using exec_mirrors hm₁ hret₂
  obtain ⟨hmem, hgone, hfile, hdel⟩ := (removeCameraByPath_spec { w₁ with sent := [], written := [] }
    rfl).of_ok h₂
  have hadd : OnlyCamera slug w w₁ := by
    simpa [h₁, outState] using one_camera_touched cfg env _ w slug htarget
  have hremove : OnlyCamera slug w₁ w₂ := by
    have htarget₂ : (Op.removeCameraByPath (cameraPath cfg slug)).target cfg w₁ = some slug :=
      find?_cameraPath hmem
    simpa [h₂, outState] using one_camera_touched cfg env' _ w₁ slug htarget₂
  have hcam : w₂.cameras = w.cameras := by
    rw [← Dict.erase_of_not_mem hgone, hremove.records, hadd.records, Dict.erase_of_not_mem hnew]
  have hnone : ∀ {v : World}, slug ∉ v.cameras → ∀ n, ¬ v.names slug n := by
    rintro v hv n ⟨c, hc, -⟩
    exact hv (Dict.mem_of_get? hc)
  refine ⟨hcam, fun k => ?_, fun e => ?_, ?_, ?_, fun n hn => ?_, hdel⟩
  · by_cases hk : k = slug
    · subst hk
      rw [hm₂.gone k hgone, hm.gone k hnew]
    · rw [hremove.objects k hk, hadd.objects k hk]
  · rw [hm₂.mem_bus, hm.mem_bus, hcam]
  · rw [hm₂.manager, hm.manager, hcam]
  · rw [hfile, hcam]
  · rw [hremove.go2rtc n hn (hnone hgone n), hadd.go2rtc n (hnone hnew n) hn]

end Target

attribute [local instance] asciiData

theorem one_camera_touched_sample : OnlyCamera (cameraSlug "10.0.0.5") Sample.discovered
    (outState (exec Sample.config Sample.camera (.refreshOne (cameraSlug "10.0.0.5") true)
      Sample.discovered)) :=
  one_camera_touched Sample.config Sample.camera (.refreshOne (cameraSlug "10.0.0.5") true)
    Sample.discovered (cameraSlug "10.0.0.5") rfl

namespace Sample

/-- A second camera is added. -/
def added : World := outState (exec config camera (.addCamera "10.0.0.9" "admin" "1234" true) discovered)

/-- And removed again. -/
def removed : World :=
  outState (exec config camera (.removeCameraByPath (cameraPath config (cameraSlug "10.0.0.9"))) added)

end Sample

theorem add_remove_restores_sample : Sample.removed.cameras = Sample.discovered.cameras ∧
    ∀ e, e ∈ Sample.removed.bus ↔ e ∈ Sample.discovered.bus := by
  have hrun : Reachable Sample.config (fun env op w => returned (exec Sample.config env op w))
      Sample.discovered := Sample.reachable_discovered (by decide +kernel)
  have htarget : (Op.addCamera "10.0.0.9" "admin" "1234" true).target Sample.config Sample.discovered =
      some (cameraSlug "10.0.0.9") := by decide +kernel
  have hnew : cameraSlug "10.0.0.9" ∉ Sample.discovered.cameras := by decide +kernel
  have h₁ : exec Sample.config Sample.camera (.addCamera "10.0.0.9" "admin" "1234" true)
      Sample.discovered = .ok () Sample.added := returned_iff.1 (by decide +kernel)
  have h₂ : exec Sample.config Sample.camera
      (.removeCameraByPath (cameraPath Sample.config (cameraSlug "10.0.0.9"))) Sample.added =
        .ok () Sample.removed := returned_iff.1 (by decide +kernel)
  have h := add_remove_restores Sample.config Sample.discovered Sample.added Sample.removed
    Sample.camera Sample.camera "10.0.0.9" "admin" "1234" true (cameraSlug "10.0.0.9") hrun htarget hnew
    h₁ h₂
  exact ⟨h.1, h.2.2.1⟩

end IpCamera
end OpenBmc
