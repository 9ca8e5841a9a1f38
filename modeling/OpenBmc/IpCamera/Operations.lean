import OpenBmc.IpCamera.Sync

/-!
# Invariants of whole runs

`Inv cfg P` holds of a state whose camera records, in memory and on disk, all satisfy `P`, and whose
objects show such records. An operation keeps it when the record changes it can make keep `P`
(`Keeps`), whether it returns or raises (`exec_inv`); so it holds in every reachable state
(`Reachable.inv`).
-/

namespace OpenBmc
namespace IpCamera
open Py

theorem wp_upsert {w : World} {slug : Slug} {f : Camera → Camera} {Q : Unit → World → Prop}
    {E : PyError → World → Prop} : wp (upsert slug f) Q E w ↔ Q () (w.upserted slug f) := Iff.rfl

section Turn
variable {w : World} {slug : Slug} {missing : PyError} {m : TurnM Unit}

theorem wp_turn {Q : Unit → World → Prop} {E : PyError → World → Prop} :
    wp (turn slug missing m) Q E w ↔
      (∀ c, w.cameras.get? slug = some c →
        wp m (fun _ t => Q () (w.commit slug t)) (fun e t => E e (w.commit slug t)) ⟨c, []⟩) ∧
      (w.cameras.get? slug = none → E missing w) := by
  unfold wp turn
  cases hc : w.cameras.get? slug with
  | none => simp
  | some c => cases hm : m ⟨c, []⟩ <;> simp [hm]

/-- A turn leaves the bus, the file and the other cameras alone. -/
structure TurnFrame (slug : Slug) (w w' : World) : Prop where
  objects : w'.objects = w.objects
  bus : w'.bus = w.bus
  manager : w'.manager = w.manager
  file : w'.file = w.file
  written : w'.written = w.written
  keys : w'.cameras.keys = w.cameras.keys
  others : ∀ k, k ≠ slug → w'.cameras.get? k = w.cameras.get? k

instance (slug : Slug) : IsPreorder World (TurnFrame slug) where
  refl _ := ⟨rfl, rfl, rfl, rfl, rfl, rfl, fun _ _ => rfl⟩
  trans _ _ _ h h' := ⟨h'.1.trans h.1, h'.2.trans h.2, h'.3.trans h.3, h'.4.trans h.4, h'.5.trans h.5,
    h'.6.trans h.6, fun k hk => (h'.7 k hk).trans (h.7 k hk)⟩

theorem TurnFrame.commit {c : Camera} (hc : w.cameras.get? slug = some c) (t : Turn) :
    TurnFrame slug w (w.commit slug t) :=
  ⟨rfl, rfl, rfl, rfl, rfl, Dict.keys_set_of_mem (Dict.mem_of_get? hc) _, fun k hk => by
    simp [World.commit, hk]⟩

theorem turnFrame_turn : Leaves (TurnFrame slug) (turn slug missing m) := fun w => by
  refine wp_turn.2 ⟨fun c hc => ?_, fun _ => refl_of (TurnFrame slug) w⟩
  unfold wp
  split <;> exact .commit hc _

/-- Only requests were sent. -/
structure OnlyRequests (w w' : World) : Prop where
  cameras : w'.cameras = w.cameras
  objects : w'.objects = w.objects
  bus : w'.bus = w.bus
  manager : w'.manager = w.manager
  file : w'.file = w.file
  written : w'.written = w.written

instance : IsPreorder World OnlyRequests where
  refl _ := ⟨rfl, rfl, rfl, rfl, rfl, rfl⟩
  trans _ _ _ h h' := ⟨h'.1.trans h.1, h'.2.trans h.2, h'.3.trans h.3, h'.4.trans h.4, h'.5.trans h.5,
    h'.6.trans h.6⟩

theorem onlyRequests_turn (hm : ∀ c, wp m (fun _ t => t.camera = c) (fun _ t => t.camera = c) ⟨c, []⟩) :
    Leaves OnlyRequests (turn slug missing m) := fun w => by
  have hcommit : ∀ c t, w.cameras.get? slug = some c → t.camera = c →
      OnlyRequests w (w.commit slug t) := fun c t hc ht =>
    ⟨by rw [World.commit, ht]; exact Dict.set_of_get? hc, rfl, rfl, rfl, rfl, rfl⟩
  exact wp_turn.2 ⟨fun c hc => (hm c).mono (fun _ t ht => hcommit c t hc ht)
    fun _ t ht => hcommit c t hc ht, fun _ => refl_of OnlyRequests w⟩

theorem wp_deleteLoop_camera {tenv : TurnEnv} (c : Camera) : wp (deleteLoop tenv)
    (fun _ t' => t'.camera = c) (fun _ t' => t'.camera = c) ⟨c, []⟩ := by
  rw [deleteLoop, wp_bind, wp_get]
  exact (sendAll_spec tenv _ _).mono (fun _ _ h => by rw [h.1]; rfl)
    fun _ _ ⟨_, _, h, _⟩ => by rw [h]; rfl

theorem onlyRequests_streamTurn {env : Env} (streamSlug : Slug) (r : StreamRec → Request) :
    Leaves OnlyRequests (streamTurn env slug streamSlug r) := onlyRequests_turn fun c => by
  rw [wp_bind, wp_get]
  split
  · rfl
  · rw [wp_bind, wp_requestJson]
    exact ⟨fun _ _ => rfl, fun _ _ => rfl⟩

theorem onlyRequests_importStreams {env : Env} : Leaves OnlyRequests (importStreams env slug) :=
  onlyRequests_turn fun c => by
    rw [wp_bind, wp_get]
    exact (reconcile_spec _ _ _ _).mono (fun _ _ h => by rw [h.1]; rfl)
      fun _ _ ⟨_, _, h⟩ => by rw [h]; rfl

theorem onlyRequests_deleteStreams {env : Env} : Leaves OnlyRequests (deleteStreams env slug) :=
  onlyRequests_turn wp_deleteLoop_camera

/-- The state after a completed write. -/
def World.saved (w : World) : World :=
  { w with file := some (reload w.cameras), written := w.written ++ [reload w.cameras] }

theorem wp_saveState {env : Env} {Q : Unit → World → Prop} {E : PyError → World → Prop} :
    wp (saveState env) Q E w ↔ (env.write = none → Q () w.saved) ∧ ∀ e, env.write = some e → E e w := by
  unfold saveState
  cases env.write <;> simp [World.saved]

end Turn

/-! ### Invariants -/

/-- The steps that keep `I`. -/
abbrev Keeping (I : World → Prop) (w w' : World) : Prop := I w → I w'

instance (I : World → Prop) : IsPreorder World (Keeping I) where
  refl _ := id
  trans _ _ _ h h' := h' ∘ h

theorem keeping_of_wp {I : World → Prop} {α : Type} {m : Svc α}
    (h : ∀ w, I w → wp m (fun _ => I) (fun _ => I) w) : Leaves (Keeping I) m := fun w => by
  by_cases hw : I w
  · exact (h w hw).mono (fun _ _ h _ => h) fun _ _ h _ => h
  · unfold wp
    split <;> exact fun h => absurd h hw

theorem Leaves.of_keeping {I : World → Prop} {α : Type} {m : Svc α} (h : Leaves (Keeping I) m)
    {w : World} (hw : I w) : I (outState (m w)) := h.outState w hw

section Inv
variable [UnicodeData]

structure Inv (cfg : Config) (P : Slug → Camera → Prop) (w : World) : Prop where
  records : ∀ k c, w.cameras.get? k = some c → P k c
  file : ∀ store k c, w.file = some store → store.get? k = some c → P k c
  objects : ∀ k obj, w.objects.get? k = some obj →
    obj = CameraObject.initial ∨ ∃ c, P k c ∧ Shows cfg k c obj
  bus : BusOk cfg w

/-- The record changes an operation can make keep `P`: refreshing, writing a discovered device,
adding a camera, storing credentials. -/
structure Keeps (cfg : Config) (P : Slug → Camera → Prop) (env : Env) (op : Op) : Prop where
  refreshed : ∀ k c imports, P k c → P k (afterRefresh cfg imports (env.turn k) c).camera
  found : op = .discoverAndRefresh → ∀ items item found, env.discovery.discovered = .ok items →
    item ∈ items → readItem item = .ok (some found) → ∀ c,
      P (cameraSlug found.address) c ∨ c = Camera.fresh →
        P (cameraSlug found.address) (c.discovered found)
  added : ∀ address username password imports, op = .addCamera address username password imports →
    ∀ endpoint host, ensureOnvifUrl address = .ok endpoint → extractAddress endpoint = .ok host →
      ∀ c, P (cameraSlug host) c ∨ c = Camera.fresh →
        (∀ e, stripCredentials endpoint = .error e →
          P (cameraSlug host) { c with address := some host }) ∧
        ∀ stripped, stripCredentials endpoint = .ok stripped →
          P (cameraSlug host) (Camera.added { c with address := some host } stripped username password)
  credentials : ∀ k username password, op = .setCameraCredentials k username password → ∀ c, P k c →
    P k { c with username := some username, password := some password }

variable {cfg : Config} {P : Slug → Camera → Prop} {env : Env} {w : World}

theorem Inv.setCamera {slug : Slug} {c : Camera} (h : Inv cfg P w) (hc : P slug c)
    (sent : List Sent) (go2rtc : Go2rtc) :
    Inv cfg P { w with cameras := w.cameras.set slug c, sent, go2rtc } where
  records k c' hc' := by
    simp only [Dict.get?_set] at hc'
    split at hc'
    · subst_vars; cases hc'; exact hc
    · exact h.records k c' hc'
  file := h.file
  objects := h.objects
  bus := h.bus.congr rfl (fun _ => Iff.rfl) fun _ _ => Iff.rfl

theorem inv_turn {slug : Slug} {missing : PyError} {m : TurnM Unit}
    (hm : ∀ c, P slug c → wp m (fun _ t => P slug t.camera) (fun _ t => P slug t.camera) ⟨c, []⟩) :
    Leaves (Keeping (Inv cfg P)) (turn slug missing m) := keeping_of_wp fun _ hw =>
  wp_turn.2 ⟨fun c hc => (hm c (hw.records _ c hc)).mono (fun _ _ ht => hw.setCamera ht _ _)
    fun _ _ ht => hw.setCamera ht _ _, fun _ => hw⟩

theorem inv_upsert {slug : Slug} {f : Camera → Camera}
    (hf : ∀ c, P slug c ∨ c = Camera.fresh → P slug (f c)) :
    Leaves (Keeping (Inv cfg P)) (upsert slug f) := .modify fun w h => by
  refine h.setCamera (hf _ ?_) w.sent w.go2rtc
  cases hg : w.cameras.get? slug with
  | none => exact .inr rfl
  | some c => exact .inl (h.records _ c hg)

theorem inv_exportCamera (slug : Slug) : Leaves (Keeping (Inv cfg P)) (exportCamera cfg slug) := by
  refine keeping_of_wp fun w hw => (exportCamera_spec hw.bus slug).mono ?_ fun _ _ h => h.elim
  rintro _ w' rfl
  split
  · exact hw
  · rename_i hs
    refine ⟨hw.records, hw.file, fun k obj ho => ?_, hw.bus.exporting hs⟩
    simp only [World.exporting, Dict.get?_set] at ho
    split at ho
    · cases ho; exact .inl rfl
    · exact hw.objects k obj ho

/-- The records stay, and an object that changed is new or shows a record. -/
theorem Inv.busFrame {slug : Slug} {w' : World} (h : Inv cfg P w) (hf : BusFrame slug w w')
    (hb : BusOk cfg w') (ho : ∀ obj, w'.objects.get? slug = some obj →
      obj = CameraObject.initial ∨ ∃ c, P slug c ∧ Shows cfg slug c obj) : Inv cfg P w' where
  records := by rw [hf.cameras]; exact h.records
  file := by rw [hf.file]; exact h.file
  objects k obj hk := by
    by_cases hks : k = slug
    · subst hks; exact ho obj hk
    · rw [hf.others k hks] at hk
      exact h.objects k obj hk
  bus := hb

theorem inv_sync (slug : Slug) : Leaves (Keeping (Inv cfg P)) (syncCameraInterfaces cfg slug) := by
  refine keeping_of_wp fun w hw => ?_
  by_cases hs : slug ∈ w.cameras
  · refine (syncs_sync w slug hw.bus hs).mono (fun _ w' h => ?_) fun e w' h => ?_
    · refine hw.busFrame h.frame h.bus fun obj ho => ?_
      obtain ⟨c, obj', hc, ho', hshow⟩ := h.shows
      rw [ho'] at ho
      cases ho
      exact .inr ⟨c, hw.records _ c hc, hshow⟩
    · refine hw.busFrame h.frame h.bus fun obj ho => ?_
      rw [h.objects] at ho
      cases hg : w.objects.get? slug with
      | none => rw [hg] at ho; cases ho; exact .inl rfl
      | some obj' => rw [hg] at ho; cases ho; exact hw.objects _ _ hg
  · rw [syncCameraInterfaces, wp_bind, wp_get]
    simp only [Dict.get?_eq_none_iff.2 hs]
    exact hw

omit [UnicodeData] in
theorem get?_reload (store : Store) (k : Slug) :
    (reload store).get? k = (store.get? k).map Camera.reloaded := by
  simp [reload]

theorem inv_saveState (hre : ∀ k c, P k c → P k c.reloaded) :
    Leaves (Keeping (Inv cfg P)) (saveState env) := by
  refine keeping_of_wp fun w h => wp_saveState.2 ⟨fun _ => ⟨h.records, fun store k c hs hc => ?_,
    h.objects, h.bus.congr rfl (fun _ => Iff.rfl) fun _ _ => Iff.rfl⟩, fun _ _ => h⟩
  cases hs
  rw [get?_reload, Option.map_eq_some_iff] at hc
  obtain ⟨c', hc', rfl⟩ := hc
  exact hre k c' (h.records k c' hc')

theorem inv_syncManager : Leaves (Keeping (Inv cfg P)) (syncManager cfg) :=
  .modify fun _ h => ⟨h.1, h.2, h.3, h.bus.congr rfl (fun _ => Iff.rfl) fun _ _ => Iff.rfl⟩

theorem inv_unexportCamera (slug : Slug) : Leaves (Keeping (Inv cfg P)) (unexportCamera cfg slug) := by
  refine keeping_of_wp fun w hw => ((unexportCamera_spec hw.bus slug).and
    (busFrame_unexportCamera w)).mono ?_ fun _ _ h => h.1.elim
  rintro _ w' ⟨⟨hb, -, hnone⟩, hf⟩
  exact hw.busFrame hf hb fun obj ho => by rw [hnone] at ho; cases ho

/-! ### One operation -/

theorem inv_refreshTurn (hk : ∀ k c imports, P k c → P k (afterRefresh cfg imports (env.turn k) c).camera)
    (imports : Bool) (slug : Slug) : Leaves (Keeping (Inv cfg P)) (refreshTurn cfg env imports slug) :=
  inv_turn fun c hc => wp_of_outState (P := fun t : Turn => P slug t.camera) (hk slug c imports hc)

theorem inv_refreshOne (h : ∀ k c imports, P k c → P k (afterRefresh cfg imports (env.turn k) c).camera)
    (hre : ∀ k c, P k c → P k c.reloaded) (slug : Slug) (imports : Bool) :
    Leaves (Keeping (Inv cfg P)) (refreshOne cfg env slug imports) :=
  .bind (inv_refreshTurn h imports slug) fun _ => .bind (inv_saveState hre) fun _ => inv_sync slug

theorem inv_refreshAll (h : ∀ k c imports, P k c → P k (afterRefresh cfg imports (env.turn k) c).camera)
    (hre : ∀ k c, P k c → P k c.reloaded) : Leaves (Keeping (Inv cfg P)) (refreshAll cfg env) :=
  .bind .get fun _ => .bind (.forM fun _ _ => inv_refreshTurn h _ _) fun _ =>
    .bind (inv_saveState hre) fun _ => .bind .get fun _ => .forM fun _ _ => inv_sync _

theorem inv_onlyRequests {m : Svc Unit} (h : Leaves OnlyRequests m) :
    Leaves (Keeping (Inv cfg P)) m := h.mono fun w w' hr hw =>
  ⟨hr.cameras ▸ hw.records, hr.file ▸ hw.file, hr.objects ▸ hw.objects,
    hw.bus.congr hr.bus (fun _ => by rw [hr.objects]) fun _ _ => by rw [hr.objects]⟩

theorem inv_discoverItem {item : Json} (h : ∀ found, readItem item = .ok (some found) → ∀ c,
    P (cameraSlug found.address) c ∨ c = Camera.fresh →
      P (cameraSlug found.address) (c.discovered found)) :
    Leaves (Keeping (Inv cfg P)) (discoverItem cfg item) := by
  refine .bindExcept fun found hf => ?_
  cases found with
  | none => exact .pure _
  | some found =>
    exact .bind .get fun _ => .ite (.pure _) (.bind (inv_upsert (h found hf)) fun _ =>
      inv_exportCamera _)

theorem inv_eraseCamera (slug : Slug) :
    Leaves (Keeping (Inv cfg P))
      (modify fun w => { w with cameras := w.cameras.erase slug } : Svc Unit) := .modify fun w h => by
  refine ⟨fun k c hc => h.records k c ?_, h.file, h.objects,
    h.bus.congr rfl (fun _ => Iff.rfl) fun _ _ => Iff.rfl⟩
  rw [Dict.get?_erase] at hc
  split at hc
  · cases hc
  · exact hc

/-- An operation whose record changes keep `P` keeps the invariant, also when it raises. -/
theorem inv_body {op : Op} (h : Keeps cfg P env op) (hre : ∀ k c, P k c → P k c.reloaded) :
    Leaves (Keeping (Inv cfg P)) (op.body cfg env) := by
  cases op with
  | discoverAndRefresh =>
    refine .bind (.modify fun w h => ⟨h.1, h.2, h.3, h.bus.congr rfl (fun _ => Iff.rfl)
      fun _ _ => Iff.rfl⟩) fun _ => .bindExcept fun items hd => .bind (.forM fun item hi => ?_)
      fun _ => inv_refreshAll h.refreshed hre
    exact inv_discoverItem fun found hf => h.found rfl items item found hd hi hf
  | refreshAll => exact inv_refreshAll h.refreshed hre
  | refreshOne slug imports => exact inv_refreshOne h.refreshed hre slug imports
  | addCamera address username password imports =>
    refine .bind (keeping_of_wp fun w hw => ?_) fun _ => .pure _
    rw [addCamera, wp_bind, wp_liftExcept]
    refine ⟨fun endpoint he => ?_, fun _ _ => hw⟩
    rw [wp_bind, wp_liftExcept]
    refine ⟨fun host hh => ?_, fun _ _ => hw⟩
    have hc : P (cameraSlug host) ((w.cameras.get? (cameraSlug host)).getD Camera.fresh) ∨
        (w.cameras.get? (cameraSlug host)).getD Camera.fresh = Camera.fresh := by
      cases hg : w.cameras.get? (cameraSlug host) with
      | none => exact .inr rfl
      | some c => exact .inl (hw.records _ c hg)
    obtain ⟨haddr, hadd⟩ := h.added _ _ _ _ rfl endpoint host he hh _ hc
    rw [wp_bind, wp_upsert, wp_bind, wp_liftExcept]
    refine ⟨fun stripped hs => ?_, fun e hs => hw.setCamera (haddr e hs) w.sent w.go2rtc⟩
    have hw₂ := hw.setCamera (hadd stripped hs) w.sent w.go2rtc
    rw [wp_bind, wp_upsert, World.upserted, World.upserted, Dict.get?_set_self, Option.getD_some]
    simp only [Dict.set_set]
    have hrest : Leaves (Keeping (Inv cfg P)) (do
        exportCamera cfg (cameraSlug host)
        refreshOne cfg env (cameraSlug host) imports
        return cameraPath cfg (cameraSlug host)) :=
      .bind (inv_exportCamera _) fun _ => .bind (inv_refreshOne h.refreshed hre _ _) fun _ => .pure _
    exact (hrest _).mono (fun _ _ hk => hk hw₂) fun _ _ hk => hk hw₂
  | removeCameraByPath path =>
    refine .bind .get fun w => ?_
    split
    · exact .throw _
    · exact .bind (inv_onlyRequests (onlyRequests_turn wp_deleteLoop_camera)) fun _ =>
        .bind (inv_eraseCamera _) fun _ =>
        .bind (inv_unexportCamera _) fun _ => .bind (inv_saveState hre) fun _ => inv_syncManager
  | setCameraCredentials slug username password =>
    refine keeping_of_wp fun w hw => ?_
    rw [Op.body, setCameraCredentials, wp_bind, wp_get, wp_ite]
    refine ⟨fun _ => hw, fun hs => ?_⟩
    obtain ⟨c, hc⟩ := Dict.mem_iff_get?_isSome.1 (not_not.1 hs)
    rw [wp_bind, wp_upsert, World.upserted]
    have hw' := hw.setCamera (h.credentials slug username password rfl c (hw.records _ c hc))
      w.sent w.go2rtc
    simp only [hc, Option.getD_some]
    exact (inv_refreshOne h.refreshed hre slug cfg.autoImportStreams _).mono
      (fun _ _ hk => hk hw') fun _ _ hk => hk hw'
  | importStreams slug => exact inv_onlyRequests onlyRequests_importStreams
  | deleteStreams slug => exact inv_onlyRequests onlyRequests_deleteStreams
  | importCameraStream slug streamSlug => exact inv_onlyRequests (onlyRequests_streamTurn _ _)
  | removeCameraStream slug streamSlug => exact inv_onlyRequests (onlyRequests_streamTurn _ _)

theorem Inv.exec {op : Op} (hw : Inv cfg P w) (h : Keeps cfg P env op)
    (hre : ∀ k c, P k c → P k c.reloaded) : Inv cfg P (outState (exec cfg env op w)) :=
  Leaves.of_keeping (inv_body h hre) ⟨hw.records, hw.file, hw.objects,
    hw.bus.congr rfl (fun _ => Iff.rfl) fun _ _ => Iff.rfl⟩

theorem Inv.start {file : Option Store} {go2rtc : Go2rtc}
    (hf : ∀ store k c, file = some store → store.get? k = some c → P k c)
    (h : start cfg (newProcess file go2rtc) = .ok () w) : Inv cfg P w := by
  obtain ⟨hm, hs⟩ := (start_spec cfg file go2rtc).of_ok h
  have hrec : ∀ k c, w.cameras.get? k = some c → P k c := fun k c hc => by
    rw [hs.cameras] at hc
    cases file with
    | none => simp [newProcess] at hc
    | some store => exact hf store k c rfl hc
  refine ⟨hrec, fun store k c hst => hf store k c (hs.file.symm.trans hst), fun k obj ho => ?_, hm.bus⟩
  have hk : k ∈ w.cameras := by
    by_contra hk
    rw [hm.gone k hk] at ho
    cases ho
  obtain ⟨c, hc⟩ := Dict.mem_iff_get?_isSome.1 hk
  obtain ⟨obj', ho', hshow⟩ := hm.shows k c hc
  rw [ho'] at ho
  cases ho
  exact .inr ⟨c, hrec k c hc, hshow⟩

/-- A property of records that every operation of the run keeps holds in every state it reaches. -/
theorem Reachable.inv {good : Env → Op → World → Prop} (hre : ∀ k c, P k c → P k c.reloaded)
    (hkeep : ∀ env op w, good env op w → Keeps cfg P env op) (h : Reachable cfg good w) :
    Inv cfg P w := by
  induction h with
  | boot h => exact Inv.start (by simp) h
  | op _ hg ih => exact ih.exec (hkeep _ _ _ hg) hre
  | restart _ hs ih => exact Inv.start ih.file hs

end Inv

end IpCamera
end OpenBmc
