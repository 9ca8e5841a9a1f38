import OpenBmc.IpCamera.Operations

/-!
# The bus mirrors the store

An operation that returns leaves the objects of exactly the recorded cameras, showing their records:
`exec_mirrors` is the step, `Reachable.mirrors` the run. During an operation one camera at a time may
be out of step (`MirrorsBut`).
-/

namespace OpenBmc
namespace IpCamera
open Py

section Mirror
variable [UnicodeData] {cfg : Config} {env : Env} {w : World} {slug : Slug}

/-- Nothing on the bus changed, and the same cameras are recorded. -/
structure SameBus (w w' : World) : Prop where
  objects : w'.objects = w.objects
  bus : w'.bus = w.bus
  manager : w'.manager = w.manager
  keys : w'.cameras.keys = w.cameras.keys

instance : IsPreorder World SameBus where
  refl _ := ⟨rfl, rfl, rfl, rfl⟩
  trans _ _ _ h h' := ⟨h'.1.trans h.1, h'.2.trans h.2, h'.3.trans h.3, h'.4.trans h.4⟩

omit [UnicodeData] in
theorem sameBus_turn {missing : PyError} {m : TurnM Unit} :
    Leaves SameBus (turn slug missing m) :=
  turnFrame_turn.mono fun _ _ h => ⟨h.objects, h.bus, h.manager, h.keys⟩

omit [UnicodeData] in
theorem sameBus_saveState : Leaves SameBus (saveState env) := by
  exact fun w => wp_saveState.2 ⟨fun _ => ⟨rfl, rfl, rfl, rfl⟩, fun _ _ => refl_of SameBus w⟩

omit [UnicodeData] in
theorem BusOk.sameBus {w' : World} (h : BusOk cfg w) (hs : SameBus w w') : BusOk cfg w' :=
  h.congr hs.bus (fun k => by rw [hs.objects]) fun k s => by rw [hs.objects]

/-- The objects of every camera but `slug` mirror the store. -/
structure MirrorsBut (cfg : Config) (slug : Slug) (w : World) : Prop where
  bus : BusOk cfg w
  shows : ∀ k c, k ≠ slug → w.cameras.get? k = some c →
    ∃ obj, w.objects.get? k = some obj ∧ Shows cfg k c obj
  gone : ∀ k, k ≠ slug → k ∉ w.cameras → w.objects.get? k = none

theorem Mirrors.but (h : Mirrors cfg w) (slug : Slug) : MirrorsBut cfg slug w :=
  ⟨h.bus, fun k c _ => h.shows k c, fun k _ => h.gone k⟩

theorem MirrorsBut.turnFrame {w' : World} (h : MirrorsBut cfg slug w) (hf : TurnFrame slug w w') :
    MirrorsBut cfg slug w' where
  bus := h.bus.sameBus ⟨hf.objects, hf.bus, hf.manager, hf.keys⟩
  shows k c hk hc := by
    rw [hf.others k hk] at hc
    rw [hf.objects]; exact h.shows k c hk hc
  gone k hk hc := by
    rw [hf.objects]
    exact h.gone k hk fun hm => hc (by rw [Dict.mem_iff_mem_keys, hf.keys]; exact hm)

theorem MirrorsBut.upserted {f : Camera → Camera} (h : MirrorsBut cfg slug w) :
    MirrorsBut cfg slug (w.upserted slug f) where
  bus := h.bus.congr rfl (fun _ => Iff.rfl) fun _ _ => Iff.rfl
  shows k c hk hc := h.shows k c hk (by simpa [World.upserted, hk] using hc)
  gone k hk hc := h.gone k hk fun hm => hc (Dict.mem_set.2 (.inr hm))

theorem MirrorsBut.busFrame {w' : World} (h : MirrorsBut cfg slug w) (hf : BusFrame slug w w')
    (hb : BusOk cfg w') : MirrorsBut cfg slug w' where
  bus := hb
  shows k c hk hc := by
    rw [hf.cameras] at hc
    rw [hf.others k hk]; exact h.shows k c hk hc
  gone k hk hc := by
    rw [hf.cameras] at hc
    rw [hf.others k hk]; exact h.gone k hk hc

/-- Synchronising the one camera that is out of step. -/
theorem MirrorsBut.synced {w' : World} (h : MirrorsBut cfg slug w) (hs : Synced cfg slug w w') :
    Mirrors cfg w' where
  bus := hs.bus
  shows k c hc := by
    by_cases hk : k = slug
    · subst hk
      obtain ⟨c', obj, hc', ho, hshow⟩ := hs.shows
      rw [hs.frame.cameras, hc'] at hc
      cases hc
      exact ⟨obj, ho, hshow⟩
    · exact (h.busFrame hs.frame hs.bus).shows k c hk hc
  gone k hk := by
    refine (h.busFrame hs.frame hs.bus).gone k ?_ hk
    rintro rfl
    obtain ⟨c', -, hc', -⟩ := hs.shows
    rw [← hs.frame.cameras] at hc'
    exact hk (Dict.mem_of_get? hc')
  manager := by rw [hs.manager, hs.frame.cameras]

theorem refreshOne_mirrors {imports : Bool} (h : MirrorsBut cfg slug w) :
    wp (refreshOne cfg env slug imports) (fun _ => Mirrors cfg) (fun _ _ => True) w := by
  rw [refreshOne, refreshTurn, wp_bind]
  refine (turnFrame_turn w).mono (fun _ w₁ h₁ => ?_) fun _ _ _ => trivial
  have hm₁ := h.turnFrame h₁
  rw [wp_bind, wp_saveState]
  refine ⟨fun _ => ?_, fun _ _ => trivial⟩
  have hm₂ : MirrorsBut cfg slug w₁.saved :=
    ⟨hm₁.bus.congr rfl (fun _ => Iff.rfl) fun _ _ => Iff.rfl, hm₁.shows, hm₁.gone⟩
  by_cases hs : slug ∈ w₁.saved.cameras
  · exact (syncs_sync _ slug hm₂.bus hs).mono (fun _ _ h => hm₂.synced h) fun _ _ _ => trivial
  · rw [syncCameraInterfaces, wp_bind, wp_get]
    simp only [Dict.get?_eq_none_iff.2 hs]
    trivial

/-- Refreshing all cameras synchronises them all, so only objects without a record would be left
over. -/
theorem refreshAll_mirrors (hb : BusOk cfg w) (hgone : ∀ k, k ∉ w.cameras → w.objects.get? k = none)
    (hm : w.cameras.keys = [] → w.manager = managerProps cfg w.cameras) :
    wp (refreshAll cfg env) (fun _ => Mirrors cfg) (fun _ _ => True) w := by
  have hturns : ∀ l : List Slug, Leaves SameBus (forM l (refreshTurn cfg env cfg.autoImportStreams)) :=
    fun l => .forM fun _ _ => sameBus_turn
  rw [refreshAll, wp_bind, wp_get, wp_bind]
  refine (hturns w.cameras.keys w).mono (fun _ w₁ h₁ => ?_) fun _ _ _ => trivial
  rw [wp_bind]
  refine (sameBus_saveState w₁).mono (fun _ w₂ h₂ => ?_) fun _ _ _ => trivial
  have hs : SameBus w w₂ := trans_of SameBus h₁ h₂
  rw [wp_bind, wp_get]
  refine (syncs_sync.forM w₂.cameras.keys_nodup (hb.sameBus hs) fun k hk => hk).mono ?_
    fun _ _ _ => trivial
  intro _ w₃ h₃
  refine h₃.mirrors (fun k hk => ?_) fun hk => ?_
  · rw [hs.objects]
    exact hgone k (by rwa [Dict.mem_iff_mem_keys, hs.keys] at hk)
  · rw [hs.manager, hm (hs.keys ▸ hk)]
    simp only [managerProps, cameraPaths, hs.keys]

/-- What the discovery may leave behind between two items. -/
structure Discovering (cfg : Config) (w₀ w : World) : Prop where
  bus : BusOk cfg w
  gone : ∀ k, k ∉ w.cameras → w.objects.get? k = none
  manager : w.manager = w₀.manager
  keys : ∀ k, k ∈ w₀.cameras → k ∈ w.cameras

theorem discoverItem_mirrors {w₀ : World} (item : Json) :
    Leaves (Keeping (Discovering cfg w₀)) (discoverItem cfg item) := by
  refine .bindExcept fun found _ => ?_
  cases found with
  | none => exact .pure _
  | some found =>
    refine .bind .get fun _ => .ite (.pure _) (keeping_of_wp fun w h => ?_)
    rw [wp_bind, wp_upsert]
    set w₁ := w.upserted (cameraSlug found.address) fun c => c.discovered found with hw₁
    have hb₁ : BusOk cfg w₁ := h.bus.congr rfl (fun _ => Iff.rfl) fun _ _ => Iff.rfl
    refine ((exportCamera_spec hb₁ _).and (busFrame_exportCamera w₁)).mono ?_ fun _ _ h => h.1.elim
    rintro _ w₂ ⟨rfl, hf⟩
    refine ⟨?_, fun k hk => ?_, ?_, fun k hk => ?_⟩
    · split
      exacts [hb₁, hb₁.exporting ‹_›]
    · rw [hf.cameras] at hk
      have hk : k ≠ cameraSlug found.address ∧ k ∉ w.cameras := by
        simpa only [hw₁, World.upserted, Dict.mem_set, not_or] using hk
      exact (hf.others k hk.1).trans (h.gone k hk.2)
    · split <;> exact h.manager
    · rw [hf.cameras]
      exact Dict.mem_set.2 (.inr (h.keys k hk))

theorem discoverAndRefresh_mirrors (h : Mirrors cfg w) :
    wp (discoverAndRefresh cfg env) (fun _ => Mirrors cfg) (fun _ _ => True) w := by
  rw [discoverAndRefresh, wp_bind, wp_modify, wp_bind, wp_liftExcept]
  refine ⟨fun items _ => ?_, fun _ _ => trivial⟩
  set w₀ : World := { w with sent := w.sent ++ [⟨.discover, env.discovery⟩] }
  have hd₀ : Discovering cfg w w₀ :=
    ⟨h.bus.congr rfl (fun _ => Iff.rfl) fun _ _ => Iff.rfl, h.gone, rfl, fun _ hk => hk⟩
  have hloop : Leaves (Keeping (Discovering cfg w)) (forM items (discoverItem cfg)) :=
    .forM fun item _ => discoverItem_mirrors item
  rw [wp_bind]
  refine (hloop w₀).mono (fun _ w₁ h₁ => ?_) fun _ _ _ => trivial
  have hd₁ := h₁ hd₀
  refine refreshAll_mirrors hd₁.bus hd₁.gone fun hk => ?_
  have hempty : w.cameras.keys = [] := List.eq_nil_iff_forall_not_mem.2 fun k hm => by
    have : k ∈ w₁.cameras.keys := hd₁.keys k hm
    simp [hk] at this
  rw [hd₁.manager, h.manager]
  simp only [managerProps, cameraPaths, hk, hempty]

theorem setCameraCredentials_mirrors {username password : Str} (h : Mirrors cfg w) :
    wp (setCameraCredentials cfg env slug username password) (fun _ => Mirrors cfg)
      (fun _ _ => True) w := by
  rw [setCameraCredentials, wp_bind, wp_get, wp_ite]
  refine ⟨fun _ => trivial, fun _ => ?_⟩
  rw [wp_bind, wp_upsert]
  exact refreshOne_mirrors (h.but slug).upserted

theorem addCamera_mirrors {address username password : Str} {imports : Bool} (h : Mirrors cfg w) :
    wp (addCamera cfg env address username password imports) (fun _ => Mirrors cfg)
      (fun _ _ => True) w := by
  rw [addCamera, wp_bind, wp_liftExcept]
  refine ⟨fun endpoint _ => ?_, fun _ _ => trivial⟩
  rw [wp_bind, wp_liftExcept]
  refine ⟨fun host _ => ?_, fun _ _ => trivial⟩
  rw [wp_bind, wp_upsert, wp_bind, wp_liftExcept]
  refine ⟨fun stripped _ => ?_, fun _ _ => trivial⟩
  rw [wp_bind, wp_upsert, wp_bind]
  set w₂ := (w.upserted (cameraSlug host) fun c => { c with address := some host }).upserted
    (cameraSlug host) fun c => c.added stripped username password
  have hm₂ : MirrorsBut cfg (cameraSlug host) w₂ := (h.but _).upserted.upserted
  refine ((exportCamera_spec hm₂.bus _).and (busFrame_exportCamera w₂)).mono ?_ fun _ _ h => h.1.elim
  rintro _ w₃ ⟨hw₃, hf⟩
  have hb₃ : BusOk cfg w₃ := by
    rw [hw₃]; split
    exacts [hm₂.bus, hm₂.bus.exporting ‹_›]
  rw [wp_bind]
  exact (refreshOne_mirrors (hm₂.busFrame hf hb₃)).mono (fun _ _ h => h) fun _ _ h => h

theorem removeCameraByPath_mirrors {path : Str} (h : Mirrors cfg w) :
    wp (removeCameraByPath cfg env path) (fun _ => Mirrors cfg) (fun _ _ => True) w := by
  rw [removeCameraByPath, wp_bind, wp_get]
  split
  · trivial
  rename_i slug _
  rw [wp_bind]
  refine (turnFrame_turn w).mono (fun _ w₁ h₁ => ?_) fun _ _ _ => trivial
  have hm₁ := (h.but slug).turnFrame h₁
  rw [wp_bind, wp_modify, wp_bind]
  set w₂ : World := { w₁ with cameras := w₁.cameras.erase slug }
  have hb₂ : BusOk cfg w₂ := hm₁.bus.congr rfl (fun _ => Iff.rfl) fun _ _ => Iff.rfl
  refine ((unexportCamera_spec hb₂ slug).and (busFrame_unexportCamera w₂)).mono ?_
    fun _ _ h => h.1.elim
  rintro _ w₃ ⟨⟨hb₃, -, hnone⟩, hf⟩
  rw [wp_bind, wp_saveState]
  refine ⟨fun _ => ?_, fun _ _ => trivial⟩
  have hcam : ∀ k, w₃.cameras.get? k = if k = slug then none else w₁.cameras.get? k := fun k => by
    rw [hf.cameras]; exact Dict.get?_erase _ _ _
  refine ⟨hb₃.congr rfl (fun _ => Iff.rfl) fun _ _ => Iff.rfl, fun k c hc => ?_, fun k hk => ?_, rfl⟩
  · have hc : w₃.cameras.get? k = some c := hc
    rw [hcam] at hc
    split at hc
    · cases hc
    · obtain ⟨obj, ho, hshow⟩ := hm₁.shows k c ‹_› hc
      exact ⟨obj, (hf.others k ‹_›).trans ho, hshow⟩
  · have hk : w₃.cameras.get? k = none := Dict.get?_eq_none_iff.2 hk
    by_cases hks : k = slug
    · subst hks; exact hnone
    · rw [hcam, if_neg hks] at hk
      exact (hf.others k hks).trans (hm₁.gone k hks (Dict.get?_eq_none_iff.1 hk))

theorem Mirrors.onlyRequests {w' : World} (h : Mirrors cfg w) (hr : OnlyRequests w w') :
    Mirrors cfg w' where
  bus := h.bus.sameBus ⟨hr.objects, hr.bus, hr.manager, by rw [hr.cameras]⟩
  shows := by rw [hr.cameras, hr.objects]; exact h.shows
  gone := by rw [hr.cameras, hr.objects]; exact h.gone
  manager := by rw [hr.manager, hr.cameras]; exact h.manager

theorem body_mirrors {op : Op} (h : Mirrors cfg w) :
    wp (op.body cfg env) (fun _ => Mirrors cfg) (fun _ _ => True) w := by
  have hreq : ∀ {m : Svc Unit}, Leaves OnlyRequests m →
      wp m (fun _ => Mirrors cfg) (fun _ _ => True) w := fun hm =>
    (hm w).mono (fun _ _ hr => h.onlyRequests hr) fun _ _ _ => trivial
  cases op with
  | discoverAndRefresh => exact discoverAndRefresh_mirrors h
  | refreshAll =>
    exact refreshAll_mirrors h.bus h.gone fun _ => h.manager
  | refreshOne slug imports => exact refreshOne_mirrors (h.but slug)
  | addCamera address username password imports =>
    rw [Op.body, wp_bind]
    exact addCamera_mirrors h
  | removeCameraByPath path => exact removeCameraByPath_mirrors h
  | setCameraCredentials slug username password => exact setCameraCredentials_mirrors h
  | importStreams slug => exact hreq onlyRequests_importStreams
  | deleteStreams slug => exact hreq onlyRequests_deleteStreams
  | importCameraStream slug streamSlug => exact hreq (onlyRequests_streamTurn _ _)
  | removeCameraStream slug streamSlug => exact hreq (onlyRequests_streamTurn _ _)

/-- An operation that returns leaves the bus mirroring the store. -/
theorem exec_mirrors {op : Op} (h : Mirrors cfg w) (hr : returned (exec cfg env op w)) :
    Mirrors cfg (outState (exec cfg env op w)) := by
  have h₀ : Mirrors cfg { w with sent := [], written := [] } :=
    ⟨h.bus.congr rfl (fun _ => Iff.rfl) fun _ _ => Iff.rfl, h.shows, h.gone, h.manager⟩
  exact (body_mirrors h₀).of_ok (returned_iff.1 hr)

/-- In a run none of whose operations raises, the bus mirrors the store. -/
theorem Reachable.mirrors (h : Reachable cfg (fun env op w => returned (exec cfg env op w)) w) :
    Mirrors cfg w := by
  induction h with
  | boot h => exact ((start_spec cfg _ _).of_ok h).1
  | op _ hg ih => exact exec_mirrors ih hg
  | restart _ h _ => exact ((start_spec cfg _ _).of_ok h).1

theorem Mirrors.mem_objects (h : Mirrors cfg w) (k : Slug) : k ∈ w.objects ↔ k ∈ w.cameras := by
  constructor
  · intro hk
    by_contra hn
    exact Dict.get?_eq_none_iff.1 (h.gone k hn) hk
  · intro hk
    obtain ⟨c, hc⟩ := Dict.mem_iff_get?_isSome.1 hk
    obtain ⟨obj, ho, -⟩ := h.shows k c hc
    exact Dict.mem_of_get? ho

theorem Shows.mem_streams {c : Camera} {obj : CameraObject} (h : Shows cfg slug c obj) (s : Slug) :
    s ∈ obj.streams ↔ s ∈ c.streams := by
  simp only [Dict.mem_iff_get?_isSome, h.streams, Option.map_eq_some_iff]
  constructor
  · rintro ⟨_, r, hr, -⟩
    exact ⟨r, hr⟩
  · rintro ⟨r, hr⟩
    exact ⟨_, r, hr, rfl⟩

/-- The streams a camera exports are those its `Profiles` lists. -/
theorem Shows.mem_profiles {c : Camera} {obj : CameraObject} (h : Shows cfg slug c obj) (p : Str) :
    p ∈ obj.device.profiles ↔ ∃ s ∈ obj.streams, p = streamPath cfg slug s := by
  rw [h.device]
  simp only [Camera.deviceProps, List.mem_map]
  constructor
  · rintro ⟨s, hs, rfl⟩
    exact ⟨s, (h.mem_streams s).2 (Dict.mem_sorted.1 hs), rfl⟩
  · rintro ⟨s, hs, rfl⟩
    exact ⟨s, Dict.mem_sorted.2 ((h.mem_streams s).1 hs), rfl⟩

/-- The bus lists the manager, the four interfaces of each recorded camera and the streams each
record holds. -/
theorem Mirrors.mem_bus (h : Mirrors cfg w) (e : Str × Iface) : e ∈ w.bus ↔
    e = (managerPath, .manager) ∨ (∃ k ∈ w.cameras, ∃ i ∈ cameraIfaces, e = (cameraPath cfg k, i)) ∨
      ∃ k c, w.cameras.get? k = some c ∧ ∃ s ∈ c.streams, e = (streamPath cfg k s, .stream) := by
  rw [h.bus.mem]
  constructor
  · rintro (_ | ⟨hk, hi⟩ | ⟨obj, ho, hs⟩)
    · exact .inl rfl
    · exact .inr (.inl ⟨_, (h.mem_objects _).1 hk, _, hi, rfl⟩)
    · obtain ⟨c, hc⟩ := Dict.mem_iff_get?_isSome.1 ((h.mem_objects _).1 (Dict.mem_of_get? ho))
      obtain ⟨obj', ho', hshow⟩ := h.shows _ c hc
      rw [ho] at ho'
      cases ho'
      exact .inr (.inr ⟨_, c, hc, _, (hshow.mem_streams _).1 hs, rfl⟩)
  · rintro (rfl | ⟨k, hk, i, hi, rfl⟩ | ⟨k, c, hc, s, hs, rfl⟩)
    · exact .manager
    · exact .camera ((h.mem_objects k).2 hk) hi
    · obtain ⟨obj, ho, hshow⟩ := h.shows k c hc
      exact .stream ⟨obj, ho, (hshow.mem_streams s).2 hs⟩

end Mirror

attribute [local instance] asciiData

end IpCamera
end OpenBmc
