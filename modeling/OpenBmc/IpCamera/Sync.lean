import OpenBmc.IpCamera.Bus

/-!
# Synchronising

What `_sync_camera_interfaces` and `start` do to the bus. A synchronised camera shows its record
(`Shows`); only a display name that cannot be computed stops a synchronisation (`Synced`, `Stuck`).
After all cameras were synchronised the bus mirrors the store (`Mirrors`).
-/

namespace OpenBmc
namespace IpCamera
open Py

/-! ### Synchronising a camera -/

section Sync
variable {cfg : Config} {w : World} {slug : Slug}

theorem syncRemovals_spec {obj : CameraObject} {removed : List Slug} (h : BusOk cfg w)
    (ho : w.objects.get? slug = some obj) (hnd : removed.Nodup) :
    wp (forM removed fun s => do
        modifyObject slug fun obj => { obj with streams := obj.streams.erase s }
        busUnexport (streamPath cfg slug s) .stream)
      (fun _ w' => BusOk cfg w' ∧ ∃ d, w'.objects.get? slug = some { obj with streams := d } ∧
        ∀ s, s ∈ d ↔ s ∈ obj.streams ∧ s ∉ removed)
      (fun _ _ => False) w := by
  refine (wp_forM (E := fun _ _ => False) (I := fun rest w' => rest.Nodup ∧ (∀ s ∈ rest, s ∈ removed) ∧
    BusOk cfg w' ∧ ∃ d, w'.objects.get? slug = some { obj with streams := d } ∧
      ∀ s, s ∈ d ↔ s ∈ obj.streams ∧ (s ∈ removed → s ∈ rest)) ?_ ?_).mono ?_ fun _ _ h => h
  · exact ⟨hnd, fun _ hs => hs, h, obj.streams, ho, by simp⟩
  · rintro s rest w' ⟨hnd, hsub, hb, d, hd, hmem⟩
    obtain ⟨hs, hnd⟩ := List.nodup_cons.1 hnd
    rw [wp_bind, wp_modifyObject hd, wp_busUnexport]
    refine ⟨hnd, fun t ht => hsub t (by simp [ht]), hb.unexportStream hd fun t => by simp, d.erase s,
      by simp, fun t => ?_⟩
    have hsr := hsub s (by simp)
    simp only [Dict.mem_erase, hmem, List.mem_cons]
    by_cases ht : t = s
    · subst ht; simp [hs, hsr]
    · simp [ht]
  · rintro _ w' ⟨-, -, hb, d, hd, hmem⟩
    exact ⟨hb, d, hd, by simpa using hmem⟩

theorem syncAdditions_spec {obj : CameraObject} {existing : List Slug}
    {entries : List (Slug × StreamRec)} (h : BusOk cfg w) (ho : w.objects.get? slug = some obj)
    (hnd : (entries.map Prod.fst).Nodup)
    (hex : ∀ s ∈ entries.map Prod.fst, s ∈ existing ↔ s ∈ obj.streams) :
    wp (forM entries fun e => do
        (if e.1 ∈ existing then pure () else busExport (streamPath cfg slug e.1) .stream)
        modifyObject slug fun obj => { obj with streams := obj.streams.set e.1 e.2.props })
      (fun _ w' => BusOk cfg w' ∧ ∃ d, w'.objects.get? slug = some { obj with streams := d } ∧
        ∀ s, d.get? s = if s ∈ entries.map Prod.fst then (entries.lookup s).map StreamRec.props
          else obj.streams.get? s)
      (fun _ _ => False) w := by
  induction entries generalizing w obj with
  | nil => exact ⟨h, obj.streams, ho, by simp⟩
  | cons e entries ih =>
    obtain ⟨s, r⟩ := e
    obtain ⟨hs, hnd⟩ := List.nodup_cons.1 hnd
    have hset : ∀ w', BusOk cfg w' → w'.objects.get? slug =
        some { obj with streams := obj.streams.set s r.props } → wp (forM entries fun e => do
          (if e.1 ∈ existing then pure () else busExport (streamPath cfg slug e.1) .stream)
          modifyObject slug fun obj => { obj with streams := obj.streams.set e.1 e.2.props })
        (fun _ w' => BusOk cfg w' ∧ ∃ d, w'.objects.get? slug = some { obj with streams := d } ∧
          ∀ t, d.get? t = if t ∈ ((s, r) :: entries).map Prod.fst then
            (((s, r) :: entries).lookup t).map StreamRec.props else obj.streams.get? t)
        (fun _ _ => False) w' := fun w' hb ho' => by
      refine (ih hb ho' hnd fun t ht => ?_).mono ?_ fun _ _ h => h
      · have hne : t ≠ s := fun e => hs (e ▸ ht)
        simpa [hne] using hex t (List.mem_cons_of_mem _ ht)
      · rintro _ w'' ⟨hb', d, hd, hget⟩
        refine ⟨hb', d, hd, fun t => ?_⟩
        rw [hget t, Dict.lookup_cons_ite]
        by_cases hts : t = s
        · subst hts; simp [show t ∉ entries.map Prod.fst from hs]
        · simp only [List.map_cons, List.mem_cons, hts, false_or, if_false, Dict.get?_set]
    rw [List.forM_cons, wp_bind, wp_bind, wp_ite]
    have hexs := hex s (by simp)
    refine ⟨fun hm => ?_, fun hm => ?_⟩
    · rw [wp_pure, wp_modifyObject ho]
      refine hset _ (h.modifyObject ho fun t => ?_) (by simp)
      have := hexs.1 hm
      simp only [Dict.mem_set]
      exact ⟨fun ht => ht.elim (fun e => e ▸ this) id, .inr⟩
    · have hnew : s ∉ obj.streams := fun hx => hm (hexs.2 hx)
      have hbus : (streamPath cfg slug s, Iface.stream) ∉ w.bus := fun hx => by
        obtain ⟨obj', ho', hs'⟩ := Exported.stream_iff.1 ((h.mem _).1 hx)
        rw [ho] at ho'
        cases ho'
        exact hnew hs'
      rw [wp_busExport (isObjectPath_streamPath cfg slug s) hbus]
      have ho' : ({ w with bus := w.bus ++ [(streamPath cfg slug s, Iface.stream)] } :
          World).objects.get? slug = some obj := ho
      rw [wp_modifyObject ho']
      exact hset _ (h.exportStream ho hnew fun t => Dict.mem_set) (by simp)

theorem syncStreams_spec {obj : CameraObject} (h : BusOk cfg w) (ho : w.objects.get? slug = some obj)
    (streams : Dict Slug StreamRec) :
    wp (syncStreams cfg slug streams)
      (fun _ w' => BusOk cfg w' ∧ ∃ d, w'.objects.get? slug = some { obj with streams := d } ∧
        ∀ s, d.get? s = (streams.get? s).map StreamRec.props)
      (fun _ _ => False) w := by
  rw [syncStreams, wp_bind, wp_get]
  simp only [ho, Option.map_some, Option.getD_some]
  rw [wp_bind]
  refine (syncRemovals_spec h ho (obj.streams.keys_nodup.filter _)).mono ?_ fun _ _ h => h
  rintro _ w₁ ⟨hb₁, d₁, hd₁, hmem₁⟩
  have hkeep : ∀ s, s ∈ d₁ ↔ s ∈ obj.streams ∧ s ∈ streams := fun s => by
    simp only [hmem₁, List.mem_filter, decide_eq_true_eq, Dict.mem_iff_mem_keys]
    tauto
  refine (syncAdditions_spec hb₁ hd₁ streams.sorted.nodup fun s hs => ?_).mono ?_ fun _ _ h => h
  · have : s ∈ streams := Dict.mem_sorted.1 hs
    show s ∈ obj.streams ↔ s ∈ d₁
    rw [hkeep]; exact ⟨fun h => ⟨h, this⟩, fun h => h.1⟩
  · rintro _ w₂ ⟨hb₂, d₂, hd₂, hget₂⟩
    refine ⟨hb₂, d₂, hd₂, fun s => ?_⟩
    rw [hget₂ s]
    have hl : streams.sorted.entries.lookup s = streams.get? s := Dict.get?_sorted streams s
    by_cases hs : s ∈ streams
    · rw [if_pos (show s ∈ streams.sorted.entries.map Prod.fst from Dict.mem_sorted.2 hs), hl]
    · rw [if_neg (show s ∉ streams.sorted.entries.map Prod.fst from mt Dict.mem_sorted.1 hs),
        Dict.get?_eq_none_iff.2 hs]
      exact Dict.get?_eq_none_iff.2 fun h => hs ((hkeep s).1 h).2

variable [UnicodeData]

/-- The objects of a camera show its record. -/
structure Shows (cfg : Config) (slug : Slug) (c : Camera) (obj : CameraObject) : Prop where
  present : obj.present = c.present.getD false
  functional : obj.functional = c.functional.getD false
  asset : ∃ name, c.displayName = .ok name ∧ obj.asset = c.assetProps name
  device : obj.device = c.deviceProps (c.streams.sorted.keys.map (streamPath cfg slug))
  streams : ∀ s, obj.streams.get? s = (c.streams.get? s).map StreamRec.props

/-- `slug` was synchronised: its objects show its record. -/
structure Synced (cfg : Config) (slug : Slug) (w w' : World) : Prop where
  frame : BusFrame slug w w'
  bus : BusOk cfg w'
  shows : ∃ c obj, w.cameras.get? slug = some c ∧ w'.objects.get? slug = some obj ∧
    Shows cfg slug c obj
  manager : w'.manager = managerProps cfg w.cameras

/-- `slug` could not be synchronised, for want of a display name; it has its objects, unchanged or
new. -/
structure Stuck (cfg : Config) (slug : Slug) (e : PyError) (w w' : World) : Prop where
  frame : BusFrame slug w w'
  bus : BusOk cfg w'
  name : ∃ c, w.cameras.get? slug = some c ∧ c.displayName = .error e
  objects : w'.objects.get? slug = some ((w.objects.get? slug).getD CameraObject.initial)
  manager : w'.manager = w.manager

/-- A program that synchronises one camera. -/
def Syncs (cfg : Config) (body : Slug → Svc Unit) : Prop :=
  ∀ w slug, BusOk cfg w → slug ∈ w.cameras →
    wp (body slug) (fun _ => Synced cfg slug w) (fun e => Stuck cfg slug e w) w

theorem syncs_sync : Syncs cfg (syncCameraInterfaces cfg) := by
  intro w slug h hmem
  obtain ⟨c, hc⟩ := Dict.mem_iff_get?_isSome.1 hmem
  refine (busFrame_sync w).mp ?_
  rw [syncCameraInterfaces, wp_bind, wp_get]
  simp only [hc]
  rw [wp_bind]
  refine (exportCamera_spec h slug).mono ?_ fun _ _ h => h.elim
  rintro _ w₁ rfl
  set w₁ := if slug ∈ w.objects then w else w.exporting cfg slug with hw₁
  have hb₁ : BusOk cfg w₁ := by
    rw [hw₁]; split
    exacts [h, h.exporting ‹_›]
  have hobj₁ : ∃ obj, w₁.objects.get? slug = some obj := by
    rw [hw₁]; split
    · exact Dict.mem_iff_get?_isSome.1 ‹_›
    · exact ⟨CameraObject.initial, by simp [World.exporting]⟩
  have hcam₁ : w₁.cameras = w.cameras := by rw [hw₁]; split <;> rfl
  obtain ⟨obj, ho⟩ := hobj₁
  rw [wp_bind, wp_liftExcept]
  refine ⟨fun name hname => ?_, fun e he hframe => ⟨hframe, hb₁, ⟨c, hc, he⟩, ?_, ?_⟩⟩
  swap
  · rw [hw₁]; split
    · obtain ⟨obj', ho'⟩ := Dict.mem_iff_get?_isSome.1 ‹_›
      simp [ho']
    · simp [World.exporting, Dict.get?_eq_none_iff.2 ‹_›]
  swap
  · rw [hw₁]; split <;> rfl
  rw [wp_bind, wp_modifyObject ho, wp_bind]
  set obj₁ : CameraObject := { obj with
    present := c.present.getD false
    functional := c.functional.getD false
    asset := c.assetProps name } with hobj₁
  have hb₂ : BusOk cfg { w₁ with objects := w₁.objects.set slug obj₁ } :=
    hb₁.modifyObject ho fun s => Iff.rfl
  have ho₂ : ({ w₁ with objects := w₁.objects.set slug obj₁ } : World).objects.get? slug =
      some obj₁ := Dict.get?_set_self _ _ _
  refine ((syncStreams_spec hb₂ ho₂ c.streams).and (busFrame_syncStreams c.streams _)).mono ?_
    fun _ _ h => h.1.elim
  rintro _ w₃ ⟨⟨hb₃, d, hd, hget⟩, hf⟩
  rw [wp_bind, wp_modifyObject hd]
  have hcam₃ : w₃.cameras = w.cameras := hf.cameras.trans hcam₁
  set obj₃ : CameraObject := { obj₁ with
    streams := d
    device := c.deviceProps (c.streams.sorted.keys.map (streamPath cfg slug)) }
  have hb₄ : BusOk cfg { w₃ with objects := w₃.objects.set slug obj₃ } :=
    hb₃.modifyObject hd fun s => Iff.rfl
  refine fun hframe => ⟨hframe, hb₄.congr rfl (fun _ => Iff.rfl) fun _ _ => Iff.rfl, ⟨c, obj₃, hc,
    Dict.get?_set_self _ _ _, ⟨rfl, rfl, ⟨name, hname, rfl⟩, rfl, hget⟩⟩, ?_⟩
  simp only [hcam₃]

/-- What `start` does for each camera; the second export finds the objects there. -/
theorem syncs_export_sync :
    Syncs cfg (fun slug => do exportCamera cfg slug; syncCameraInterfaces cfg slug) := by
  intro w slug h hmem
  rw [wp_bind]
  refine ((exportCamera_spec h slug).and (busFrame_exportCamera w)).mono ?_ fun _ _ h => h.1.elim
  rintro _ w₁ ⟨hw₁, hf₁⟩
  have hb₁ : BusOk cfg w₁ := by
    rw [hw₁]; split
    exacts [h, h.exporting ‹_›]
  have hobj : w₁.objects.get? slug = some ((w.objects.get? slug).getD CameraObject.initial) := by
    rw [hw₁]; split
    · obtain ⟨obj', ho'⟩ := Dict.mem_iff_get?_isSome.1 ‹_›
      simp [ho']
    · simp [World.exporting, Dict.get?_eq_none_iff.2 ‹_›]
  have hman : w₁.manager = w.manager := by rw [hw₁]; split <;> rfl
  refine (syncs_sync w₁ slug hb₁ (hf₁.cameras ▸ hmem)).mono ?_ ?_
  · intro _ w₂ h₂
    refine ⟨trans_of (BusFrame slug) hf₁ h₂.frame, h₂.bus, ?_, ?_⟩
    · rw [← hf₁.cameras]; exact h₂.shows
    · rw [← hf₁.cameras]; exact h₂.manager
  · intro e w₂ h₂
    refine ⟨trans_of (BusFrame slug) hf₁ h₂.frame, h₂.bus, ?_, ?_, h₂.manager.trans hman⟩
    · rw [← hf₁.cameras]; exact h₂.name
    · rw [h₂.objects, hobj]; rfl

/-- Everything but the bus, the manager and the objects is the same. -/
structure SameStore (w w' : World) : Prop where
  cameras : w'.cameras = w.cameras
  file : w'.file = w.file
  go2rtc : w'.go2rtc = w.go2rtc
  sent : w'.sent = w.sent
  written : w'.written = w.written

omit [UnicodeData] in
theorem BusFrame.store {w' : World} (h : BusFrame slug w w') : SameStore w w' :=
  ⟨h.1, h.2, h.3, h.4, h.5⟩

omit [UnicodeData] in
theorem SameStore.trans {w' w'' : World} (h : SameStore w w') (h' : SameStore w' w'') :
    SameStore w w'' :=
  ⟨h'.1.trans h.1, h'.2.trans h.2, h'.3.trans h.3, h'.4.trans h.4, h'.5.trans h.5⟩

/-- The cameras of `l` were synchronised, one after the other. -/
structure SyncedAll (cfg : Config) (l : List Slug) (w w' : World) : Prop where
  store : SameStore w w'
  bus : BusOk cfg w'
  shows : ∀ k ∈ l, ∃ c obj, w.cameras.get? k = some c ∧ w'.objects.get? k = some obj ∧
    Shows cfg k c obj
  others : ∀ k, k ∉ l → w'.objects.get? k = w.objects.get? k
  manager : w'.manager = if l = [] then w.manager else managerProps cfg w.cameras

theorem Synced.cons {l : List Slug} {w₁ w₂ : World} (h : Synced cfg slug w w₁)
    (h' : SyncedAll cfg l w₁ w₂) (hs : slug ∉ l) : SyncedAll cfg (slug :: l) w w₂ where
  store := h.frame.store.trans h'.store
  bus := h'.bus
  shows k hk := by
    rcases List.mem_cons.1 hk with rfl | hk
    · obtain ⟨c, obj, hc, ho, hshow⟩ := h.shows
      exact ⟨c, obj, hc, (h'.others _ hs).trans ho, hshow⟩
    · rw [← h.frame.cameras]; exact h'.shows k hk
  others k hk := by
    simp only [List.mem_cons, not_or] at hk
    rw [h'.others k hk.2, h.frame.others k hk.1]
  manager := by
    rw [h'.manager, h.manager, h.frame.cameras]
    split <;> simp

/-- A loop of synchronisations synchronises every camera, or those before the first one that has no
display name. -/
theorem Syncs.forM {body : Slug → Svc Unit} (hbody : Syncs cfg body) {l : List Slug} (hnd : l.Nodup)
    (h : BusOk cfg w) (hl : ∀ k ∈ l, k ∈ w.cameras) :
    wp (forM l body) (fun _ w' => SyncedAll cfg l w w')
      (fun e w' => ∃ done k rest w₁, l = done ++ k :: rest ∧ SyncedAll cfg done w w₁ ∧
        Stuck cfg k e w₁ w') w := by
  induction l generalizing w with
  | nil => exact ⟨⟨rfl, rfl, rfl, rfl, rfl⟩, h, by simp, fun _ _ => rfl, rfl⟩
  | cons slug l ih =>
    obtain ⟨hs, hnd⟩ := List.nodup_cons.1 hnd
    rw [List.forM_cons, wp_bind]
    refine (hbody w slug h (hl slug (by simp))).mono ?_ ?_
    · intro _ w₁ h₁
      refine (ih hnd h₁.bus fun k hk => h₁.frame.cameras ▸ hl k (by simp [hk])).mono ?_ ?_
      · intro _ w₂ h₂
        exact h₁.cons h₂ hs
      · rintro e w₂ ⟨done, k, rest, w₃, rfl, hdone, hstuck⟩
        exact ⟨slug :: done, k, rest, w₃, rfl, h₁.cons hdone fun hm => hs (by simp [hm]), hstuck⟩
    · intro e w₁ h₁
      exact ⟨[], slug, l, w, rfl, ⟨⟨rfl, rfl, rfl, rfl, rfl⟩, h, by simp, fun _ _ => rfl, rfl⟩, h₁⟩

/-! ### Removing a camera's objects -/

omit [UnicodeData] in
theorem wp_busUnexports {α : Type} {l : List α} {f : α → Str × Iface} {Q : Unit → World → Prop}
    {E : PyError → World → Prop} :
    wp (forM l fun x => busUnexport (f x).1 (f x).2) Q E w ↔
      Q () { w with bus := w.bus.filter (· ∉ l.map f) } := by
  induction l generalizing w with
  | nil => simp
  | cons x l ih =>
    rw [List.forM_cons, wp_bind, wp_busUnexport, ih]
    simp only [List.filter_filter, List.map_cons, List.mem_cons, not_or, Bool.decide_and]
    rw [show (fun a => decide (a ∉ l.map f) && decide (a ≠ ((f x).1, (f x).2))) =
      fun a => decide (a ≠ f x) && decide (a ∉ l.map f) from funext fun a => Bool.and_comm _ _]

omit [UnicodeData] in
theorem unexportCamera_spec (h : BusOk cfg w) (slug : Slug) :
    wp (unexportCamera cfg slug)
      (fun _ w' => BusOk cfg w' ∧ w'.manager = w.manager ∧ w'.objects.get? slug = none)
      (fun _ _ => False) w := by
  rw [unexportCamera, wp_bind, wp_get]
  rcases ho : w.objects.get? slug with _ | obj
  · exact ⟨h, rfl, ho⟩
  · show wp (_ >>= _) _ _ _
    rw [wp_bind, wp_modify, wp_bind]
    refine (wp_busUnexports (f := fun s => (streamPath cfg slug s, .stream))).2 ?_
    refine (wp_busUnexports (f := fun i => (cameraPath cfg slug, i))).2 ⟨⟨fun e => ?_, ?_⟩, rfl, by simp⟩
    · have hother : ∀ k s, k ≠ slug →
          (HasStream (w.objects.erase slug) k s ↔ HasStream w.objects k s) := fun k s hk => by
        simp [HasStream, hk]
      simp only [List.mem_filter, h.mem, decide_eq_true_eq, List.mem_map, not_exists, not_and]
      constructor
      · rintro ⟨⟨he, hs⟩, hi⟩
        cases he with
        | manager => exact .manager
        | camera hk hm =>
          refine .camera (Dict.mem_erase.2 ⟨?_, hk⟩) hm
          rintro rfl
          exact hi _ hm rfl
        | stream hk =>
          rename_i k s
          have hne : k ≠ slug := by
            rintro rfl
            obtain ⟨obj', ho', hm⟩ := hk
            rw [ho] at ho'
            cases ho'
            exact hs s hm rfl
          exact .stream ((hother k s hne).2 hk)
      · intro he
        cases he with
        | manager => exact ⟨⟨.manager, by simp⟩, by simp [cameraIfaces]⟩
        | camera hk hm =>
          obtain ⟨hne, hk⟩ := Dict.mem_erase.1 hk
          refine ⟨⟨.camera hk hm, fun s _ e => ?_⟩, fun i _ e => hne ?_⟩
          · obtain ⟨-, rfl⟩ := Prod.mk.inj e
            simp [cameraIfaces] at hm
          · exact (cameraPath_inj.1 (Prod.mk.inj e).1).symm
        | stream hk =>
          rename_i k s
          have hne : k ≠ slug := by
            rintro rfl
            obtain ⟨obj', ho', -⟩ := hk
            simp at ho'
          refine ⟨⟨.stream ((hother k s hne).1 hk), fun t _ e => hne ?_⟩, fun i hi e => ?_⟩
          · exact (streamPath_inj.1 (Prod.mk.inj e).1).1.symm
          · obtain ⟨-, rfl⟩ := Prod.mk.inj e
            simp [cameraIfaces] at hi
    · exact (h.nodup.filter _).filter _

/-! ### Starting -/

/-- The bus mirrors the store: the objects are those of the recorded cameras, and they show the
records. -/
structure Mirrors (cfg : Config) (w : World) : Prop where
  bus : BusOk cfg w
  shows : ∀ k c, w.cameras.get? k = some c → ∃ obj, w.objects.get? k = some obj ∧ Shows cfg k c obj
  gone : ∀ k, k ∉ w.cameras → w.objects.get? k = none
  manager : w.manager = managerProps cfg w.cameras

theorem SyncedAll.mirrors {w' : World} (h : SyncedAll cfg w.cameras.keys w w')
    (hgone : ∀ k, k ∉ w.cameras → w.objects.get? k = none)
    (hm : w.cameras.keys = [] → w.manager = managerProps cfg w.cameras) : Mirrors cfg w' where
  bus := h.bus
  shows k c hc := by
    rw [h.store.cameras] at hc
    obtain ⟨c', obj, hc', ho, hs⟩ := h.shows k (Dict.mem_of_get? hc)
    rw [hc] at hc'
    cases hc'
    exact ⟨obj, ho, hs⟩
  gone k hk := by
    rw [h.store.cameras] at hk
    exact (h.others k hk).trans (hgone k hk)
  manager := by
    rw [h.manager, h.store.cameras]
    split
    exacts [hm ‹_›, rfl]

/-- A new process exports its cameras and synchronises them, or fails for want of a display name. -/
theorem start_spec (cfg : Config) (file : Option Store) (go2rtc : Go2rtc) :
    wp (start cfg) (fun _ w' => Mirrors cfg w' ∧ SameStore (newProcess file go2rtc) w')
      (fun e _ => ∃ k c, (file.getD Dict.empty).get? k = some c ∧ c.displayName = .error e)
      (newProcess file go2rtc) := by
  rw [start, wp_bind, wp_busExport (by decide) (by simp [newProcess]), wp_bind, wp_get, wp_bind]
  set w₀ : World := { newProcess file go2rtc with
    bus := (newProcess file go2rtc).bus ++ [(managerPath, .manager)] } with hw₀
  have hstore : SameStore (newProcess file go2rtc) w₀ := ⟨rfl, rfl, rfl, rfl, rfl⟩
  have hb₀ : BusOk cfg w₀ := by
    refine ⟨fun e => ?_, by simp [hw₀, newProcess]⟩
    simp only [hw₀, newProcess, List.nil_append, List.mem_singleton]
    constructor
    · rintro rfl; exact .manager
    · rintro (_ | ⟨hk, -⟩ | ⟨obj, ho, -⟩)
      · rfl
      · simp [Dict.mem_iff_mem_keys] at hk
      · simp at ho
  refine (syncs_export_sync.forM w₀.cameras.keys_nodup hb₀ fun k hk => hk).mono ?_ ?_
  · intro _ w₁ h₁
    have hcam : w₁.cameras = w₀.cameras := h₁.store.cameras
    have hm : Mirrors cfg { w₁ with manager := managerProps cfg w₁.cameras } := by
      refine SyncedAll.mirrors (w := { w₀ with manager := managerProps cfg w₀.cameras })
        ⟨⟨hcam, h₁.store.2, h₁.store.3, h₁.store.4, h₁.store.5⟩, ?_, h₁.shows, h₁.others, ?_⟩ (fun k _ => rfl) fun _ => rfl
      · exact h₁.bus.congr rfl (fun _ => Iff.rfl) fun _ _ => Iff.rfl
      · simp [hcam]
    exact ⟨hm, hstore.trans ⟨hcam, h₁.store.2, h₁.store.3, h₁.store.4, h₁.store.5⟩⟩
  · rintro e w' ⟨done, k, rest, w₁, -, hdone, hstuck⟩
    obtain ⟨c, hc, he⟩ := hstuck.name
    rw [hdone.store.cameras] at hc
    exact ⟨k, c, hc, he⟩

end Sync

end IpCamera
end OpenBmc
