import OpenBmc.IpCamera.Service

/-!
# Exported objects

`BusOk`: the bus holds the manager's interface and those of the camera objects, each once. Exporting
keeps this, so no path is ever exported twice and an export never raises (`exportCamera_spec`).
`BusFrame` says what such work leaves alone.
-/

namespace OpenBmc
namespace IpCamera
open Py

/-! ### Paths -/

section Paths
variable {cfg : Config} {a b s t : Slug}

theorem isObjectPath_append {root elem : Str} (hr : root = [] ∨ isObjectPath root)
    (he : isPathElement elem) (hs : '/' ∉ elem) : isObjectPath (root ++ '/' :: elem) := by
  rcases hr with rfl | hr
  · simp [isObjectPath, List.splitOn_eq_singleton hs, he]
  · match root with
    | [] => simp [isObjectPath] at hr
    | c :: cs =>
      unfold isObjectPath at hr
      split at hr
      · rename_i rest heq
        obtain ⟨rfl, rfl⟩ := List.cons.inj heq
        simp only [List.cons_append, isObjectPath, List.splitOn_append_cons_self, List.all_append,
          List.splitOn_eq_singleton hs, hr, he, List.all_cons, List.all_nil, Bool.and_self]
      · cases hr

theorem isObjectPath_cameraPath (cfg : Config) (slug : Slug) : isObjectPath (cameraPath cfg slug) :=
  isObjectPath_append cfg.root_valid (isPathElement_slug slug) slug.isSlug.not_mem_slash

theorem streamPath_eq (cfg : Config) (slug streamSlug : Slug) : streamPath cfg slug streamSlug =
    (cameraPath cfg slug ++ '/' :: "stream".toList) ++ '/' :: streamSlug.val := by
  simp [streamPath]

theorem isObjectPath_streamPath (cfg : Config) (slug streamSlug : Slug) :
    isObjectPath (streamPath cfg slug streamSlug) := by
  rw [streamPath_eq]
  exact isObjectPath_append (.inr (isObjectPath_append (.inr (isObjectPath_cameraPath cfg slug))
    (by decide) (by decide))) (isPathElement_slug streamSlug) streamSlug.isSlug.not_mem_slash

theorem cameraPath_inj : cameraPath cfg a = cameraPath cfg b ↔ a = b := by
  refine ⟨fun h => ?_, fun h => h ▸ rfl⟩
  simpa [cameraPath, Slug.ext_iff] using h

theorem streamPath_inj : streamPath cfg a s = streamPath cfg b t ↔ a = b ∧ s = t := by
  refine ⟨fun h => ?_, fun h => h.1 ▸ h.2 ▸ rfl⟩
  have h : a.val ++ '/' :: ("stream/".toList ++ s.val) = b.val ++ '/' :: ("stream/".toList ++ t.val) := by
    simpa [streamPath, cameraPath] using h
  have hp := congrArg (partition '/') h
  rw [partition_append a.isSlug.not_mem_slash, partition_append b.isSlug.not_mem_slash] at hp
  obtain ⟨ha, hs⟩ := Prod.mk.inj hp
  exact ⟨Slug.ext ha, Slug.ext (by simpa using hs)⟩

end Paths

/-! ### The bus matches the objects -/

/-- The objects of the camera `slug` export the stream `s`. -/
def HasStream (objects : Dict Slug CameraObject) (slug s : Slug) : Prop :=
  ∃ obj, objects.get? slug = some obj ∧ s ∈ obj.streams

/-- What the camera objects export. -/
inductive Exported (cfg : Config) (objects : Dict Slug CameraObject) : Str × Iface → Prop
  | manager : Exported cfg objects (managerPath, .manager)
  | camera {slug i} : slug ∈ objects → i ∈ cameraIfaces → Exported cfg objects (cameraPath cfg slug, i)
  | stream {slug s} : HasStream objects slug s → Exported cfg objects (streamPath cfg slug s, .stream)

structure BusOk (cfg : Config) (w : World) : Prop where
  mem : ∀ e, e ∈ w.bus ↔ Exported cfg w.objects e
  nodup : w.bus.Nodup

section
variable {cfg : Config} {w w' : World} {slug : Slug}

theorem Exported.camera_iff {objects : Dict Slug CameraObject} {i : Iface} (hi : i ∈ cameraIfaces) :
    Exported cfg objects (cameraPath cfg slug, i) ↔ slug ∈ objects := by
  refine ⟨fun h => ?_, fun h => .camera h hi⟩
  generalize he : (cameraPath cfg slug, i) = e at h
  cases h with
  | manager => obtain ⟨-, rfl⟩ := Prod.mk.inj he; simp [cameraIfaces] at hi
  | camera h _ => rw [cameraPath_inj.1 (Prod.mk.inj he).1]; exact h
  | stream _ => obtain ⟨-, rfl⟩ := Prod.mk.inj he; simp [cameraIfaces] at hi

theorem Exported.stream_iff {objects : Dict Slug CameraObject} {s : Slug} :
    Exported cfg objects (streamPath cfg slug s, .stream) ↔ HasStream objects slug s := by
  refine ⟨fun h => ?_, .stream⟩
  generalize he : (streamPath cfg slug s, Iface.stream) = e at h
  cases h with
  | manager => have := (Prod.mk.inj he).2; cases this
  | camera _ hi => obtain ⟨-, rfl⟩ := Prod.mk.inj he; simp [cameraIfaces] at hi
  | stream h =>
    obtain ⟨rfl, rfl⟩ := streamPath_inj.1 (Prod.mk.inj he).1
    exact h

theorem Exported.mono {objects objects' : Dict Slug CameraObject}
    (hm : ∀ k, k ∈ objects → k ∈ objects')
    (hs : ∀ k s, HasStream objects k s → HasStream objects' k s) {e : Str × Iface}
    (h : Exported cfg objects e) : Exported cfg objects' e := by
  cases h with
  | manager => exact .manager
  | camera h hi => exact .camera (hm _ h) hi
  | stream h => exact .stream (hs _ _ h)

/-- Only which cameras and streams have objects matters, not the property values. -/
theorem BusOk.congr (h : BusOk cfg w) (hb : w'.bus = w.bus)
    (hm : ∀ k, k ∈ w'.objects ↔ k ∈ w.objects)
    (hs : ∀ k s, HasStream w'.objects k s ↔ HasStream w.objects k s) : BusOk cfg w' where
  mem e := by
    rw [hb, h.mem]
    exact ⟨Exported.mono (fun k => (hm k).2) fun k s => (hs k s).2,
      Exported.mono (fun k => (hm k).1) fun k s => (hs k s).1⟩
  nodup := hb ▸ h.nodup

/-! ### Exporting and removing interfaces -/

theorem wp_busExport {path : Str} {iface : Iface} {Q : Unit → World → Prop}
    {E : PyError → World → Prop} (hp : isObjectPath path) (hn : (path, iface) ∉ w.bus) :
    wp (busExport path iface) Q E w ↔ Q () { w with bus := w.bus ++ [(path, iface)] } := by
  rw [busExport, if_neg (by simpa using hp), wp_bind, wp_get, if_neg hn]
  exact Iff.rfl

theorem wp_busExports {path : Str} {ifaces : List Iface} {Q : Unit → World → Prop}
    {E : PyError → World → Prop} (hp : isObjectPath path) (hnd : ifaces.Nodup)
    (hn : ∀ i ∈ ifaces, (path, i) ∉ w.bus)
    (hQ : Q () { w with bus := w.bus ++ ifaces.map fun i => (path, i) }) :
    wp (forM ifaces (busExport path)) Q E w := by
  induction ifaces generalizing w with
  | nil => simpa using hQ
  | cons i ifaces ih =>
    obtain ⟨hi, hnd⟩ := List.nodup_cons.1 hnd
    rw [List.forM_cons, wp_bind, wp_busExport hp (hn i (by simp))]
    refine ih hnd (fun j hj hm => ?_) (by simpa using hQ)
    simp only [List.mem_append, List.mem_singleton, Prod.mk.injEq, true_and] at hm
    rcases hm with hm | rfl
    · exact hn j (by simp [hj]) hm
    · exact hi hj

@[simp] theorem wp_busUnexport {path : Str} {iface : Iface} {Q : Unit → World → Prop}
    {E : PyError → World → Prop} : wp (busUnexport path iface) Q E w ↔
      Q () { w with bus := w.bus.filter (· ≠ (path, iface)) } := Iff.rfl

theorem wp_modifyObject {f : CameraObject → CameraObject} {obj : CameraObject}
    {Q : Unit → World → Prop} {E : PyError → World → Prop} (h : w.objects.get? slug = some obj) :
    wp (modifyObject slug f) Q E w ↔ Q () { w with objects := w.objects.set slug (f obj) } := by
  simp only [modifyObject, wp_modify, h]

/-- The camera `slug` gets its objects. -/
def World.exporting (w : World) (cfg : Config) (slug : Slug) : World :=
  { w with
    objects := w.objects.set slug CameraObject.initial
    bus := w.bus ++ cameraIfaces.map fun i => (cameraPath cfg slug, i) }

theorem exportCamera_spec (h : BusOk cfg w) (slug : Slug) :
    wp (exportCamera cfg slug) (fun _ w' => w' = if slug ∈ w.objects then w else w.exporting cfg slug)
      (fun _ _ => False) w := by
  rw [exportCamera, wp_bind, wp_get]
  by_cases hs : slug ∈ w.objects
  · simp only [hs, if_true]
    exact rfl
  · have hpath := isObjectPath_cameraPath cfg slug
    have hnew : ∀ i ∈ cameraIfaces, (cameraPath cfg slug, i) ∉ w.bus := fun i hi hm =>
      hs ((Exported.camera_iff hi).1 ((h.mem _).1 hm))
    rw [if_neg hs, wp_bind, wp_modify]
    exact wp_busExports hpath (by decide) hnew (by rw [if_neg hs]; rfl)

theorem BusOk.exporting (h : BusOk cfg w) (hs : slug ∉ w.objects) :
    BusOk cfg (w.exporting cfg slug) where
  mem e := by
    have hempty : ∀ s, ¬ HasStream (w.exporting cfg slug).objects slug s := fun s ⟨obj, ho, hm⟩ => by
      simp only [World.exporting, Dict.get?_set_self, Option.some.injEq] at ho
      subst ho
      simp [CameraObject.initial, Dict.mem_iff_mem_keys] at hm
    have hother : ∀ k s, k ≠ slug →
        (HasStream (w.exporting cfg slug).objects k s ↔ HasStream w.objects k s) := fun k s hk => by
      simp [HasStream, World.exporting, hk]
    simp only [World.exporting, List.mem_append, h.mem, List.mem_map]
    constructor
    · rintro (he | ⟨i, hi, rfl⟩)
      · refine he.mono (fun k hk => by simp [hk]) fun k s hk => ?_
        have hne : k ≠ slug := by
          rintro rfl
          obtain ⟨obj, ho, -⟩ := hk
          exact hs (Dict.mem_of_get? ho)
        exact (hother k s hne).2 hk
      · exact .camera (by simp) hi
    · rintro (_ | ⟨hk, hi⟩ | ⟨hk⟩)
      · exact .inl .manager
      · rcases Dict.mem_set.1 hk with rfl | hk
        · exact .inr ⟨_, hi, rfl⟩
        · exact .inl (.camera hk hi)
      · rename_i k s
        by_cases hne : k = slug
        · subst hne; exact absurd hk (hempty s)
        · exact .inl (.stream ((hother k s hne).1 hk))
  nodup := by
    refine List.nodup_append.2 ⟨h.nodup, ?_, fun a ha b hb hab => ?_⟩
    · exact List.Nodup.map (fun a b hab => (Prod.mk.inj hab).2) (by decide)
    · obtain ⟨i, hi, rfl⟩ := List.mem_map.1 hb
      subst hab
      exact hs ((Exported.camera_iff hi).1 ((h.mem _).1 ha))

theorem BusOk.modifyObject {obj obj' : CameraObject} (h : BusOk cfg w)
    (ho : w.objects.get? slug = some obj) (hk : ∀ s, s ∈ obj'.streams ↔ s ∈ obj.streams) :
    BusOk cfg { w with objects := w.objects.set slug obj' } := by
  refine h.congr rfl (fun k => ?_) fun k s => ?_
  · have := Dict.mem_of_get? ho
    simp only [Dict.mem_set]
    exact ⟨fun hk => hk.elim (fun hk => hk ▸ this) id, .inr⟩
  · by_cases hne : k = slug
    · subst hne; simp [HasStream, ho, hk]
    · simp [HasStream, hne]

/-- A stream of `slug` leaves the objects and the bus together. -/
theorem BusOk.unexportStream {obj obj' : CameraObject} {s : Slug} (h : BusOk cfg w)
    (ho : w.objects.get? slug = some obj) (hk : ∀ t, t ∈ obj'.streams ↔ t ≠ s ∧ t ∈ obj.streams) :
    BusOk cfg { w with
      objects := w.objects.set slug obj'
      bus := w.bus.filter (· ≠ (streamPath cfg slug s, .stream)) } where
  mem e := by
    have hslug := Dict.mem_of_get? ho
    have hstream : ∀ k t, HasStream (w.objects.set slug obj') k t ↔
        HasStream w.objects k t ∧ ¬ (k = slug ∧ t = s) := fun k t => by
      by_cases hne : k = slug
      · subst hne
        simp [HasStream, ho, hk]
        tauto
      · simp [HasStream, hne]
    simp only [List.mem_filter, h.mem, decide_eq_true_eq]
    constructor
    · rintro ⟨he, hne⟩
      cases he with
      | manager => exact .manager
      | camera hk hi => exact .camera (by simp [hk]) hi
      | stream hk =>
        exact .stream ((hstream _ _).2 ⟨hk, fun h => hne (by rw [h.1, h.2])⟩)
    · rintro (_ | ⟨hk, hi⟩ | ⟨hk⟩)
      · exact ⟨.manager, by simp⟩
      · refine ⟨.camera ((Dict.mem_set.1 hk).elim (fun e => e ▸ hslug) id) hi, fun he => ?_⟩
        obtain ⟨-, rfl⟩ := Prod.mk.inj he
        simp [cameraIfaces] at hi
      · obtain ⟨hk, hne⟩ := (hstream _ _).1 hk
        exact ⟨.stream hk, fun he => hne (streamPath_inj.1 (Prod.mk.inj he).1)⟩
  nodup := h.nodup.filter _

/-- A stream of `slug` joins the objects and the bus together. -/
theorem BusOk.exportStream {obj obj' : CameraObject} {s : Slug} (h : BusOk cfg w)
    (ho : w.objects.get? slug = some obj) (hs : s ∉ obj.streams)
    (hk : ∀ t, t ∈ obj'.streams ↔ t = s ∨ t ∈ obj.streams) :
    BusOk cfg { w with
      objects := w.objects.set slug obj'
      bus := w.bus ++ [(streamPath cfg slug s, .stream)] } where
  mem e := by
    have hslug := Dict.mem_of_get? ho
    have hstream : ∀ k t, HasStream (w.objects.set slug obj') k t ↔
        HasStream w.objects k t ∨ k = slug ∧ t = s := fun k t => by
      by_cases hne : k = slug
      · subst hne
        simp [HasStream, ho, hk]
        tauto
      · simp [HasStream, hne]
    simp only [List.mem_append, h.mem, List.mem_singleton]
    constructor
    · rintro (he | rfl)
      · exact he.mono (fun k hk => by simp [hk]) fun k t hk => (hstream k t).2 (.inl hk)
      · exact .stream ((hstream _ _).2 (.inr ⟨rfl, rfl⟩))
    · rintro (_ | ⟨hk, hi⟩ | ⟨hk⟩)
      · exact .inl .manager
      · exact .inl (.camera ((Dict.mem_set.1 hk).elim (fun e => e ▸ hslug) id) hi)
      · rcases (hstream _ _).1 hk with hk | ⟨rfl, rfl⟩
        · exact .inl (.stream hk)
        · exact .inr rfl
  nodup := by
    refine List.nodup_append.2 ⟨h.nodup, List.nodup_singleton _, fun a ha b hb hab => ?_⟩
    rw [List.mem_singleton.1 hb] at hab
    subst hab
    obtain ⟨obj'', ho', hm⟩ := Exported.stream_iff.1 ((h.mem _).1 ha)
    rw [ho] at ho'
    cases ho'
    exact hs hm

end

/-! ### What a synchronisation leaves alone -/

/-- Only the bus, the manager and the objects of `slug` may differ. -/
structure BusFrame (slug : Slug) (w w' : World) : Prop where
  cameras : w'.cameras = w.cameras
  file : w'.file = w.file
  go2rtc : w'.go2rtc = w.go2rtc
  sent : w'.sent = w.sent
  written : w'.written = w.written
  others : ∀ k, k ≠ slug → w'.objects.get? k = w.objects.get? k

instance (slug : Slug) : IsPreorder World (BusFrame slug) where
  refl _ := ⟨rfl, rfl, rfl, rfl, rfl, fun _ _ => rfl⟩
  trans _ _ _ h h' := ⟨h'.1.trans h.1, h'.2.trans h.2, h'.3.trans h.3, h'.4.trans h.4, h'.5.trans h.5,
    fun k hk => (h'.6 k hk).trans (h.6 k hk)⟩

section Frame
variable {cfg : Config} {slug : Slug}

theorem busFrame_busExport (path : Str) (iface : Iface) :
    Leaves (BusFrame slug) (busExport path iface) := by
  unfold busExport
  refine .ite (.throw _) (.bind .get fun w => .ite (.throw _) (.modify fun w => ?_))
  exact ⟨rfl, rfl, rfl, rfl, rfl, fun _ _ => rfl⟩

theorem busFrame_busUnexport (path : Str) (iface : Iface) :
    Leaves (BusFrame slug) (busUnexport path iface) :=
  .modify fun _ => ⟨rfl, rfl, rfl, rfl, rfl, fun _ _ => rfl⟩

theorem busFrame_modifyObject (f : CameraObject → CameraObject) :
    Leaves (BusFrame slug) (modifyObject slug f) := by
  refine .modify fun w => ?_
  split
  · exact refl_of (BusFrame slug) w
  · exact ⟨rfl, rfl, rfl, rfl, rfl, fun k hk => by simp [hk]⟩

theorem busFrame_exportCamera : Leaves (BusFrame slug) (exportCamera cfg slug) := by
  refine .bind .get fun w => .ite (.pure _) (.bind (.modify fun w => ?_) fun _ =>
    .forM fun i _ => busFrame_busExport _ i)
  exact ⟨rfl, rfl, rfl, rfl, rfl, fun k hk => by simp [hk]⟩

theorem busFrame_unexportCamera : Leaves (BusFrame slug) (unexportCamera cfg slug) := by
  refine .bind .get fun w => ?_
  split
  · exact .pure _
  · refine .bind (.modify fun w => ?_) fun _ => .bind (.forM fun s _ => busFrame_busUnexport _ _)
      fun _ => .forM fun i _ => busFrame_busUnexport _ i
    exact ⟨rfl, rfl, rfl, rfl, rfl, fun k hk => by simp [hk]⟩

theorem busFrame_syncManager : Leaves (BusFrame slug) (syncManager cfg) :=
  .modify fun _ => ⟨rfl, rfl, rfl, rfl, rfl, fun _ _ => rfl⟩

theorem busFrame_syncStreams (streams : Dict Slug StreamRec) :
    Leaves (BusFrame slug) (syncStreams cfg slug streams) := by
  refine .bind .get fun w => .bind (.forM fun s _ => .bind (busFrame_modifyObject _) fun _ =>
    busFrame_busUnexport _ _) fun _ => .forM fun e _ => ?_
  exact .bind (.ite (.pure _) (busFrame_busExport _ _)) fun _ => busFrame_modifyObject _

theorem busFrame_sync [UnicodeData] : Leaves (BusFrame slug) (syncCameraInterfaces cfg slug) := by
  refine .bind .get fun w => ?_
  split
  · exact .throw _
  · exact .bind busFrame_exportCamera fun _ => .bind (.liftExcept _) fun _ =>
      .bind (busFrame_modifyObject _) fun _ => .bind (busFrame_syncStreams _) fun _ =>
      .bind (busFrame_modifyObject _) fun _ => busFrame_syncManager

end Frame

end IpCamera
end OpenBmc
