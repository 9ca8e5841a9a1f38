import OpenBmc.IpCamera.Mirror
import OpenBmc.IpCamera.Streams

/-!
# Restarting from the state file

The state file lists every object's keys in order, so a record read back may list its streams, and
print a nested value, in another order than the record saved. A record that does not (`Steady`) looks
the same on the bus after a restart, and its `StreamNames` are in the order of its `Profiles`. The
records stay steady in a run whose profile lists are in the order of their stream names (`Ordered`).
-/

namespace OpenBmc
namespace IpCamera
open Py

/-! ### The file is the store -/

theorem Camera.reloaded_reloaded (c : Camera) : c.reloaded.reloaded = c.reloaded := by
  have hopt : ∀ o : Option Json, (o.map Json.sortKeys).map Json.sortKeys = o.map Json.sortKeys :=
    fun o => by cases o <;> simp [Json.sortKeys_sortKeys]
  simp only [Camera.reloaded, hopt, Dict.sorted_sorted]

theorem keys_reload (store : Store) : (reload store).keys = store.keys.insertionSort (· ≤ ·) := by
  rw [reload, Dict.keys_sorted, Dict.keys_mapValues]

theorem reload_reload (store : Store) : reload (reload store) = reload store := by
  refine Dict.ext_get? ?_ fun k => ?_
  · rw [keys_reload, keys_reload]
    exact (List.pairwise_insertionSort _ _).insertionSort_eq
  · rw [get?_reload, get?_reload, Option.map_map]
    cases store.get? k <;> simp [Camera.reloaded_reloaded]

/-- The state file holds the store; a store never saved is empty. -/
def OnFile (w : World) : Prop :=
  w.file = some (reload w.cameras) ∨ w.file = none ∧ w.cameras = Dict.empty

theorem OnFile.same {w w' : World} (h : OnFile w) (hc : w'.cameras = w.cameras)
    (hf : w'.file = w.file) : OnFile w' := by
  unfold OnFile
  rw [hc, hf]; exact h

instance : IsPreorder World SameStore where
  refl _ := ⟨rfl, rfl, rfl, rfl, rfl⟩
  trans _ _ _ := SameStore.trans

theorem ends_saveState {env : Env} : Ends OnFile (saveState env) := fun _ =>
  wp_saveState.2 ⟨fun _ => .inl rfl, fun _ _ => trivial⟩

section File
variable [UnicodeData] {cfg : Config} {env : Env} {w w' : World} {slug : Slug}

theorem sameStore_sync : Leaves SameStore (syncCameraInterfaces cfg slug) :=
  busFrame_sync.mono fun _ _ => BusFrame.store

omit [UnicodeData] in
theorem OnFile.sameStore (h : OnFile w) (hs : SameStore w w') : OnFile w' :=
  h.same hs.cameras hs.file

theorem ends_refreshOne {imports : Bool} : Ends OnFile (refreshOne cfg env slug imports) :=
  .bind fun _ => .bind_leaves ends_saveState (fun _ => sameStore_sync) fun _ _ => OnFile.sameStore

theorem ends_refreshAll : Ends OnFile (refreshAll cfg env) :=
  .bind fun _ => .bind fun _ => .bind_leaves ends_saveState
    (fun _ => .bind .get fun _ => .forM fun _ _ => sameStore_sync) fun _ _ => OnFile.sameStore

omit [UnicodeData] in
theorem ends_removeCameraByPath {path : Str} : Ends OnFile (removeCameraByPath cfg env path) :=
  .bind fun w => by
    split
    · exact .throw _
    · exact .bind fun _ => .bind fun _ => .bind fun _ => .bind_leaves ends_saveState
        (fun _ => .modify fun _ => ⟨rfl, rfl, rfl, rfl, rfl⟩) fun _ _ => OnFile.sameStore

/-- An operation that returns leaves the store on file. -/
theorem body_onFile {op : Op} (h : OnFile w) :
    wp (op.body cfg env) (fun _ => OnFile) (fun _ _ => True) w := by
  have hreq : ∀ {m : Svc Unit}, Leaves OnlyRequests m →
      wp m (fun _ => OnFile) (fun _ _ => True) w := fun hm =>
    (hm w).mono (fun _ _ hr => h.same hr.cameras hr.file) fun _ _ _ => trivial
  cases op with
  | discoverAndRefresh =>
    have hend : Ends OnFile (discoverAndRefresh cfg env) :=
      .bind fun _ => .bind fun _ => .bind fun _ => ends_refreshAll
    exact hend w
  | refreshAll => exact ends_refreshAll w
  | refreshOne slug imports => exact ends_refreshOne w
  | addCamera address username password imports =>
    have hend : Ends OnFile (addCamera cfg env address username password imports) :=
      .bind fun _ => .bind fun _ => .bind fun _ => .bind fun _ => .bind fun _ => .bind fun _ =>
        .bind_leaves ends_refreshOne (fun _ => .pure _) fun _ _ => OnFile.sameStore
    exact Ends.bind_leaves hend (fun _ => .pure _) (fun _ _ => OnFile.sameStore) w
  | removeCameraByPath path => exact ends_removeCameraByPath w
  | setCameraCredentials slug username password =>
    have hend : Ends OnFile (setCameraCredentials cfg env slug username password) :=
      .bind fun _ => .ite (.throw _) (.bind fun _ => ends_refreshOne)
    exact hend w
  | importStreams slug => exact hreq onlyRequests_importStreams
  | deleteStreams slug => exact hreq onlyRequests_deleteStreams
  | importCameraStream slug streamSlug => exact hreq (onlyRequests_streamTurn _ _)
  | removeCameraStream slug streamSlug => exact hreq (onlyRequests_streamTurn _ _)

theorem exec_onFile {op : Op} (h : OnFile w) (hr : returned (exec cfg env op w)) :
    OnFile (outState (exec cfg env op w)) := by
  have h₀ : OnFile { w with sent := [], written := [] } := h.same rfl rfl
  exact (body_onFile h₀).of_ok (returned_iff.1 hr)

/-- In a run none of whose operations raises, the store is on file. -/
theorem Reachable.onFile {good : Env → Op → World → Prop}
    (hg : ∀ env op w, good env op w → returned (exec cfg env op w)) (h : Reachable cfg good w) :
    OnFile w := by
  induction h with
  | boot h => exact .inr ⟨((start_spec cfg _ _).of_ok h).2.file, ((start_spec cfg _ _).of_ok h).2.cameras⟩
  | op _ hgood ih => exact exec_onFile ih (hg _ _ _ hgood)
  | restart _ h ih =>
    have hs := ((start_spec cfg _ _).of_ok h).2
    rcases ih with hf | ⟨hf, -⟩
    · refine .inl (hs.file.trans ?_)
      rw [hs.cameras]
      simp [newProcess, hf, reload_reload]
    · refine .inr ⟨hs.file.trans hf, hs.cameras.trans ?_⟩
      simp [newProcess, hf]

end File

/-! ### Records that look the same when read back -/

section Steady
variable [UnicodeData] {cfg : Config} {env : Env} {w : World} {slug : Slug}

/-- The value prints the same once the keys of its objects are sorted. -/
def PrintsSorted (v : Json) : Prop := v.sortKeys.toStr = v.toStr

/-- Saved and read back, the record lists its streams in the same order and prints the same; the
fields that no operation writes are absent. -/
structure Steady (c : Camera) : Prop where
  streams : c.streams.keys.Pairwise (· ≤ ·)
  name : ∀ v ∈ c.name, PrintsSorted v
  rawInfo : ∀ v ∈ c.rawInfo, PrintsSorted v
  unused : c.manufacturer = none ∧ c.model = none ∧ c.hardwareId = none ∧ c.serialNumber = none ∧
    c.buildDate = none ∧ c.firmwareVersion = none

/-- Each profile list is in the order of the names it gives its streams, and what a discovered device
says of itself prints the same with its keys sorted. -/
structure Ordered (cfg : Config) (env : Env) : Prop where
  profiles : ∀ k n items l, ((env.turn k).reply n).sources = .ok items → listedProfiles items = .ok l →
    (l.map (Listed.streamName cfg.streamPrefix)).eraseDups.Pairwise (· ≤ ·)
  found : ∀ items item found, env.discovery.discovered = .ok items → item ∈ items →
    readItem item = .ok (some found) → PrintsSorted found.name ∧ PrintsSorted found.info

theorem printsSorted_str (s : Str) : PrintsSorted (.str s) := by
  simp [PrintsSorted, Json.sortKeys]

theorem PrintsSorted.sortKeys (v : Json) : PrintsSorted v.sortKeys := by
  rw [PrintsSorted, Json.sortKeys_sortKeys]

theorem steady_fresh : Steady Camera.fresh where
  streams := .nil
  name := nofun
  rawInfo := nofun
  unused := ⟨rfl, rfl, rfl, rfl, rfl, rfl⟩

namespace Steady
variable {c : Camera}

theorem reloaded (h : Steady c) : Steady c.reloaded where
  streams := by
    simp only [Camera.reloaded, Dict.keys_sorted]
    exact List.pairwise_insertionSort _ _
  name v hv := by
    obtain ⟨v', -, rfl⟩ := Option.map_eq_some_iff.1 hv
    exact .sortKeys v'
  rawInfo v hv := by
    obtain ⟨v', -, rfl⟩ := Option.map_eq_some_iff.1 hv
    exact .sortKeys v'
  unused := by
    obtain ⟨h1, h2, h3, h4, h5, h6⟩ := h.unused
    simp [Camera.reloaded, h1, h2, h3, h4, h5, h6]

/-- A change that keeps the streams and the texts. -/
theorem congr {c' : Camera} (h : Steady c) (hs : c'.streams = c.streams) (hn : c'.name = c.name)
    (hr : c'.rawInfo = c.rawInfo) (hu : c'.manufacturer = c.manufacturer ∧ c'.model = c.model ∧
      c'.hardwareId = c.hardwareId ∧ c'.serialNumber = c.serialNumber ∧ c'.buildDate = c.buildDate ∧
      c'.firmwareVersion = c.firmwareVersion) : Steady c' where
  streams := hs ▸ h.streams
  name := hn ▸ h.name
  rawInfo := hr ▸ h.rawInfo
  unused := by
    obtain ⟨h1, h2, h3, h4, h5, h6⟩ := hu
    rw [h1, h2, h3, h4, h5, h6]; exact h.unused

theorem afterRefresh {imports : Bool} {tenv : TurnEnv} (h : Steady c)
    (ho : ∀ n items l, (tenv.reply n).sources = .ok items → listedProfiles items = .ok l →
      (l.map (Listed.streamName cfg.streamPrefix)).eraseDups.Pairwise (· ≤ ·)) :
    Steady (afterRefresh cfg imports tenv c).camera := by
  obtain ⟨e, reqs, -, hr, -⟩ := refreshed_afterRefresh cfg imports tenv c
  generalize (IpCamera.afterRefresh cfg imports tenv c).camera = c' at hr
  cases hr with
  | unresolved => exact h
  | interrupted => exact h.congr rfl rfl rfl ⟨rfl, rfl, rfl, rfl, rfl, rfl⟩
  | unreachable => exact h.congr rfl rfl rfl ⟨rfl, rfl, rfl, rfl, rfl, rfl⟩
  | enumerated _ hp hs =>
    obtain ⟨l, hl, rfl⟩ := profileStreams_ok hs
    obtain ⟨n, hn⟩ := hp.reply
    refine ⟨?_, h.name, h.rawInfo, h.unused⟩
    simp only [Camera.enumerated, Dict.keys_ofList, List.map_map, Function.comp_def]
    exact ho n _ l hn hl

theorem named {s u p : Str} (h : Steady c) : Steady (c.added s u p) := by
  simp only [Camera.added, Camera.named]
  split
  · exact h.congr rfl rfl rfl ⟨rfl, rfl, rfl, rfl, rfl, rfl⟩
  · refine ⟨h.streams, fun v hv => ?_, h.rawInfo, h.unused⟩
    rw [← Option.some.inj hv]
    exact printsSorted_str _

end Steady

theorem Ordered.keeps {op : Op} (h : Ordered cfg env) : Keeps cfg (fun _ => Steady) env op where
  refreshed k c imports hc := hc.afterRefresh (h.profiles k)
  found _ items item found hd hi hf c hc := by
    obtain ⟨hn, hr⟩ := h.found items item found hd hi hf
    have hc : Steady c := hc.elim id fun h => h ▸ steady_fresh
    refine ⟨hc.streams, fun v hv => ?_, fun v hv => ?_, hc.unused⟩
    · rwa [← Option.some.inj hv]
    · rwa [← Option.some.inj hv]
  added address username password imports _ endpoint host _ _ c hc := by
    have hc : Steady c := hc.elim id fun h => h ▸ steady_fresh
    have hc' : Steady { c with address := some host } := hc.congr rfl rfl rfl ⟨rfl, rfl, rfl, rfl, rfl, rfl⟩
    exact ⟨fun _ _ => hc', fun _ _ => hc'.named⟩
  credentials k username password _ c hc := hc.congr rfl rfl rfl ⟨rfl, rfl, rfl, rfl, rfl, rfl⟩

/-! ### What is published -/

/-- Two objects with the same value for every property. -/
structure SameProps (obj obj' : CameraObject) : Prop where
  present : obj'.present = obj.present
  functional : obj'.functional = obj.functional
  asset : obj'.asset = obj.asset
  device : obj'.device = obj.device
  streams : ∀ s, obj'.streams.get? s = obj.streams.get? s

/-- The same objects are published, with the same property values. -/
structure SamePublished (w w' : World) : Prop where
  bus : ∀ e, e ∈ w'.bus ↔ e ∈ w.bus
  cameras : ∀ k, k ∈ w'.objects ↔ k ∈ w.objects
  props : ∀ k obj obj', w.objects.get? k = some obj → w'.objects.get? k = some obj' →
    SameProps obj obj'
  manager : w'.manager = w.manager

/-- The i-th of the `StreamNames` is the `StreamName` of the object at the i-th of the `Profiles`. -/
def Aligned (cfg : Config) (slug : Slug) (obj : CameraObject) : Prop :=
  List.Forall₂ (fun path name => ∃ s props, path = streamPath cfg slug s ∧
    obj.streams.get? s = some props ∧ props.streamName = name)
    obj.device.profiles obj.device.streamNames

theorem Shows.aligned {c : Camera} {obj : CameraObject} (h : Shows cfg slug c obj) (hc : Steady c) :
    Aligned cfg slug obj := by
  rw [Aligned, h.device]
  simp only [Camera.deviceProps, Dict.sorted_of_pairwise hc.streams, Dict.keys, Dict.values,
    List.map_map, List.forall₂_map_left_iff, List.forall₂_map_right_iff]
  refine List.forall₂_same.2 fun e he => ⟨e.1, e.2.props, rfl, ?_, rfl⟩
  rw [h.streams, Dict.get?_eq_some_iff.2 he]
  rfl

theorem displayName_reloaded {c : Camera} (h : Steady c) :
    c.reloaded.displayName = c.displayName := by
  have hn := h.name
  unfold Camera.displayName
  cases hc : c.name with
  | none => simp [Camera.reloaded, hc]
  | some v =>
    simp only [Camera.reloaded, hc, Option.map_some, Json.truthy_sortKeys]
    rw [show v.sortKeys.toStr = v.toStr from hn v hc]

theorem Shows.reloaded {c : Camera} {obj obj' : CameraObject} (h : Shows cfg slug c obj)
    (h' : Shows cfg slug c.reloaded obj') (hc : Steady c) : SameProps obj obj' := by
  have htext : ∀ o : Option Json, (∀ v ∈ o, PrintsSorted v) → textOf (o.map Json.sortKeys) = textOf o :=
    fun o ho => by
      cases o with
      | none => rfl
      | some v => exact ho v rfl
  have hsorted := Dict.sorted_of_pairwise hc.streams
  obtain ⟨h1, h2, h3, h4, h5, h6⟩ := hc.unused
  refine ⟨h'.present.trans h.present.symm, h'.functional.trans h.functional.symm, ?_, ?_, fun s => ?_⟩
  · obtain ⟨name, hn, ha⟩ := h.asset
    obtain ⟨name', hn', ha'⟩ := h'.asset
    rw [displayName_reloaded hc, hn] at hn'
    cases hn'
    rw [ha, ha']
    simp [Camera.assetProps, Camera.reloaded, h1, h2, h3, h4, h5, h6]
  · rw [h.device, h'.device]
    simp only [Camera.deviceProps, Camera.reloaded, hsorted, htext _ hc.name, htext _ hc.rawInfo, h3, h6,
      Option.map_none]
  · rw [h.streams, h'.streams]
    simp [Camera.reloaded]

omit [UnicodeData] in
theorem managerProps_reload (store : Store) : managerProps cfg (reload store) = managerProps cfg store := by
  simp only [managerProps, cameraPaths, keys_reload]
  rw [(List.pairwise_insertionSort _ _).insertionSort_eq]

/-- A service that mirrors a steady store on file restarts to the same objects. -/
theorem restart_samePublished (hm : Mirrors cfg w) (hf : OnFile w)
    (hs : ∀ k c, w.cameras.get? k = some c → Steady c) :
    ∃ w', start cfg (newProcess w.file w.go2rtc) = .ok () w' ∧ SamePublished w w' := by
  have hstore : ∀ k, (w.file.getD Dict.empty).get? k = (w.cameras.get? k).map Camera.reloaded := by
    intro k
    rcases hf with hf | ⟨hf, hc⟩
    · rw [hf, Option.getD_some, get?_reload]
    · rw [hf, hc]; rfl
  have hman : managerProps cfg (w.file.getD Dict.empty) = managerProps cfg w.cameras := by
    rcases hf with hf | ⟨hf, hc⟩
    · rw [hf, Option.getD_some, managerProps_reload]
    · rw [hf, hc]; rfl
  have hstart := start_spec cfg w.file w.go2rtc
  rcases hr : start cfg (newProcess w.file w.go2rtc) with ⟨⟨⟩, w'⟩ | ⟨e, w'⟩
  swap
  · obtain ⟨k, c, hc, he⟩ := hstart.of_error hr
    rw [hstore, Option.map_eq_some_iff] at hc
    obtain ⟨c, hc, rfl⟩ := hc
    obtain ⟨obj, -, hshow⟩ := hm.shows k c hc
    obtain ⟨name, hn, -⟩ := hshow.asset
    rw [displayName_reloaded (hs k c hc), hn] at he
    cases he
  obtain ⟨hm', hsame⟩ := hstart.of_ok hr
  have hcam : ∀ k, w'.cameras.get? k = (w.cameras.get? k).map Camera.reloaded := fun k => by
    rw [hsame.cameras]; exact hstore k
  have hkeys : ∀ k, k ∈ w'.objects ↔ k ∈ w.objects := fun k => by
    simp only [hm'.mem_objects, hm.mem_objects, Dict.mem_iff_get?_isSome, hcam, Option.map_eq_some_iff]
    constructor
    · rintro ⟨_, c, hc, -⟩
      exact ⟨c, hc⟩
    · rintro ⟨c, hc⟩
      exact ⟨_, c, hc, rfl⟩
  have hprops : ∀ k obj obj', w.objects.get? k = some obj → w'.objects.get? k = some obj' →
      SameProps obj obj' := fun k obj obj' ho ho' => by
    obtain ⟨c, hc⟩ := Dict.mem_iff_get?_isSome.1 ((hm.mem_objects k).1 (Dict.mem_of_get? ho))
    obtain ⟨obj₁, ho₁, hshow⟩ := hm.shows k c hc
    obtain ⟨obj₂, ho₂, hshow'⟩ := hm'.shows k c.reloaded (by rw [hcam, hc]; rfl)
    rw [ho] at ho₁
    cases ho₁
    rw [ho'] at ho₂
    cases ho₂
    exact hshow.reloaded hshow' (hs k c hc)
  have hstream : ∀ k s, HasStream w'.objects k s ↔ HasStream w.objects k s := fun k s => by
    constructor
    · rintro ⟨obj', ho', hs'⟩
      obtain ⟨obj, ho⟩ := Dict.mem_iff_get?_isSome.1 ((hkeys k).1 (Dict.mem_of_get? ho'))
      refine ⟨obj, ho, ?_⟩
      rwa [Dict.mem_iff_get?_isSome, (hprops k obj obj' ho ho').streams, ← Dict.mem_iff_get?_isSome] at hs'
    · rintro ⟨obj, ho, hs⟩
      obtain ⟨obj', ho'⟩ := Dict.mem_iff_get?_isSome.1 ((hkeys k).2 (Dict.mem_of_get? ho))
      refine ⟨obj', ho', ?_⟩
      rwa [Dict.mem_iff_get?_isSome, (hprops k obj obj' ho ho').streams, ← Dict.mem_iff_get?_isSome]
  refine ⟨w', rfl, ⟨fun e => ?_, hkeys, hprops, ?_⟩⟩
  · rw [hm'.bus.mem, hm.bus.mem]
    exact ⟨Exported.mono (fun k => (hkeys k).1) fun k s => (hstream k s).1,
      Exported.mono (fun k => (hkeys k).2) fun k s => (hstream k s).2⟩
  · rw [hm'.manager, hm.manager, hsame.cameras]
    exact hman

/-- In every run whose profile lists are in the order of their stream names: `StreamNames` is in the
order of `Profiles`; and if no operation raised, a restart publishes the same objects with the same
property values. -/
theorem restart_invisible (cfg : Config) (w : World) :
    (Reachable cfg (fun env _ _ => Ordered cfg env) w →
      ∀ k obj, w.objects.get? k = some obj → Aligned cfg k obj) ∧
    (Reachable cfg (fun env op w => Ordered cfg env ∧ returned (exec cfg env op w)) w →
      ∃ w', start cfg (newProcess w.file w.go2rtc) = .ok () w' ∧ SamePublished w w') := by
  constructor
  · intro h k obj ho
    have hinv := h.inv (P := fun _ => Steady) (fun _ _ => Steady.reloaded) fun _ _ _ ho => ho.keeps
    rcases hinv.objects k obj ho with rfl | ⟨c, hc, hshow⟩
    · exact .nil
    · exact hshow.aligned hc
  · intro h
    have hinv := h.inv (P := fun _ => Steady) (fun _ _ => Steady.reloaded) fun _ _ _ ho => ho.1.keeps
    exact restart_samePublished (h.mono fun _ _ _ hg => hg.2).mirrors
      (h.onFile fun _ _ _ hg => hg.2) hinv.records

end Steady

/-! ### Two runs -/

attribute [local instance] asciiData

theorem Sample.ordered : Ordered Sample.config Sample.camera where
  profiles k n items l hi hl := by
    have hok : ∀ items ∈ (Sample.camera.turn k |>.reply 0).sources.toOption,
        ∀ l ∈ (listedProfiles items).toOption,
          (l.map (Listed.streamName Sample.config.streamPrefix)).eraseDups.Pairwise (· ≤ ·) := by
      show ∀ items ∈ (Sample.sources _).sources.toOption, _
      decide +kernel
    cases n with
    | zero => exact hok items (by rw [hi]; rfl) l (by rw [hl]; rfl)
    | succ n =>
      cases hi
      cases hl
      exact .nil
  found items item found hd hi hf := by
    have hok : ∀ items ∈ Sample.camera.discovery.discovered.toOption, ∀ item ∈ items,
        ∀ o ∈ (readItem item).toOption, ∀ found ∈ o,
          PrintsSorted found.name ∧ PrintsSorted found.info := by
      unfold PrintsSorted
      decide +kernel
    exact hok items (by rw [hd]; rfl) item hi _ (by rw [hf]; rfl) found rfl

theorem discovered_restarts : ∃ w', start Sample.config
    (newProcess Sample.discovered.file Sample.discovered.go2rtc) = .ok () w' ∧
      SamePublished Sample.discovered w' := by
  have hrun : Reachable Sample.config (fun env op w => Ordered Sample.config env ∧
      returned (exec Sample.config env op w)) Sample.discovered :=
    Sample.reachable_discovered ⟨Sample.ordered, by decide +kernel⟩
  exact (restart_invisible Sample.config Sample.discovered).2 hrun

/-- The same camera, its sub stream listed first. -/
def Sample.swapped : Env :=
  Sample.env (Sample.sources ["onvif://10.0.0.5:8080/onvif/device_service"])
    (Sample.turnEnv (Sample.sources
      ["rtsp://10.0.0.5/live?subtype=1", "rtsp://10.0.0.5/live?subtype=0"]) Sample.accepted)

def Sample.discoveredSwapped : World :=
  outState (exec Sample.config Sample.swapped .discoverAndRefresh Sample.booted)

/-- `StreamNames` is not in the order of `Profiles`, and a restart changes it. -/
theorem swapped_restarts :
    returned (exec Sample.config Sample.swapped .discoverAndRefresh Sample.booted) ∧
      Sample.discoveredSwapped.objects.values.map (fun obj => obj.device.profiles) =
        [["/inventory/10_0_0_5/stream/ipcam_10_0_0_5_0".toList,
          "/inventory/10_0_0_5/stream/ipcam_10_0_0_5_1".toList]] ∧
      Sample.discoveredSwapped.objects.values.map (fun obj => obj.device.streamNames) =
        [["ipcam_10_0_0_5_1".toList, "ipcam_10_0_0_5_0".toList]] ∧
      (outState (start Sample.config (newProcess Sample.discoveredSwapped.file
        Sample.discoveredSwapped.go2rtc))).objects.values.map (fun obj => obj.device.streamNames) =
          [["ipcam_10_0_0_5_0".toList, "ipcam_10_0_0_5_1".toList]] := by
  decide +kernel

end IpCamera
end OpenBmc
