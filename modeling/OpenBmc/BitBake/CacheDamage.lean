import OpenBmc.BitBake.RecipeCache

/-!
# A damaged recipe cache

What a set of cut off files leaves of each `info_array`: one info for each class whose file still has
the record of the recipe. The classes stay in their order, so an array that has as many infos as there
are classes is complete. An array may lack the info of the core and have another one, though, and
`cacheValidUpdate` reads attributes of the first info before it compares the length.
-/

namespace OpenBmc

namespace Dict
variable {κ β : Type*} [DecidableEq κ]

theorem filter_eq_lookup {l : List (κ × β)} (h : (l.map Prod.fst).Nodup) (k : κ) :
    l.filter (fun e => e.1 = k) = ((l.lookup k).map (Prod.mk k)).toList := by
  induction l with
  | nil => rfl
  | cons e l ih =>
    obtain ⟨he, hl⟩ := List.nodup_cons.1 h
    rw [lookup_cons_ite]
    by_cases hk : e.1 = k
    · subst hk
      have hrest : l.filter (fun e' => e'.1 = e.1) = [] := List.filter_eq_nil_iff.2 fun e' he' => by
        simpa using fun h : e'.1 = e.1 => he (h ▸ List.mem_map_of_mem he')
      simp [hrest]
    · simp [hk, Ne.symm hk, ih hl]

theorem filter_entries (d : Dict κ β) (k : κ) :
    d.entries.filter (fun e => e.1 = k) = ((d.get? k).map (Prod.mk k)).toList :=
  filter_eq_lookup d.nodup k

end Dict

namespace BitBake
namespace RecipeCache
open Py Names

/-! ### What a file yields -/

/-- The pairs that the loop over a file reads. -/
def recordsOf : List Obj → List (Str × Info)
  | .str key :: .info value :: objs => (key, value) :: recordsOf objs
  | _ => []

def valuesOf (records : List (Str × Info)) (key : Str) : List Info :=
  (records.filter fun r => r.1 = key).map Prod.snd

theorem valuesOf_eq_nil {records : List (Str × Info)} {key : Str} :
    valuesOf records key = [] ↔ key ∉ records.map Prod.fst := by
  rw [valuesOf, List.map_eq_nil_iff, List.filter_eq_nil_iff]
  simp only [decide_eq_true_eq, List.mem_map, not_exists, not_and]

theorem mem_valuesOf {records : List (Str × Info)} {key : Str} {info : Info} :
    info ∈ valuesOf records key ↔ (key, info) ∈ records := by
  simp only [valuesOf, List.mem_map, List.mem_filter, decide_eq_true_eq]
  constructor
  · rintro ⟨⟨k, v⟩, ⟨hr, rfl⟩, rfl⟩
    exact hr
  · intro hr
    exact ⟨_, ⟨hr, rfl⟩, rfl⟩

/-- The entries of a dictionary are the lists that `f` gives, where they are not empty. -/
def Holds (dependsCache : Dict Str (List Info)) (f : Str → List Info) : Prop :=
  ∀ key, dependsCache.get? key = if f key = [] then none else some (f key)

theorem Holds.addRecord {dependsCache : Dict Str (List Info)} {f : Str → List Info}
    (h : Holds dependsCache f) (key : Str) (value : Info) :
    Holds (addRecord dependsCache key value) fun k => f k ++ valuesOf [(key, value)] k := by
  intro k
  have hne : f key ++ [value] ≠ [] := List.append_ne_nil_of_right_ne_nil _ (List.cons_ne_nil _ _)
  have hadd : RecipeCache.addRecord dependsCache key value =
      dependsCache.set key (f key ++ [value]) := by
    unfold RecipeCache.addRecord
    rw [h key]
    by_cases hf : f key = []
    · rw [if_pos hf, hf, List.nil_append]
    · rw [if_neg hf]
  rw [hadd, Dict.get?_set]
  by_cases hk : k = key
  · subst hk
    simp [valuesOf]
  · simp [valuesOf, hk, Ne.symm hk, h k]

theorem Holds.loadRecords {dependsCache : Dict Str (List Info)} {f : Str → List Info}
    (h : Holds dependsCache f) (objs : List Obj) :
    Holds (loadRecords dependsCache objs) fun k => f k ++ valuesOf (recordsOf objs) k := by
  fun_induction RecipeCache.loadRecords dependsCache objs generalizing f with
  | case1 dependsCache key value objs ih =>
    have hstep := ih (h.addRecord key value)
    have hvalues : ∀ k, valuesOf [(key, value)] k ++ valuesOf (recordsOf objs) k =
        valuesOf (recordsOf (.str key :: .info value :: objs)) k := by
      intro k
      simp only [valuesOf, recordsOf, ← List.map_append, ← List.filter_append, List.singleton_append]
    simpa only [List.append_assoc, hvalues] using hstep
  | case2 objs dependsCache hobjs =>
    have hnil : recordsOf objs = [] := by
      unfold recordsOf
      split
      · exact absurd rfl (hobjs _ _ _)
      · rfl
    simpa [hnil, valuesOf] using h

/-! ### Cut files -/

/-- The objects that are whole in the first `bytes` bytes, when the `i`-th has `size i` of them. -/
def whole (size : ℕ → ℕ) (bytes : ℕ) : List Obj → List Obj
  | [] => []
  | obj :: objs =>
    if size 0 ≤ bytes then obj :: whole (fun i => size (i + 1)) (bytes - size 0) objs else []

theorem whole_prefix (size : ℕ → ℕ) (bytes : ℕ) (objs : List Obj) : whole size bytes objs <+: objs := by
  induction objs generalizing size bytes with
  | nil => exact List.prefix_refl _
  | cons obj objs ih =>
    rw [whole]
    split
    · exact List.cons_prefix_cons.2 ⟨rfl, ih _ _⟩
    · exact List.nil_prefix

/-- A part of a sequence of records is that of fewer records, and perhaps a key without its value. -/
theorem recordsOf_prefix {objs : List Obj} {records : List (Str × Info)}
    (h : objs <+: records.flatMap fun r => [.str r.1, .info r.2]) : recordsOf objs <+: records := by
  induction records generalizing objs with
  | nil =>
    rw [List.prefix_nil.1 h]
    exact List.prefix_refl _
  | cons r records ih =>
    rcases objs with _ | ⟨o, _ | ⟨o', objs⟩⟩
    · exact List.nil_prefix
    · obtain ⟨rfl, -⟩ := List.cons_prefix_cons.1 h
      exact List.nil_prefix
    · obtain ⟨rfl, h'⟩ := List.cons_prefix_cons.1 h
      obtain ⟨rfl, hrest⟩ := List.cons_prefix_cons.1 h'
      exact List.cons_prefix_cons.2 ⟨rfl, ih hrest⟩

/-- What the files were written from. An array may lack infos, as after an earlier damage. -/
structure Written (caches : Caches) where
  dependsCache : Dict Str (List Info)
  inOrder : ∀ e ∈ dependsCache.entries, (e.2.map Info.className).Sublist caches.array

/-- How many bytes are left of each file, none at all of a missing one. -/
structure Damage where
  size : Str → ℕ → ℕ
  bytes : Str → Option ℕ

section Damaged
variable {caches : Caches} (w : Written caches) (d : Damage) (env : Env)

def files (name : Str) : Option (List Obj) :=
  (d.bytes name).map fun bytes =>
    whole (d.size name) bytes (syncFile env.version w.dependsCache name)

/-- The objects that can be loaded from the file of a class. -/
def objects (name : Str) : List Obj := (files w d env name).getD []

/-- The records that are left in the file of a class. -/
def records (name : Str) : List (Str × Info) := recordsOf ((objects w d env name).drop 2)

/-- The classes whose files are read: none when a file is missing, and otherwise those before the first
file that is cut within its versions. -/
def readClasses : List Str :=
  if ∀ name ∈ caches.array, (d.bytes name).isSome then
    caches.array.takeWhile fun name => 2 ≤ (objects w d env name).length
  else []

/-- The `info_array` of a name after loading. -/
def found (key : Str) : List Info :=
  (readClasses w d env).flatMap fun name => valuesOf (records w d env name) key

/-- The records that were written to the file of a class. -/
def Written.records (name : Str) : List (Str × Info) :=
  w.dependsCache.entries.flatMap fun e =>
    (e.2.filter fun info => info.className = name).map fun info => (e.1, info)

variable {w d env} {name key : Str}

theorem syncFile_eq : syncFile env.version w.dependsCache name =
    .str cacheVersion :: .str env.version ::
      (w.records name).flatMap fun r => [.str r.1, .info r.2] := by
  simp only [syncFile, Written.records, List.flatMap_assoc, List.flatMap_map]

theorem objects_prefix : objects w d env name <+: syncFile env.version w.dependsCache name := by
  unfold objects files
  cases d.bytes name with
  | none => exact List.nil_prefix
  | some bytes => exact whole_prefix _ _ _

theorem records_prefix : records w d env name <+: w.records name := by
  refine recordsOf_prefix ?_
  have hobjects : objects w d env name <+: syncFile env.version w.dependsCache name := objects_prefix
  have hdrop := hobjects.drop 2
  rw [syncFile_eq] at hdrop
  exact hdrop

/-- Records made from the entries of a dictionary, those for a key from the entry of the key. -/
theorem filter_flatMap_entries (g : List Info → List Info) (dependsCache : Dict Str (List Info))
    (key : Str) :
    valuesOf (dependsCache.entries.flatMap fun e => (g e.2).map fun info => (e.1, info)) key =
      (((dependsCache.get? key).map g).getD []) := by
  have hfilter : ∀ l : List (Str × List Info),
      valuesOf (l.flatMap fun e => (g e.2).map fun info => (e.1, info)) key =
        (l.filter fun e => e.1 = key).flatMap fun e => g e.2 := by
    intro l
    induction l with
    | nil => rfl
    | cons e l ih =>
      unfold valuesOf at ih ⊢
      rw [List.flatMap_cons, List.filter_append, List.map_append, ih]
      by_cases hk : e.1 = key <;> simp [hk, List.filter_map, Function.comp_def]
  rw [hfilter, Dict.filter_entries]
  cases dependsCache.get? key with
  | none => rfl
  | some infoArray => exact List.append_nil _

theorem valuesOf_written :
    valuesOf (w.records name) key =
      ((w.dependsCache.get? key).getD []).filter fun info => info.className = name := by
  rw [Written.records, filter_flatMap_entries fun infoArray => infoArray.filter (·.className = name)]
  cases w.dependsCache.get? key <;> rfl

/-- A file has at most one info for a name. -/
theorem className_valuesOf :
    ((valuesOf (records w d env name) key).map Info.className).Sublist [name] := by
  have hsub : (valuesOf (records w d env name) key).Sublist (valuesOf (w.records name) key) :=
    (List.Sublist.filter _ (List.IsPrefix.sublist records_prefix)).map _
  refine (hsub.map Info.className).trans ?_
  rw [valuesOf_written]
  have harr : (((w.dependsCache.get? key).getD []).map Info.className).Sublist caches.array := by
    cases hget : w.dependsCache.get? key with
    | none => exact List.nil_sublist _
    | some infoArray => exact w.inOrder _ (Dict.get?_eq_some_iff.1 hget)
  have hfilter := harr.filter (· = name)
  rw [List.filter_map] at hfilter
  refine hfilter.trans ?_
  have hcount : caches.array.count name ≤ 1 := List.nodup_iff_count_le_one.1 caches.nodup name
  rw [List.filter_eq]
  exact (List.replicate_sublist_replicate name).2 hcount

/-! ### What is loaded -/

theorem loadCachefile_eq {names : List Str} (h : ∀ name ∈ names, (d.bytes name).isSome)
    (dependsCache : Dict Str (List Info)) :
    loadCachefile env (files w d env) dependsCache names =
      .ok ((names.takeWhile fun name => 2 ≤ (objects w d env name).length).foldl
        (fun dependsCache name => loadRecords dependsCache ((objects w d env name).drop 2))
        dependsCache) := by
  induction names generalizing dependsCache with
  | nil => rfl
  | cons name names ih =>
    obtain ⟨hname, hnames⟩ := List.forall_mem_cons.1 h
    obtain ⟨bytes, hbytes⟩ := Option.isSome_iff_exists.1 hname
    have hfiles : files w d env name = some (objects w d env name) := by
      simp only [objects, files, hbytes, Option.map_some, Option.getD_some]
    have hobjects : objects w d env name <+: syncFile env.version w.dependsCache name :=
      objects_prefix
    rw [loadCachefile, hfiles, List.takeWhile_cons]
    rcases hobjs : objects w d env name with _ | ⟨v, _ | ⟨b, objs⟩⟩
    · rfl
    · rfl
    · rw [hobjs, syncFile_eq] at hobjects
      obtain ⟨rfl, hrest⟩ := List.cons_prefix_cons.1 hobjects
      obtain ⟨rfl, -⟩ := List.cons_prefix_cons.1 hrest
      have hlen : 2 ≤ (Obj.str cacheVersion :: .str env.version :: objs).length := by
        simp only [List.length_cons]
        omega
      rw [decide_eq_true hlen]
      simp only [ne_eq, not_true_eq_false, if_false, if_true, List.foldl_cons, hobjs, ih hnames]
      rfl

theorem Holds.foldl {dependsCache : Dict Str (List Info)} {f : Str → List Info}
    (h : Holds dependsCache f) (names : List Str) :
    Holds (names.foldl
        (fun dependsCache name =>
          RecipeCache.loadRecords dependsCache ((objects w d env name).drop 2)) dependsCache)
      fun k => f k ++ names.flatMap fun name => valuesOf (records w d env name) k := by
  induction names generalizing dependsCache f with
  | nil => simpa using h
  | cons name names ih =>
    have hstep := ih (h.loadRecords ((objects w d env name).drop 2))
    simp only [List.append_assoc] at hstep
    simp only [List.flatMap_cons, List.foldl_cons, records]
    exact hstep

variable (w d env) in
theorem prepareCache_ok : ∃ dependsCache,
    prepareCache env caches (files w d env) = .ok ⟨dependsCache, ∅, ∅⟩ ∧
      Holds dependsCache (found w d env) := by
  have hempty : Holds Dict.empty fun _ => [] := fun _ => rfl
  have hsome : ∀ name, (files w d env name).isSome = (d.bytes name).isSome := fun name =>
    Option.isSome_map
  unfold prepareCache found readClasses
  simp only [hsome]
  split
  · next hall =>
    rw [loadCachefile_eq hall]
    exact ⟨_, rfl, by simpa using hempty.foldl _⟩
  · exact ⟨Dict.empty, rfl, hempty⟩

theorem readClasses_sublist : (readClasses w d env).Sublist caches.array := by
  unfold readClasses
  split
  · exact (List.takeWhile_prefix _).sublist
  · exact List.nil_sublist _

theorem className_found : ((found w d env key).map Info.className).Sublist caches.array := by
  have hclasses : ∀ names : List Str,
      ((names.flatMap fun name => valuesOf (records w d env name) key).map
        Info.className).Sublist names := by
    intro names
    induction names with
    | nil => exact List.nil_sublist _
    | cons name names ih =>
      rw [List.flatMap_cons, List.map_append]
      exact className_valuesOf.append ih
  exact (hclasses _).trans readClasses_sublist

/-! ### The first info -/

variable (w d env) in
/-- The record of a name is left in the file of a class, and the file is read. -/
def Kept (name key : Str) : Prop :=
  name ∈ readClasses w d env ∧ key ∈ (records w d env name).map Prod.fst

variable (w d env) in
/-- The record of a recipe is cut off in the file of the core, and that of another class is kept. -/
def Orphan (key : Str) : Prop :=
  ¬ Kept w d env coreName key ∧ ∃ name ∈ caches.extra, Kept w d env name key

theorem mem_found {info : Info} : info ∈ found w d env key ↔
    info.className ∈ readClasses w d env ∧ (key, info) ∈ records w d env info.className := by
  rw [found, List.mem_flatMap]
  constructor
  · rintro ⟨name, hname, hinfo⟩
    have hclass : info.className ∈ [name] :=
      className_valuesOf.subset (List.mem_map_of_mem hinfo)
    rw [List.mem_singleton.1 hclass]
    exact ⟨hname, mem_valuesOf.1 hinfo⟩
  · rintro ⟨hname, hinfo⟩
    exact ⟨_, hname, mem_valuesOf.2 hinfo⟩

/-- An info of the core comes first. -/
theorem found_core {c : Core} (h : .core c ∈ found w d env key) :
    ∃ rest, found w d env key = .core c :: rest := by
  obtain ⟨before, rest, hsplit⟩ := List.append_of_mem h
  have hsub : ((found w d env key).map Info.className).Sublist caches.array := className_found
  rw [hsplit, List.map_append, List.map_cons] at hsub
  cases before with
  | nil => exact ⟨rest, hsplit⟩
  | cons b before =>
    -- The class of the core would come a second time in `caches.array`.
    have hcore : coreName ∈ before.map Info.className ++ (Info.core c).className :: rest.map Info.className :=
      List.mem_append_right _ (List.mem_cons_self ..)
    have hextra : coreName ∈ caches.extra := by
      rcases List.cons_sublist_cons'.1 hsub with hsub | ⟨-, hsub⟩
      · exact hsub.subset (List.mem_cons_of_mem _ hcore)
      · exact hsub.subset hcore
    exact absurd hextra (List.nodup_cons.1 caches.nodup).1

/-- The array of an orphan starts with an info that does not have the attributes of the core. -/
theorem found_orphan : Orphan w d env key ↔ ∃ name rest, found w d env key = .extra name :: rest := by
  constructor
  · rintro ⟨hcore, name, hname, hread, hkey⟩
    obtain ⟨⟨k, info⟩, hrec, rfl⟩ := List.mem_map.1 hkey
    have hinfo : info ∈ found w d env k :=
      List.mem_flatMap.2 ⟨name, hread, mem_valuesOf.2 hrec⟩
    rcases hf : found w d env k with _ | ⟨_ | name, rest⟩
    · rw [hf] at hinfo
      cases hinfo
    · next c =>
      obtain ⟨hr, hmem⟩ := mem_found.1 (hf ▸ List.mem_cons_self .. : Info.core c ∈ found w d env k)
      exact absurd ⟨hr, List.mem_map.2 ⟨_, hmem, rfl⟩⟩ hcore
    · exact ⟨name, rest, rfl⟩
  · rintro ⟨name, rest, hf⟩
    obtain ⟨hr, hmem⟩ := mem_found.1 (hf ▸ List.mem_cons_self .. : Info.extra name ∈ found w d env key)
    have hextra : name.1 ∈ caches.extra :=
      (List.mem_cons.1 (readClasses_sublist.subset hr)).resolve_left name.2
    refine ⟨?_, name.1, hextra, hr, List.mem_map_of_mem hmem⟩
    rintro ⟨hr', hkey⟩
    obtain ⟨⟨k, info⟩, hrec, rfl⟩ := List.mem_map.1 hkey
    have hinfo : info ∈ found w d env k := List.mem_flatMap.2 ⟨_, hr', mem_valuesOf.2 hrec⟩
    have hclass : info.className ∈ [coreName] :=
      className_valuesOf.subset (List.mem_map_of_mem (mem_valuesOf.2 hrec))
    cases info with
    | core c =>
      obtain ⟨rest', hf'⟩ := found_core hinfo
      rw [hf'] at hf
      cases hf
    | extra other => exact other.2 (List.mem_singleton.1 hclass)

end Damaged

end RecipeCache
end BitBake
end OpenBmc
