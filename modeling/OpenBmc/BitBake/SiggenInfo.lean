import OpenBmc.Lib.Dict
import OpenBmc.Py.Str

/-!
# References in streamed signature data

A `SiggenRecipeInfo` has three dictionaries whose values are strings and frozensets of variables. When
an object is pickled, `_save` writes a value the first time with a number and from then on the number
alone. When it is unpickled, `_restore` looks a number up among those read under the same process
id, so what a number means depends on all the earlier objects of its stream. A number is always read
after its value when no two streams of one process id are half read at once and `reset` is only
called while none is.
-/

namespace OpenBmc
namespace BitBake
namespace SiggenInfo

inductive Value where
  | str (s : Str)
  | frozenset (vars : Finset Str)
  deriving DecidableEq

abbrev Pid := ℕ

/-- A field of the recipe info: None or a dictionary. -/
abbrev Deps := Option (Dict Str (Option Value))

structure Info where
  siggenGendeps : Deps
  siggenTaskdeps : Deps
  siggenVarvals : Deps
  deriving DecidableEq

/-- The last two components of a saved triple `(dep, fs, mapnum)`. -/
inductive Ref where
  /-- `(dep, None, None)` -/
  | none
  /-- `(dep, None, mapnum)` -/
  | again (mapnum : ℕ)
  /-- `(dep, fs, mapnum)` -/
  | first (fs : Value) (mapnum : ℕ)
  deriving DecidableEq

/-- What `_save` returns: a field that is None or `{}` itself, otherwise a list that is not empty. -/
inductive Saved where
  | none
  | empty
  | refs (r : Str × Ref) (rs : List (Str × Ref))

structure Pickled where
  siggenGendeps : Saved
  siggenTaskdeps : Saved
  siggenVarvals : Saved
  pid : Pid

/-- The one object kept for each value: an entry has its own key as its value. -/
structure Store where
  dict : Dict Value Value
  canonical : ∀ k v, dict.get? k = some v → v = k

theorem canonical_empty : ∀ k v, (Dict.empty : Dict Value Value).get? k = some v → v = k := by
  intro k v h
  cases h

def Store.empty : Store := ⟨Dict.empty, canonical_empty⟩

theorem canonical_set {d : Dict Value Value} (h : ∀ k v, d.get? k = some v → v = k) (fs : Value) :
    ∀ k v, (d.set fs fs).get? k = some v → v = k := by
  intro k v hk
  rw [Dict.get?_set] at hk
  split at hk
  · next heq => exact (Option.some.inj hk).symm.trans heq.symm
  · exact h k v hk

def Store.canon (s : Store) (fs : Value) : Value × Store :=
  match s.dict.get? fs with
  | some fs' => (fs', s)
  | none => (fs, ⟨s.dict.set fs fs, canonical_set s.canonical fs⟩)

@[simp] theorem Store.canon_fst (s : Store) (fs : Value) : (s.canon fs).1 = fs := by
  unfold Store.canon
  split
  · next h => exact s.canonical _ _ h
  · rfl

/-- The class attributes of `SiggenRecipeInfo`. -/
structure Cls where
  store : Store
  saveMap : Dict Value ℕ
  saveCount : ℕ
  restoreMap : Dict Pid (Dict ℕ Value)

namespace Cls

/-- The attributes as the class body assigns them. -/
def initial : Cls := ⟨Store.empty, Dict.empty, 1, Dict.empty⟩

def reset (c : Cls) : Cls :=
  { c with saveMap := Dict.empty, saveCount := 1, restoreMap := Dict.empty }

/-- The numbers read under a process id: `cls.restore_map[pid]`, `{}` while there is no entry. -/
def mapOf (c : Cls) (pid : Pid) : Dict ℕ Value := (c.restoreMap.get? pid).getD Dict.empty

/-! ### Saving -/

def saveValue (c : Cls) : Option Value → Ref × Cls
  | none => (.none, c)
  | some fs =>
    match c.saveMap.get? fs with
    | some n => (.again n, c)
    | none =>
      (.first fs c.saveCount,
        { c with saveMap := c.saveMap.set fs c.saveCount, saveCount := c.saveCount + 1 })

def saveEntries (c : Cls) : List (Str × Option Value) → List (Str × Ref) × Cls
  | [] => ([], c)
  | (dep, fs) :: deps =>
    let (r, c) := c.saveValue fs
    let (rs, c) := c.saveEntries deps
    ((dep, r) :: rs, c)

/-- `_save`. -/
def save (c : Cls) : Deps → Saved × Cls
  | none => (.none, c)
  | some deps =>
    match c.saveEntries deps.entries with
    | ([], c) => (.empty, c)
    | (r :: rs, c) => (.refs r rs, c)

/-- `__getstate__` in the process `pid`. -/
def getstate (c : Cls) (pid : Pid) (info : Info) : Pickled × Cls :=
  let (gendeps, c) := c.save info.siggenGendeps
  let (taskdeps, c) := c.save info.siggenTaskdeps
  let (varvals, c) := c.save info.siggenVarvals
  (⟨gendeps, taskdeps, varvals, pid⟩, c)

@[simp] theorem saveValue_restoreMap (c : Cls) (fs : Option Value) :
    (c.saveValue fs).2.restoreMap = c.restoreMap := by
  cases fs with
  | none => rfl
  | some fs =>
    simp only [saveValue]
    split <;> rfl

@[simp] theorem saveEntries_restoreMap (c : Cls) (deps : List (Str × Option Value)) :
    (c.saveEntries deps).2.restoreMap = c.restoreMap := by
  induction deps generalizing c with
  | nil => rfl
  | cons d deps ih => exact (ih _).trans (saveValue_restoreMap c d.2)

@[simp] theorem save_restoreMap (c : Cls) (deps : Deps) :
    (c.save deps).2.restoreMap = c.restoreMap := by
  cases deps with
  | none => rfl
  | some deps =>
    rw [← saveEntries_restoreMap c deps.entries]
    simp only [save]
    split <;> simp [*]

/-- Pickling does not touch what was read. -/
@[simp] theorem getstate_restoreMap (c : Cls) (pid : Pid) (info : Info) :
    (c.getstate pid info).2.restoreMap = c.restoreMap := by
  simp only [getstate, save_restoreMap]

/-! ### Restoring -/

/-- The loop of `_restore` over `map`; `none` is the KeyError of a number that was never read. -/
def restoreEntries (map : Dict ℕ Value) (store : Store) :
    List (Str × Ref) → Option (List (Str × Option Value) × Dict ℕ Value × Store)
  | [] => some ([], map, store)
  | (dep, .none) :: deps => do
    let (ret, map, store) ← restoreEntries map store deps
    some ((dep, none) :: ret, map, store)
  | (dep, .again mapnum) :: deps => do
    let fs ← map.get? mapnum
    let (ret, map, store) ← restoreEntries map store deps
    some ((dep, some fs) :: ret, map, store)
  | (dep, .first fs mapnum) :: deps => do
    let (fs, store) := store.canon fs
    let (ret, map, store) ← restoreEntries (map.set mapnum fs) store deps
    some ((dep, some fs) :: ret, map, store)

/-- `_restore`. -/
def restore (c : Cls) (pid : Pid) : Saved → Option (Deps × Cls)
  | .none => some (none, c)
  | .empty => some (some Dict.empty, c)
  | .refs r rs => do
    let (ret, map, store) ← restoreEntries (c.mapOf pid) c.store (r :: rs)
    some (some (Dict.ofList ret), { c with store := store, restoreMap := c.restoreMap.set pid map })

/-- `__setstate__`. -/
def setstate (c : Cls) (state : Pickled) : Option (Info × Cls) := do
  let (gendeps, c) ← c.restore state.pid state.siggenGendeps
  let (taskdeps, c) ← c.restore state.pid state.siggenTaskdeps
  let (varvals, c) ← c.restore state.pid state.siggenVarvals
  some (⟨gendeps, taskdeps, varvals⟩, c)

/-! ### One object -/

/-- Every number the writer has given out is below the next one and means the same to the reader. -/
def Linked (w : Cls) (map : Dict ℕ Value) : Prop :=
  ∀ fs n, w.saveMap.get? fs = some n → n < w.saveCount ∧ map.get? n = some fs

theorem linked_reset (w : Cls) (map : Dict ℕ Value) : Linked w.reset map := by
  intro fs n h
  cases h

theorem Linked.first {w : Cls} {map : Dict ℕ Value} (h : Linked w map) (fs : Value) :
    Linked { w with saveMap := w.saveMap.set fs w.saveCount, saveCount := w.saveCount + 1 }
      (map.set w.saveCount fs) := by
  intro fs' n hn
  simp only [Dict.get?_set] at hn ⊢
  split at hn
  · next heq =>
    obtain rfl := Option.some.inj hn
    exact ⟨Nat.lt_succ_self _, by rw [if_pos rfl, heq]⟩
  · obtain ⟨hlt, hget⟩ := h fs' n hn
    exact ⟨Nat.lt_succ_of_lt hlt, by rw [if_neg hlt.ne, hget]⟩

/-- Restoring what was just saved gives the entries back and leaves the two sides linked. -/
theorem restoreEntries_saveEntries {w : Cls} {map : Dict ℕ Value} (h : Linked w map) (store : Store)
    (deps : List (Str × Option Value)) :
    ∃ map' store', restoreEntries map store (w.saveEntries deps).1 = some (deps, map', store') ∧
      Linked (w.saveEntries deps).2 map' := by
  induction deps generalizing w map store with
  | nil => exact ⟨map, store, rfl, h⟩
  | cons d deps ih =>
    obtain ⟨dep, _ | fs⟩ := d
    · obtain ⟨map', store', hrun, hl⟩ := ih h store
      exact ⟨map', store', by simp [saveEntries, saveValue, restoreEntries, hrun], hl⟩
    · cases hfs : w.saveMap.get? fs with
      | some n =>
        obtain ⟨map', store', hrun, hl⟩ := ih h store
        have hread : map.get? n = some fs := (h fs n hfs).2
        refine ⟨map', store', ?_, ?_⟩
        · simp [saveEntries, saveValue, hfs, restoreEntries, hread, hrun]
        · simpa [saveEntries, saveValue, hfs] using hl
      | none =>
        obtain ⟨map', store', hrun, hl⟩ := ih (h.first fs) (store.canon fs).2
        refine ⟨map', store', ?_, ?_⟩
        · simp [saveEntries, saveValue, hfs, restoreEntries, hrun]
        · simpa [saveEntries, saveValue, hfs] using hl

theorem saveEntries_eq_nil {w : Cls} {deps : List (Str × Option Value)}
    (h : (w.saveEntries deps).1 = []) : deps = [] := by
  cases deps with
  | nil => rfl
  | cons d deps => cases h

theorem mapOf_set (c : Cls) (store : Store) (pid q : Pid) (map : Dict ℕ Value) :
    mapOf { c with store := store, restoreMap := c.restoreMap.set pid map } q =
      if q = pid then map else c.mapOf q := by
  unfold mapOf
  rw [Dict.get?_set]
  split <;> rfl

/-- What one `__setstate__`, or a part of it, does to the reader `c`: it returns `a`, the writer is
linked to the numbers read under `pid`, and those of the other process ids are as before. -/
def Restores {α : Type} (c : Cls) (pid : Pid) (w : Cls) (a : α) (out : Option (α × Cls)) : Prop :=
  ∃ c', out = some (a, c') ∧ Linked w (c'.mapOf pid) ∧ ∀ q ≠ pid, c'.mapOf q = c.mapOf q

theorem restore_save {w c : Cls} {pid : Pid} (h : Linked w (c.mapOf pid)) (deps : Deps) :
    Restores c pid (w.save deps).2 deps (c.restore pid (w.save deps).1) := by
  cases deps with
  | none => exact ⟨c, rfl, h, fun _ _ => rfl⟩
  | some deps =>
    obtain ⟨map', store', hrun, hl⟩ := restoreEntries_saveEntries h c.store deps.entries
    rcases hs : w.saveEntries deps.entries with ⟨_ | ⟨r, rs⟩, w'⟩
    · have hnil : deps.entries = [] := saveEntries_eq_nil (by rw [hs])
      have hsave : w.save (some deps) = (.empty, w) := by simp only [save, hnil, saveEntries]
      rw [hsave, show deps = Dict.empty from Dict.ext hnil]
      exact ⟨c, rfl, h, fun _ _ => rfl⟩
    · have hsave : w.save (some deps) = (.refs r rs, w') := by simp only [save, hs]
      have hdict : Dict.ofList deps.entries = deps := Dict.ext (Dict.entries_ofList deps.nodup)
      rw [hs] at hrun hl
      rw [hsave]
      refine ⟨{ c with store := store', restoreMap := c.restoreMap.set pid map' }, ?_, ?_, ?_⟩
      · simp only [restore, hrun, Option.bind_eq_bind, Option.bind_some, hdict]
      · rw [mapOf_set, if_pos rfl]
        exact hl
      · intro q hq
        rw [mapOf_set, if_neg hq]

/-- An object comes back as it was saved. -/
theorem setstate_getstate {w c : Cls} {pid : Pid} (h : Linked w (c.mapOf pid)) (info : Info) :
    Restores c pid (w.getstate pid info).2 info (c.setstate (w.getstate pid info).1) := by
  obtain ⟨c₁, hrun₁, hl₁, hf₁⟩ := restore_save h info.siggenGendeps
  obtain ⟨c₂, hrun₂, hl₂, hf₂⟩ := restore_save hl₁ info.siggenTaskdeps
  obtain ⟨c₃, hrun₃, hl₃, hf₃⟩ := restore_save hl₂ info.siggenVarvals
  refine ⟨c₃, ?_, hl₃, fun q hq => ?_⟩
  · simp only [setstate, getstate, hrun₁, hrun₂, hrun₃, Option.bind_eq_bind, Option.bind_some]
  · rw [hf₃ q hq, hf₂ q hq, hf₁ q hq]

end Cls
end SiggenInfo
end BitBake
end OpenBmc
