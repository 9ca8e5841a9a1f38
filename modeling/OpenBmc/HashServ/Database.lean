import OpenBmc.Py.Str
import Mathlib.Data.List.MinMax
import Mathlib.Data.List.Lex

/-!
# The database of a hash equivalence server

Two tables: the unihash of a taskhash, and the outputs that tasks reported. Inserting a row whose key
is there is ignored, so a stored unihash never changes (`unihash_insertUnihash`). The equivalent of
an output is the unihash of its oldest row whose taskhash has one.
-/

namespace OpenBmc
namespace HashServ
open Py

/-- A row of `unihashes_v3`. -/
structure UnihashRow where
  method : Str
  taskhash : Str
  unihash : Str
  gcMark : Str
deriving DecidableEq

/-- A row of `outhashes_v2`. -/
structure OuthashRow where
  method : Str
  taskhash : Str
  outhash : Str
  created : Str
deriving DecidableEq

def UnihashRow.key (r : UnihashRow) : Str × Str := (r.method, r.taskhash)

def OuthashRow.key (r : OuthashRow) : Str × Str × Str := (r.method, r.taskhash, r.outhash)

structure Db where
  unihashes : List UnihashRow
  outhashes : List OuthashRow
  /-- The `gc-mark` of the configuration. -/
  gcMark : Option Str
  unihashes_unique : (unihashes.map UnihashRow.key).Nodup
  outhashes_unique : (outhashes.map OuthashRow.key).Nodup

/-- `ORDER BY f ASC LIMIT 1`. -/
def first {α β : Type} [LinearOrder β] (f : α → β) (rows : List α) : Option α := rows.argmin f

theorem first_cons {α β : Type} [LinearOrder β] (f : α → β) (a : α) (rows : List α) :
    first f (a :: rows) =
      (first f rows).elim (some a) fun c => if f c < f a then some c else some a := by
  rw [first, List.argmin_cons, ← first]
  cases first f rows <;> rfl

theorem mem_of_first {α β : Type} [LinearOrder β] {f : α → β} {a : α} {rows : List α}
    (h : first f rows = some a) : a ∈ rows := List.argmin_mem h

theorem first_eq_none {α β : Type} [LinearOrder β] {f : α → β} {rows : List α} :
    first f rows = none ↔ rows = [] := List.argmin_eq_none

/-- A later row is not the first. -/
theorem first_concat_of_le {α β : Type} [LinearOrder β] {f : α → β} {a c : α} {rows : List α}
    (h : first f rows = some c) (hle : ∀ b ∈ rows, f b ≤ f a) : first f (rows ++ [a]) = some c := by
  unfold first at h ⊢
  rw [List.argmin_concat, h]
  exact if_neg (not_lt.2 (hle c (List.argmin_mem h)))

namespace Db
variable (db : Db)

def row? (method taskhash : Str) : Option UnihashRow :=
  db.unihashes.find? fun r => r.key = (method, taskhash)

/-- `get_equivalent`, of which the unihash is not in the request. -/
def getEquivalent (method taskhash : Str) : Option Str := (db.row? method taskhash).map (·.unihash)

/-- The outputs whose taskhash has a unihash, with it. -/
def joined : List (OuthashRow × Str) :=
  db.outhashes.filterMap fun r => (db.getEquivalent r.method r.taskhash).map fun u => (r, u)

def oldest (rows : List (OuthashRow × Str)) : Option (OuthashRow × Str) :=
  first (fun r => r.1.created) rows

def getUnihashByTaskhashFull (method taskhash : Str) : Option (OuthashRow × Str) :=
  oldest (db.joined.filter fun r => r.1.method = method ∧ r.1.taskhash = taskhash)

def getUnihashByOuthash (method outhash : Str) : Option (OuthashRow × Str) :=
  oldest (db.joined.filter fun r => r.1.method = method ∧ r.1.outhash = outhash)

def getOuthash (method outhash : Str) : Option OuthashRow :=
  first OuthashRow.created (db.outhashes.filter fun r => r.method = method ∧ r.outhash = outhash)

def getEquivalentForOuthash (method outhash taskhash : Str) : Option Str :=
  (oldest (db.joined.filter fun r =>
    (r.1.method = method ∧ r.1.outhash = outhash) ∧ r.1.taskhash ≠ taskhash)).map Prod.snd

theorem not_mem_keys_of_row? {method taskhash : Str} (h : db.row? method taskhash = none) :
    (method, taskhash) ∉ db.unihashes.map UnihashRow.key := by
  intro hm
  obtain ⟨r, hr, he⟩ := List.mem_map.1 hm
  simpa [he] using List.find?_eq_none.1 h r hr

/-- `INSERT OR IGNORE`. -/
def insertUnihash (method taskhash unihash : Str) : Db :=
  if h : db.row? method taskhash = none then
    { db with
      unihashes := db.unihashes ++ [⟨method, taskhash, unihash, db.gcMark.getD []⟩]
      unihashes_unique := by
        rw [List.map_append, List.map_singleton, ← List.concat_eq_append, List.nodup_concat]
        exact ⟨db.not_mem_keys_of_row? h, db.unihashes_unique⟩ }
  else db

def hasOuthash (row : OuthashRow) : Bool := row.key ∈ db.outhashes.map OuthashRow.key

/-- `INSERT OR IGNORE`. -/
def insertOuthash (row : OuthashRow) : Db :=
  if h : row.key ∈ db.outhashes.map OuthashRow.key then db
  else
    { db with
      outhashes := db.outhashes ++ [row]
      outhashes_unique := by
        rw [List.map_append, List.map_singleton, ← List.concat_eq_append, List.nodup_concat]
        exact ⟨h, db.outhashes_unique⟩ }

variable {db} {method taskhash : Str}

theorem getEquivalent_eq_none : db.getEquivalent method taskhash = none ↔
    db.row? method taskhash = none := by
  simp [getEquivalent]

theorem getEquivalent_insertUnihash {unihash : Str} (m t : Str) :
    (db.insertUnihash method taskhash unihash).getEquivalent m t =
      if db.getEquivalent method taskhash = none ∧ (m, t) = (method, taskhash) then some unihash
      else db.getEquivalent m t := by
  unfold insertUnihash
  split
  · rename_i h
    have h' := getEquivalent_eq_none.2 h
    simp only [h', true_and]
    unfold getEquivalent row?
    rw [List.find?_append]
    split
    · rename_i he
      obtain ⟨rfl, rfl⟩ := Prod.mk.inj he
      rw [show db.unihashes.find? _ = none from h]
      simp [UnihashRow.key]
    · rename_i he
      have hne : ¬ (method = m ∧ taskhash = t) := by
        rintro ⟨rfl, rfl⟩
        exact he rfl
      simp [UnihashRow.key, hne]
  · rename_i h
    rw [if_neg fun h' => h (getEquivalent_eq_none.1 h'.1)]

theorem getEquivalent_insertUnihash_of_some {unihash m t u : Str} (h : db.getEquivalent m t = some u) :
    (db.insertUnihash method taskhash unihash).getEquivalent m t = some u := by
  rw [getEquivalent_insertUnihash, if_neg, h]
  rintro ⟨hnone, he⟩
  obtain ⟨rfl, rfl⟩ := Prod.mk.inj he
  rw [hnone] at h
  cases h

/-- After the insertion there is a unihash. -/
theorem getEquivalent_insertUnihash_self (unihash : Str) :
    (db.insertUnihash method taskhash unihash).getEquivalent method taskhash =
      some ((db.getEquivalent method taskhash).getD unihash) := by
  rw [getEquivalent_insertUnihash]
  split
  · rename_i h
    rw [h.1]
    rfl
  · rename_i h
    cases hu : db.getEquivalent method taskhash with
    | none => exact absurd ⟨hu, rfl⟩ h
    | some u => rfl

@[simp]
theorem getEquivalent_insertOuthash (row : OuthashRow) (m t : Str) :
    (db.insertOuthash row).getEquivalent m t = db.getEquivalent m t := by
  unfold insertOuthash
  split <;> rfl

@[simp]
theorem outhashes_insertUnihash (unihash : Str) :
    (db.insertUnihash method taskhash unihash).outhashes = db.outhashes := by
  unfold insertUnihash
  split <;> rfl

theorem mem_outhashes_insertOuthash {row r : OuthashRow} (h : r ∈ (db.insertOuthash row).outhashes) :
    r ∈ db.outhashes ∨ r = row := by
  unfold insertOuthash at h
  split at h
  · exact .inl h
  · simpa using h

theorem mem_joined {r : OuthashRow} {u : Str} : (r, u) ∈ db.joined ↔
    r ∈ db.outhashes ∧ db.getEquivalent r.method r.taskhash = some u := by
  simp only [joined, List.mem_filterMap, Option.map_eq_some_iff, Prod.mk.injEq]
  constructor
  · rintro ⟨r', hr', u', hu', rfl, rfl⟩
    exact ⟨hr', hu'⟩
  · rintro ⟨hr, hu⟩
    exact ⟨r, hr, u, hu, rfl, rfl⟩

end Db

end HashServ
end OpenBmc
