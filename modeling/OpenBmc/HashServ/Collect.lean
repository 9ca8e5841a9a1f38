import OpenBmc.HashServ.Database
import OpenBmc.Lib.Dict

/-!
# Garbage collection

`gc-mark` names a collection and marks rows with its name, new rows inherit it, and `gc-sweep`
deletes the rows that have another mark. What a collection is to keep is said by the history alone
(`kept`): the rows that matched one of its conditions, and those inserted since it began. The marks
say the same as long as no row has the name of the collection from an earlier one when it begins.
-/

namespace OpenBmc
namespace HashServ
open Py

inductive UnihashColumn where
  | method
  | taskhash
  | unihash
  | gcMark
deriving DecidableEq

namespace UnihashColumn

def name : UnihashColumn → Str
  | method => "method".toList
  | taskhash => "taskhash".toList
  | unihash => "unihash".toList
  | gcMark => "gc_mark".toList

/-- `UNIHASH_TABLE_COLUMNS`. -/
def all : List UnihashColumn := [method, taskhash, unihash, gcMark]

end UnihashColumn

def UnihashRow.get (r : UnihashRow) : UnihashColumn → Str
  | .method => r.method
  | .taskhash => r.taskhash
  | .unihash => r.unihash
  | .gcMark => r.gcMark

/-- The `where` of a request: values by column, or `None`. -/
abbrev Condition := Dict Str (Option Str)

namespace Condition
variable (condition : Condition)

/-- `_make_condition_statement` for the unihashes: other keys and absent values are left out. -/
def clauses : List (UnihashColumn × Str) :=
  UnihashColumn.all.filterMap fun c => (condition.get? c.name).join.map fun v => (c, v)

/-- A condition without clauses selects no row. -/
def selects (r : UnihashRow) : Bool :=
  condition.clauses ≠ [] ∧ ∀ c ∈ condition.clauses, r.get c.1 = c.2

end Condition

namespace Db
variable (db : Db)

/-- `gc_mark`. -/
def gcMarkWhere (mark : Str) (condition : Condition) : Db :=
  { db with
    gcMark := some mark
    unihashes := db.unihashes.map fun r => if condition.selects r then { r with gcMark := mark } else r
    unihashes_unique := by
      rw [List.map_map]
      convert db.unihashes_unique using 2
      funext r
      simp only [Function.comp]
      split <;> rfl }

/-- `gc_sweep`: without a mark nothing is deleted. -/
def gcSweep : Db :=
  { db with
    gcMark := none
    unihashes := db.unihashes.filter fun r => db.gcMark.all fun mark => r.gcMark = mark
    unihashes_unique := db.unihashes_unique.sublist (List.filter_sublist.map _) }

/-- `None` where the sweep is refused. -/
def handleGcSweep (mark : Str) : Option Db :=
  if db.gcMark = some mark ∧ mark ≠ [] then some db.gcSweep else none

/-- Removes unihashes and, as the condition may name columns of theirs that are left out here, any
outputs. -/
def remove (condition : Condition) (removed : OuthashRow → Bool) : Db :=
  { db with
    unihashes := db.unihashes.filter fun r => !condition.selects r
    outhashes := db.outhashes.filter fun r => !removed r
    unihashes_unique := db.unihashes_unique.sublist (List.filter_sublist.map _)
    outhashes_unique := db.outhashes_unique.sublist (List.filter_sublist.map _) }

end Db

inductive Operation where
  | insertUnihash (method taskhash unihash : Str)
  | insertOuthash (row : OuthashRow)
  | remove (condition : Condition) (removed : OuthashRow → Bool)
  | gcMark (mark : Str) (condition : Condition)
  | gcSweep (mark : Str)

def Db.run (db : Db) : Operation → Db
  | .insertUnihash method taskhash unihash => db.insertUnihash method taskhash unihash
  | .insertOuthash row => db.insertOuthash row
  | .remove condition removed => db.remove condition removed
  | .gcMark mark condition => db.gcMarkWhere mark condition
  | .gcSweep mark => (db.handleGcSweep mark).getD db

/-- The operations so far, latest first, each with the database it found. -/
abbrev History := List (Db × Operation)

/-- A collection with the mark has begun, and was neither swept nor left for another mark since. -/
def begun (mark : Str) : History → Bool
  | [] => false
  | (_, .gcMark mark' _) :: _ => mark' = mark
  | (db, .gcSweep mark') :: h => (db.handleGcSweep mark').isNone && begun mark h
  | (_, _) :: h => begun mark h

/-- The row with this key matched a condition of the collection with the mark, or was inserted since
the collection began. -/
def kept (mark : Str) (key : Str × Str) : History → Bool
  | [] => false
  | (db, .gcMark mark' condition) :: h =>
    mark' = mark && ((db.unihashes.any fun r => r.key = key && condition.selects r) || kept mark key h)
  | (db, .gcSweep mark') :: h => (db.handleGcSweep mark').isNone && kept mark key h
  | (db, .insertUnihash method taskhash _) :: h =>
    begun mark h && (db.row? method taskhash).isNone && (method, taskhash) = key || kept mark key h
  | (_, _) :: h => kept mark key h

/-- The histories, from a database without a mark, whose steps are as `ok` says. -/
inductive Recorded (ok : Db → Operation → Prop) : History → Db → Prop
  | start {db : Db} : db.gcMark = none → Recorded ok [] db
  | step {h : History} {db : Db} {op : Operation} : Recorded ok h db → ok db op →
      Recorded ok ((db, op) :: h) (db.run op)

/-- Where a collection begins, rows that have its mark already match its condition. -/
def Fresh (db : Db) : Operation → Prop
  | .gcMark mark condition => db.gcMark ≠ some mark →
      ∀ r ∈ db.unihashes, r.gcMark = mark → condition.selects r
  | _ => True

section Marks
variable {db : Db} {h : History} {mark : Str}

theorem begun_of_kept {key : Str × Str} (hk : kept mark key h = true) : begun mark h = true := by
  induction h with
  | nil => cases hk
  | cons e h ih =>
    obtain ⟨db, op⟩ := e
    cases op with
    | insertUnihash =>
      simp only [kept, Bool.or_eq_true, Bool.and_eq_true] at hk
      rcases hk with ⟨⟨hb, -⟩, -⟩ | hk
      · exact hb
      · exact ih hk
    | insertOuthash => exact ih hk
    | remove => exact ih hk
    | gcMark =>
      simp only [kept, Bool.and_eq_true] at hk
      exact hk.1
    | gcSweep =>
      simp only [kept, Bool.and_eq_true] at hk
      simp only [begun, Bool.and_eq_true]
      exact ⟨hk.1, ih hk.2⟩

/-- The marks say what is kept. -/
structure Marked (db : Db) (h : History) : Prop where
  begun : ∀ mark, db.gcMark = some mark ↔ begun mark h = true
  kept : ∀ mark, mark ≠ [] → db.gcMark = some mark →
    ∀ r ∈ db.unihashes, (r.gcMark = mark ↔ kept mark r.key h = true)

/-- Operations that leave the mark and the kept rows, and rows that were there or are kept. -/
theorem Marked.of_rows {db' : Db} {op : Operation} (hm : Marked db h) (hmark : db'.gcMark = db.gcMark)
    (hbegun : ∀ mark, HashServ.begun mark ((db, op) :: h) = HashServ.begun mark h)
    (hrows : ∀ mark, mark ≠ [] → db.gcMark = some mark → ∀ r ∈ db'.unihashes,
      r ∈ db.unihashes ∧ HashServ.kept mark r.key ((db, op) :: h) = HashServ.kept mark r.key h ∨
        r.gcMark = mark ∧ HashServ.kept mark r.key ((db, op) :: h) = true) :
    Marked db' ((db, op) :: h) := by
  refine ⟨fun mark => by rw [hmark, hbegun, hm.begun], fun mark hne hcur r hr => ?_⟩
  rw [hmark] at hcur
  rcases hrows mark hne hcur r hr with ⟨hmem, hk⟩ | ⟨hr, hk⟩
  · rw [hk, hm.kept mark hne hcur r hmem]
  · exact ⟨fun _ => hk, fun _ => hr⟩

theorem row?_eq_none_iff {method taskhash : Str} :
    db.row? method taskhash = none ↔ ∀ r ∈ db.unihashes, r.key ≠ (method, taskhash) := by
  simp [Db.row?, List.find?_eq_none]

theorem Marked.insertUnihash {method taskhash unihash : Str} (hm : Marked db h) :
    Marked (db.insertUnihash method taskhash unihash)
      ((db, .insertUnihash method taskhash unihash) :: h) := by
  cases hrow : db.row? method taskhash with
  | some r₀ =>
    have hdb : db.insertUnihash method taskhash unihash = db := dif_neg (by simp [hrow])
    rw [hdb]
    exact hm.of_rows rfl (fun _ => rfl) fun mark _ _ r hr => .inl ⟨hr, by simp [HashServ.kept, hrow]⟩
  | none =>
    have hdb : (db.insertUnihash method taskhash unihash).unihashes =
        db.unihashes ++ [⟨method, taskhash, unihash, db.gcMark.getD []⟩] := by
      rw [Db.insertUnihash, dif_pos hrow]
    have hmark : (db.insertUnihash method taskhash unihash).gcMark = db.gcMark := by
      rw [Db.insertUnihash, dif_pos hrow]
    refine hm.of_rows hmark (fun _ => rfl) fun mark _ hcur r hr => ?_
    rw [hdb] at hr
    rcases List.mem_append.1 hr with hr | hr
    · have hkey : (method, taskhash) ≠ r.key := (row?_eq_none_iff.1 hrow r hr).symm
      exact .inl ⟨hr, by simp [HashServ.kept, hkey]⟩
    · -- the new row has the mark of the collection
      obtain rfl := List.mem_singleton.1 hr
      refine .inr ⟨by simp [hcur], ?_⟩
      simp [HashServ.kept, (hm.begun mark).1 hcur, hrow, UnihashRow.key]

theorem Marked.gcMark {condition : Condition} (hm : Marked db h)
    (hfresh : Fresh db (.gcMark mark condition)) :
    Marked (db.gcMarkWhere mark condition) ((db, .gcMark mark condition) :: h) := by
  refine ⟨fun mark' => ?_, fun mark' hne hcur r' hr' => ?_⟩
  · simp [Db.gcMarkWhere, HashServ.begun]
  · obtain rfl : mark = mark' := Option.some.inj hcur
    obtain ⟨r, hr, rfl⟩ := List.mem_map.1 hr'
    have hkey : (if condition.selects r then { r with gcMark := mark } else r).key = r.key := by
      split <;> rfl
    rw [hkey]
    have hany : (db.unihashes.any fun r' => r'.key = r.key && condition.selects r') =
        condition.selects r := by
      rw [Bool.eq_iff_iff, List.any_eq_true]
      constructor
      · rintro ⟨r', hr', h⟩
        simp only [Bool.and_eq_true, decide_eq_true_eq] at h
        rw [← List.inj_on_of_nodup_map db.unihashes_unique hr' hr h.1]
        exact h.2
      · intro h
        exact ⟨r, hr, by simp [h]⟩
    simp only [HashServ.kept, decide_true, Bool.true_and, hany, Bool.or_eq_true]
    by_cases hsel : condition.selects r = true
    · simp [hsel]
    · simp only [hsel, Bool.false_eq_true, if_false, false_or]
      by_cases hcur : db.gcMark = some mark
      · exact hm.kept mark hne hcur r hr
      · -- a collection begins: the row has another mark
        constructor
        · intro hr'
          exact absurd (hfresh hcur r hr hr') hsel
        · intro hk
          exact absurd ((hm.begun mark).2 (begun_of_kept hk)) hcur

theorem gcSweep_refused (hm : Marked db h) (hs : db.handleGcSweep mark = none) :
    Marked (db.run (.gcSweep mark)) ((db, .gcSweep mark) :: h) := by
  have hdb : db.run (.gcSweep mark) = db := by simp [Db.run, hs]
  rw [hdb]
  refine hm.of_rows rfl (fun _ => ?_) fun _ _ _ r hr => .inl ⟨hr, ?_⟩
  · simp [HashServ.begun, hs]
  · simp [HashServ.kept, hs]

theorem Marked.run {op : Operation} (hm : Marked db h) (hfresh : Fresh db op) :
    Marked (db.run op) ((db, op) :: h) := by
  cases op with
  | insertUnihash => exact hm.insertUnihash
  | insertOuthash row =>
    have hmark : (db.insertOuthash row).gcMark = db.gcMark := by
      unfold Db.insertOuthash
      split <;> rfl
    have hrows : (db.insertOuthash row).unihashes = db.unihashes := by
      unfold Db.insertOuthash
      split <;> rfl
    refine hm.of_rows hmark (fun _ => rfl) fun _ _ _ r hr => .inl ⟨?_, rfl⟩
    rwa [Db.run, hrows] at hr
  | remove condition removed =>
    exact hm.of_rows rfl (fun _ => rfl) fun _ _ _ r hr => .inl ⟨(List.mem_filter.1 hr).1, rfl⟩
  | gcMark => exact hm.gcMark hfresh
  | gcSweep mark =>
    cases hs : db.handleGcSweep mark with
    | none => exact gcSweep_refused hm hs
    | some db' =>
      -- swept: no collection is going on
      have hdb : db' = db.gcSweep := by
        unfold Db.handleGcSweep at hs
        split at hs
        · exact (Option.some.inj hs).symm
        · cases hs
      have hrun : (db.run (.gcSweep mark)).gcMark = none := by
        rw [Db.run, hs, hdb]
        rfl
      refine ⟨fun mark' => ?_, fun mark' _ hcur => ?_⟩
      · simp [hrun, HashServ.begun, hs]
      · rw [hrun] at hcur
        cases hcur

theorem Recorded.marked (hr : Recorded Fresh h db) : Marked db h := by
  induction hr with
  | start hnone => exact ⟨fun mark => by simp [hnone, begun], fun mark _ hcur => by simp [hnone] at hcur⟩
  | step _ hok ih => exact ih.run hok

/-- After every history in which, where a collection begins, the rows that have its mark already match
its condition: a sweep deletes the unihashes that the collection is not to keep, and no others. -/
theorem gcSweep_exact {db' : Db} (hr : Recorded Fresh h db) (hs : db.handleGcSweep mark = some db') :
    begun mark h = true ∧ db'.unihashes = db.unihashes.filter (fun r => kept mark r.key h) ∧
      db'.outhashes = db.outhashes := by
  unfold Db.handleGcSweep at hs
  split at hs
  · rename_i hcur
    obtain rfl := Option.some.inj hs
    have hm := hr.marked
    refine ⟨(hm.begun mark).1 hcur.1, ?_, rfl⟩
    simp only [Db.gcSweep, hcur.1, Option.all_some]
    refine List.filter_congr fun r hr => ?_
    rw [Bool.eq_iff_iff, decide_eq_true_eq]
    exact hm.kept mark hcur.2 hcur.1 r hr
  · cases hs

end Marks

section Sample
namespace Sample

def unmarked (taskhash : Str) : UnihashRow := ⟨['m'], taskhash, ['u'], []⟩

theorem no_outhashes : (([] : List OuthashRow).map OuthashRow.key).Nodup := List.nodup_nil

/-- Two rows, of which neither has a mark. -/
def two : Db := ⟨[unmarked ['s'], unmarked ['t']], [], none, by decide, no_outhashes⟩

def taskhashIs (taskhash : Str) : Condition := .ofList [("taskhash".toList, some taskhash)]

def mark (name taskhash : Str) : Operation := .gcMark name (taskhashIs taskhash)

def insertion : Operation := .insertUnihash ['m'] ['x'] ['v']

/-- `s` is marked, then `x` inserted. -/
def once : History := [(two.run (mark ['A'] ['s']), insertion), (two, mark ['A'] ['s'])]

def onceDb : Db := (two.run (mark ['A'] ['s'])).run insertion

theorem recorded_once : Recorded Fresh once onceDb := by
  have h₀ : Recorded Fresh [] two := .start rfl
  have hfresh : Fresh two (mark ['A'] ['s']) := by
    intro _ r hr hmark
    have hr : r = unmarked ['s'] ∨ r = unmarked ['t'] := by simpa [two] using hr
    rcases hr with rfl | rfl <;> cases hmark
  have h₁ : Recorded Fresh [(two, mark ['A'] ['s'])] (two.run (mark ['A'] ['s'])) := .step h₀ hfresh
  exact .step h₁ trivial

/-- The mark `A` for `s` is left for `B`, and used again for `t`. -/
def left : Db := two.run (mark ['A'] ['s'])

def again : Db := left.run (mark ['B'] ['t'])

def reused : History :=
  [(again, mark ['A'] ['t']), (left, mark ['B'] ['t']), (two, mark ['A'] ['s'])]

def reusedDb : Db := again.run (mark ['A'] ['t'])

theorem recorded_reused : Recorded (fun _ _ => True) reused reusedDb := by
  have h₀ : Recorded (fun _ _ => True) [] two := .start rfl
  have h₁ : Recorded (fun _ _ => True) [(two, mark ['A'] ['s'])] left := .step h₀ trivial
  have h₂ : Recorded (fun _ _ => True) [(left, mark ['B'] ['t']), (two, mark ['A'] ['s'])] again :=
    .step h₁ trivial
  exact .step h₂ trivial

end Sample

theorem sweep_deletes_unmarked : begun ['A'] Sample.once = true ∧
    Sample.onceDb.gcSweep.unihashes =
      Sample.onceDb.unihashes.filter (fun r => kept ['A'] r.key Sample.once) ∧
    Sample.onceDb.gcSweep.outhashes = Sample.onceDb.outhashes :=
  gcSweep_exact Sample.recorded_once rfl

/-- `s` is kept, though only the collection before the last one marked it. -/
theorem sweep_keeps_stale : Recorded (fun _ _ => True) Sample.reused Sample.reusedDb ∧
    Sample.reusedDb.handleGcSweep ['A'] = some Sample.reusedDb.gcSweep ∧
    kept ['A'] (['m'], ['s']) Sample.reused = false ∧
    Sample.reusedDb.gcSweep.unihashes.map UnihashRow.key = [(['m'], ['s']), (['m'], ['t'])] :=
  ⟨Sample.recorded_reused, rfl, by decide +kernel, by decide +kernel⟩

end Sample

end HashServ
end OpenBmc
