import OpenBmc.Lib.Like
import OpenBmc.PrServ.Revision

/-!
# The PR table

The rows of the database and the operations of `PRTable` on them. A `SELECT` without `ORDER BY`
lists the rows it finds in an order of SQLite's own: `RowOrder`.
-/

namespace OpenBmc
namespace PrServ
open Py Dotted

structure Row where
  version : Str
  pkgarch : Str
  checksum : Str
  value : Str
deriving DecidableEq

abbrev Table := List Row

class RowOrder where
  order : List Row → List Row
  order_perm : ∀ rows, (order rows).Perm rows

namespace Table

def packageRows (t : Table) (version pkgarch : Str) : List Row :=
  t.filter fun r => r.version = version ∧ r.pkgarch = pkgarch

def checksumRows (t : Table) (version pkgarch checksum : Str) : List Row :=
  (t.packageRows version pkgarch).filter fun r => r.checksum = checksum

/-- The rows whose value is `LIKE '<base>.%'`. -/
def subRows (t : Table) (version pkgarch base : Str) : List Row :=
  (t.packageRows version pkgarch).filter fun r => like (base ++ ".%".toList) r.value

section Queries
variable [RowOrder]

/-- The values of the rows a `SELECT` finds. -/
def fetchall (rows : List Row) : List Str := (RowOrder.order rows).map Row.value

def extremumLoop (isMax : Bool) (value : Str) : List Str → Except PyError Str
  | [] => return value
  | currentValue :: rows => do
    let isNewExtremum ← if isMax then revisionGreater currentValue value
      else revisionSmaller currentValue value
    extremumLoop isMax (if isNewExtremum then currentValue else value) rows

def extremumValue (rows : List Str) (isMax : Bool) : Except PyError (Option Str) :=
  match rows with
  | [] => return none
  | value :: rows => do return some (← extremumLoop isMax value rows)

def findPackageMaxValue (t : Table) (version pkgarch : Str) : Except PyError (Option Str) :=
  extremumValue (fetchall (t.packageRows version pkgarch)) true

def findExtremumValue (t : Table) (version pkgarch checksum : Str) (isMax : Bool) :
    Except PyError (Option Str) :=
  extremumValue (fetchall (t.checksumRows version pkgarch checksum)) isMax

def findValue (t : Table) (version pkgarch checksum : Str) (history : Bool) :
    Except PyError (Option Str) :=
  if history then t.findExtremumValue version pkgarch checksum false
  else t.findExtremumValue version pkgarch checksum true

def findNewSubvalue (t : Table) (version pkgarch base : Str) : Except PyError Str := do
  match ← extremumValue (fetchall (t.subRows version pkgarch base)) true with
  | some value => increaseRevision value
  | none => return base ++ ".0".toList

def testPackage (t : Table) (version pkgarch : Str) : Bool := !(t.packageRows version pkgarch).isEmpty

/-- `store_value`: the new row, unless the database is read-only or has it. -/
def storeValue (t : Table) (readOnly : Bool) (row : Row) : Table :=
  if !readOnly && row ∉ t then t ++ [row] else t

/-- `_get_value`. The test whether the checksum's value is still the greatest compares strings. -/
def newValue (t : Table) (version pkgarch checksum : Str) (history : Bool) : Except PyError Str := do
  match ← t.findPackageMaxValue version pkgarch with
  | none => return "0".toList
  | some maxValue =>
    match ← t.findValue version pkgarch checksum history with
    | none => increaseRevision maxValue
    | some value =>
      if history then return value
      else if maxValue > value then increaseRevision maxValue
      else return value

def getValue (t : Table) (readOnly : Bool) (version pkgarch checksum : Str) (history : Bool) :
    Except PyError (Str × Table) := do
  let value ← t.newValue version pkgarch checksum history
  return (value, t.storeValue readOnly ⟨version, pkgarch, checksum, value⟩)

def importone (t : Table) (readOnly : Bool) (version pkgarch checksum value : Str) : Str × Table :=
  (value, t.storeValue readOnly ⟨version, pkgarch, checksum, value⟩)

end Queries

/-! ### What the queries find -/

variable {t : Table} {version pkgarch checksum : Str}

theorem mem_packageRows {r : Row} : r ∈ t.packageRows version pkgarch ↔
    r ∈ t ∧ r.version = version ∧ r.pkgarch = pkgarch := by
  simp [packageRows]

theorem mem_checksumRows {r : Row} : r ∈ t.checksumRows version pkgarch checksum ↔
    r ∈ t.packageRows version pkgarch ∧ r.checksum = checksum := by
  simp [checksumRows]

theorem mem_subRows {base : Str} (hb : ∀ c ∈ base, Literal c) {r : Row} :
    r ∈ t.subRows version pkgarch base ↔
      r ∈ t.packageRows version pkgarch ∧ base ++ ['.'] <+: r.value := by
  have hdot : ∀ c ∈ base ++ ['.'], Literal c := by
    intro c hc
    rcases List.mem_append.1 hc with hc | hc
    · exact hb c hc
    · rw [List.mem_singleton.1 hc]
      exact literal_dot
  have := like_iff_prefix (s := r.value) hdot
  rw [List.append_assoc] at this
  rw [subRows, List.mem_filter, ← this]
  rfl

theorem mem_storeValue {row r : Row} : r ∈ t.storeValue false row ↔ r ∈ t ∨ r = row := by
  unfold storeValue
  split
  · simp
  · rename_i h
    simp only [Bool.not_false, Bool.true_and, decide_eq_true_eq, not_not] at h
    constructor
    · exact .inl
    · rintro (hr | rfl)
      exacts [hr, h]

/-- Every value stored is a revision. -/
def Revisions (t : Table) : Prop := ∀ r ∈ t, IsRevision r.value

theorem revisions_packageRows (h : t.Revisions) (version pkgarch : Str) : ∀ r ∈ t.packageRows version pkgarch, IsRevision r.value :=
  fun r hr => h r (mem_packageRows.1 hr).1

theorem revisions_checksumRows (h : t.Revisions) (version pkgarch checksum : Str) :
    ∀ r ∈ t.checksumRows version pkgarch checksum, IsRevision r.value :=
  fun r hr => revisions_packageRows h _ _ r (mem_checksumRows.1 hr).1

theorem mem_of_mem_checksumRows {r : Row} (h : r ∈ t.checksumRows version pkgarch checksum) :
    ⟨version, pkgarch, checksum, r.value⟩ ∈ t := by
  obtain ⟨hmem, hc⟩ := mem_checksumRows.1 h
  obtain ⟨hmem, hv, hp⟩ := mem_packageRows.1 hmem
  rw [← hv, ← hp, ← hc]
  exact hmem

/-- The numbers of the rows' values. -/
def nums (rows : List Row) : Set (List Int) := {n | ∃ r ∈ rows, num r.value = n}

@[simp] theorem nums_nil : nums [] = ∅ := by simp [nums]

@[simp] theorem nums_singleton (r : Row) : nums [r] = {num r.value} := by
  ext n
  simp [nums, eq_comm]

theorem exists_isGreatest_nums {rows : List Row} (hne : rows ≠ []) : ∃ g, IsGreatest (nums rows) g := by
  have hs : nums rows = ((rows.map fun r => num r.value).toFinset : Set (List Int)) := by
    ext n
    simp [nums]
  have hn : (rows.map fun r => num r.value).toFinset.Nonempty := by simpa using hne
  rw [hs]
  exact ⟨_, Finset.isGreatest_max' _ hn⟩

/-- The scan for a greatest value accepts what is not below the value held. -/
def better (c v : Str) : Bool := decide (¬ Below (num c) (num v) ∧ c ≠ v)

theorem extremumLoop_true {v : Str} {l : List Str} (h : ∀ x ∈ v :: l, IsRevision x) :
    extremumLoop true v l = .ok (pick better v l) := by
  induction l generalizing v with
  | nil => rfl
  | cons c l ih =>
    obtain ⟨b, hb, hiff⟩ := revisionGreater_eq (h c (by simp)) (h v (by simp))
    have hbb : b = better c v := by
      rw [Bool.eq_iff_iff, hiff, better, decide_eq_true_iff]
    rw [extremumLoop, if_pos rfl, hb, hbb]
    refine ih fun x hx => ?_
    rcases List.mem_cons.1 hx with rfl | hx
    · split
      · exact h c (by simp)
      · exact h v (by simp)
    · exact h x (by simp [hx])

/-- The scan for a least value accepts what is below the value held. -/
def smaller (c v : Str) : Bool := decide (Below (num c) (num v))

theorem extremumLoop_false {v : Str} {l : List Str} (h : ∀ x ∈ v :: l, IsRevision x) :
    extremumLoop false v l = .ok (pick smaller v l) := by
  induction l generalizing v with
  | nil => rfl
  | cons c l ih =>
    obtain ⟨b, hb, hiff⟩ := revisionSmaller_eq (h c (by simp)) (h v (by simp))
    have hbb : b = smaller c v := by
      rw [Bool.eq_iff_iff, hiff, smaller, decide_eq_true_iff]
    rw [extremumLoop, if_neg (by simp), hb, hbb]
    refine ih fun x hx => ?_
    rcases List.mem_cons.1 hx with rfl | hx
    · split
      · exact h c (by simp)
      · exact h v (by simp)
    · exact h x (by simp [hx])

/-- The value is greater than those of all the rows. -/
def Above (rows : List Row) (x : Str) : Prop := ∀ r ∈ rows, num r.value < num x

theorem above_increaseRevision {rows : List Row} {m : Str} (hm : IsRevision m) (hg : IsGreatest (nums rows) (num m)) :
    ∃ x, increaseRevision m = .ok x ∧ IsRevision x ∧ Above rows x := by
  obtain ⟨x, hx, hrev, hnum⟩ := increaseRevision_eq hm
  refine ⟨x, hx, hrev, fun r hr => ?_⟩
  rw [hnum]
  exact (hg.2 ⟨r, hr, rfl⟩).trans_lt (lt_bump (components_ne_nil hm.components))

section Spec
variable [RowOrder] {rows : List Row}

theorem mem_fetchall {x : Str} : x ∈ fetchall rows ↔ ∃ r ∈ rows, r.value = x := by
  simp [fetchall, (RowOrder.order_perm rows).mem_iff]

theorem fetchall_eq_nil : fetchall rows = [] ↔ rows = [] := by
  rw [fetchall, List.map_eq_nil_iff]
  constructor
  · intro h
    exact List.nil_perm.1 (h ▸ RowOrder.order_perm rows)
  · rintro rfl
    exact List.perm_nil.1 (RowOrder.order_perm [])

/-- A greatest value of the rows is found, if no proper prefix of one is among them. -/
theorem extremumValue_max (h : ∀ r ∈ rows, IsRevision r.value) (hne : rows ≠ []) :
    ∃ m, extremumValue (fetchall rows) true = .ok (some m) ∧ (∃ r ∈ rows, r.value = m) ∧
      (Tip (nums rows) → IsGreatest (nums rows) (num m)) := by
  rcases hf : fetchall rows with _ | ⟨v, l⟩
  · exact absurd (fetchall_eq_nil.1 hf) hne
  have hmem : ∀ x, x ∈ v :: l ↔ ∃ r ∈ rows, r.value = x := fun x => by rw [← hf, mem_fetchall]
  have hrev : ∀ x ∈ v :: l, IsRevision x := by
    intro x hx
    obtain ⟨r, hr, rfl⟩ := (hmem x).1 hx
    exact h r hr
  refine ⟨pick better v l, ?_, (hmem _).1 pick_mem, fun htip => ?_⟩
  · rw [extremumValue, extremumLoop_true hrev]
    rfl
  · obtain ⟨g, hg⟩ := exists_isGreatest_nums hne
    have hS : ∀ x ∈ v :: l, num x ∈ nums rows := by
      intro x hx
      obtain ⟨r, hr, rfl⟩ := (hmem x).1 hx
      exact ⟨r, hr, rfl⟩
    obtain ⟨r, hr, hrg⟩ := hg.1
    rw [num_pick (fun c v => by rw [better, decide_eq_true_iff]) htip hg hS
      ⟨r.value, (hmem _).2 ⟨r, hr, rfl⟩, hrg⟩]
    exact hg

theorem extremumValue_min (h : ∀ r ∈ rows, IsRevision r.value) (hne : rows ≠ []) :
    ∃ m, extremumValue (fetchall rows) false = .ok (some m) ∧ ∃ r ∈ rows, r.value = m := by
  rcases hf : fetchall rows with _ | ⟨v, l⟩
  · exact absurd (fetchall_eq_nil.1 hf) hne
  have hmem : ∀ x, x ∈ v :: l ↔ ∃ r ∈ rows, r.value = x := fun x => by rw [← hf, mem_fetchall]
  have hrev : ∀ x ∈ v :: l, IsRevision x := by
    intro x hx
    obtain ⟨r, hr, rfl⟩ := (hmem x).1 hx
    exact h r hr
  refine ⟨pick smaller v l, ?_, (hmem _).1 pick_mem⟩
  rw [extremumValue, extremumLoop_false hrev]
  rfl

theorem extremumValue_nil (isMax : Bool) : extremumValue (fetchall []) isMax = .ok none := by
  rw [fetchall_eq_nil.2 rfl]
  rfl

/-- A new sub-revision extends its base; if no proper prefix of the greatest one is stored, no row of
the package has it. -/
theorem findNewSubvalue_eq {base : Str} (hrev : t.Revisions) (version pkgarch : Str) (hb : IsRevision base) :
    ∃ x, t.findNewSubvalue version pkgarch base = .ok x ∧ IsRevision x ∧
      ('_' ∉ base → num base < num x ∧ (Tip (nums (t.subRows version pkgarch base)) →
        ∀ r ∈ t.packageRows version pkgarch, r.value ≠ x)) := by
  have hM : ∀ r ∈ t.subRows version pkgarch base, IsRevision r.value := fun r hr =>
    revisions_packageRows hrev _ _ r (List.mem_filter.1 hr).1
  unfold findNewSubvalue
  by_cases hne : t.subRows version pkgarch base = []
  · rw [hne, extremumValue_nil]
    refine ⟨_, rfl, isRevision_append_zero hb, fun hu => ⟨num_lt_of_extend hb (isRevision_append_zero hb),
      fun _ r hr he => ?_⟩⟩
    have : r ∈ t.subRows version pkgarch base := (mem_subRows (literal_of_isRevision hb hu)).2
      ⟨hr, ⟨['0'], by rw [he, List.append_assoc]; rfl⟩⟩
    rw [hne] at this
    cases this
  · obtain ⟨m, hm, ⟨r, hr, rfl⟩, hgreat⟩ := extremumValue_max hM hne
    obtain ⟨x, hx, hxrev, hnum⟩ := increaseRevision_eq (hM r hr)
    rw [hm]
    refine ⟨x, hx, hxrev, fun hu => ?_⟩
    have hlit := literal_of_isRevision hb hu
    obtain ⟨y, hy⟩ := ((mem_subRows hlit).1 hr).2
    rw [List.append_assoc] at hy
    obtain ⟨z, rfl⟩ := increaseRevision_extend (hy ▸ hx : increaseRevision (base ++ '.' :: y) = .ok x)
    refine ⟨num_lt_of_extend hb hxrev, fun htip r' hr' he => ?_⟩
    have hmem : r' ∈ t.subRows version pkgarch base := (mem_subRows hlit).2
      ⟨hr', ⟨z, by rw [he, List.append_assoc]; rfl⟩⟩
    have hle := (hgreat htip).2 ⟨r', hmem, rfl⟩
    rw [he, hnum] at hle
    exact absurd hle (not_le.2 (lt_bump (components_ne_nil (hM r hr).components)))

/-! ### `_get_value` -/

/-- The value is one of the checksum, or a new one: greater than all the package has if no proper
prefix of the greatest is stored. -/
theorem newValue_eq (hrev : t.Revisions) (version pkgarch checksum : Str) (history : Bool) :
    ∃ x, t.newValue version pkgarch checksum history = .ok x ∧ IsRevision x ∧
      (⟨version, pkgarch, checksum, x⟩ ∈ t ∨
        (Tip (nums (t.packageRows version pkgarch)) → Above (t.packageRows version pkgarch) x)) := by
  have hV := revisions_packageRows hrev version pkgarch
  have hK := revisions_checksumRows hrev version pkgarch checksum
  unfold newValue findPackageMaxValue findValue findExtremumValue
  by_cases hne : t.packageRows version pkgarch = []
  · rw [hne, extremumValue_nil]
    exact ⟨_, rfl, by decide, .inr fun _ => by simp [Above]⟩
  obtain ⟨m, hm, ⟨r, hr, rfl⟩, hgreat⟩ := extremumValue_max hV hne
  obtain ⟨y, hy, hyrev, hnum⟩ := increaseRevision_eq (hV r hr)
  have habove : Tip (nums (t.packageRows version pkgarch)) → Above (t.packageRows version pkgarch) y := by
    intro htip r' hr'
    rw [hnum]
    exact ((hgreat htip).2 ⟨r', hr', rfl⟩).trans_lt (lt_bump (components_ne_nil (hV r hr).components))
  rw [hm]
  by_cases hne' : t.checksumRows version pkgarch checksum = []
  · rw [hne']
    cases history
    · simp only [Bool.false_eq_true, if_false, extremumValue_nil]
      exact ⟨y, hy, hyrev, .inr habove⟩
    · simp only [if_true, extremumValue_nil]
      exact ⟨y, hy, hyrev, .inr habove⟩
  cases history
  · obtain ⟨k, hk, ⟨r', hr', rfl⟩, -⟩ := extremumValue_max hK hne'
    simp only [Bool.false_eq_true, if_false, hk]
    by_cases hlt : r.value > r'.value
    · exact ⟨y, by simpa [bind, Except.bind, hlt] using hy, hyrev, .inr habove⟩
    · exact ⟨r'.value, by simp [bind, Except.bind, hlt, pure, Except.pure], hK r' hr',
        .inl (mem_of_mem_checksumRows hr')⟩
  · obtain ⟨k, hk, ⟨r', hr', rfl⟩⟩ := extremumValue_min hK hne'
    simp only [if_true, hk]
    exact ⟨r'.value, rfl, hK r' hr', .inl (mem_of_mem_checksumRows hr')⟩

/-- The comparisons agree with the order of the numbers on what is stored for a package and a
checksum of it: no proper prefix of a greatest value is stored, and where the greatest value of the
checksum is not the greatest of the package, it is smaller as a string too. -/
structure Agrees (t : Table) (version pkgarch checksum : Str) : Prop where
  tipPackage : Tip (nums (t.packageRows version pkgarch))
  tipChecksum : Tip (nums (t.checksumRows version pkgarch checksum))
  text : ∀ r ∈ t.packageRows version pkgarch, ∀ r' ∈ t.checksumRows version pkgarch checksum,
    IsGreatest (nums (t.packageRows version pkgarch)) (num r.value) →
    IsGreatest (nums (t.checksumRows version pkgarch checksum)) (num r'.value) →
    num r'.value < num r.value → r'.value < r.value

/-- Without history, a value greater than all the package has is made, or the checksum has the
greatest. -/
theorem newValue_of_agrees (hrev : t.Revisions) (ha : t.Agrees version pkgarch checksum) :
    ∃ x, t.newValue version pkgarch checksum false = .ok x ∧ IsRevision x ∧
      (Above (t.packageRows version pkgarch) x ∨ ⟨version, pkgarch, checksum, x⟩ ∈ t ∧
        ∀ r ∈ t.packageRows version pkgarch, num r.value ≤ num x) := by
  have hV := revisions_packageRows hrev version pkgarch
  have hK := revisions_checksumRows hrev version pkgarch checksum
  unfold newValue findPackageMaxValue findValue findExtremumValue
  by_cases hne : t.packageRows version pkgarch = []
  · rw [hne, extremumValue_nil]
    exact ⟨_, rfl, by decide, .inl (by simp [Above])⟩
  obtain ⟨m, hm, ⟨r, hr, rfl⟩, hgreat⟩ := extremumValue_max hV hne
  have hg := hgreat ha.tipPackage
  obtain ⟨y, hy, hyrev, habove⟩ := above_increaseRevision (hV r hr) hg
  rw [hm]
  by_cases hne' : t.checksumRows version pkgarch checksum = []
  · rw [hne']
    simp only [Bool.false_eq_true, if_false, extremumValue_nil]
    exact ⟨y, hy, hyrev, .inl habove⟩
  obtain ⟨k, hk, ⟨r', hr', rfl⟩, hgreat'⟩ := extremumValue_max hK hne'
  have hg' := hgreat' ha.tipChecksum
  simp only [Bool.false_eq_true, if_false, hk]
  by_cases hlt : r.value > r'.value
  · exact ⟨y, by simpa [bind, Except.bind, hlt] using hy, hyrev, .inl habove⟩
  · have hle : num r.value ≤ num r'.value :=
      not_lt.1 fun h => hlt (ha.text r hr r' hr' hg hg' h)
    refine ⟨r'.value, by simp [bind, Except.bind, hlt, pure, Except.pure], hK r' hr',
      .inr ⟨mem_of_mem_checksumRows hr', ?_⟩⟩
    · intro x hx
      exact (hg.2 ⟨x, hx, rfl⟩).trans hle

end Spec
end Table

end PrServ
end OpenBmc
