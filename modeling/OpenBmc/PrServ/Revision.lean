import OpenBmc.Lib.Dotted
import OpenBmc.Lib.Like
import OpenBmc.Py.Int

/-!
# Revisions

A revision is a string of integers joined by dots. `revisionGreaterOrEqual` compares two of them
component by component and stops at the first difference, or when one runs out; a revision that runs
out first is greater or equal too. So it tells exactly whether the first is not `Below` the second.
-/

namespace OpenBmc
namespace PrServ
open Py Dotted

inductive PyError where
  /-- `int()` of something else. -/
  | valueError
  /-- `None.split`. -/
  | attributeError
deriving DecidableEq

def int (field : Str) : Except PyError Int :=
  match parseInt field with
  | some i => .ok i
  | none => .error .valueError

def splitDots (rev : Option Str) : Except PyError (List Str) :=
  match rev with
  | some rev => .ok (rev.splitOn '.')
  | none => .error .attributeError

def joinDots (fields : List Str) : Str := ['.'].intercalate fields

def increaseRevision (ver : Str) : Except PyError Str := do
  let fields := ver.splitOn '.'
  let val ← int (fields.getLast?.getD [])
  return joinDots (fields.dropLast ++ [intStr (val + 1)])

/-- The loop of `_revision_greater_or_equal`, over the components that are left. -/
def greaterOrEqualFields : List Str → List Str → Except PyError Bool
  | [], _ => return true
  | field1 :: fields1, fields2 => do
    let val1 ← int field1
    match fields2 with
    | [] => return true
    | field2 :: fields2 =>
      let val2 ← int field2
      if val2 < val1 then return true
      else if val2 > val1 then return false
      else greaterOrEqualFields fields1 fields2

def revisionGreaterOrEqual (rev1 rev2 : Option Str) : Except PyError Bool := do
  let fields1 ← splitDots rev1
  let fields2 ← splitDots rev2
  greaterOrEqualFields fields1 fields2

def revisionSmaller (rev1 rev2 : Option Str) : Except PyError Bool := do
  return !(← revisionGreaterOrEqual rev1 rev2)

def revisionGreater (rev1 rev2 : Option Str) : Except PyError Bool := do
  return (← revisionGreaterOrEqual rev1 rev2) && rev1 ≠ rev2

/-! ### Components -/

def ints : List Str → Option (List Int)
  | [] => some []
  | field :: fields => do
    let i ← parseInt field
    let is ← ints fields
    return i :: is

/-- The components of a revision, if it is one. -/
def components (rev : Str) : Option (List Int) := ints (rev.splitOn '.')

/-- A dotted integer string. -/
def IsRevision (rev : Str) : Prop := ∃ r, components rev = some r

instance (rev : Str) : Decidable (IsRevision rev) :=
  decidable_of_iff ((components rev).isSome = true) Option.isSome_iff_exists

/-- The number a revision stands for. -/
def num (rev : Str) : List Int := (components rev).getD []

theorem IsRevision.components {rev : Str} (h : IsRevision rev) :
    PrServ.components rev = some (num rev) := by
  obtain ⟨r, hr⟩ := h
  simp [num, hr]

theorem ints_cons {f : Str} {fs : List Str} {r : List Int} :
    ints (f :: fs) = some r ↔ ∃ i is, parseInt f = some i ∧ ints fs = some is ∧ r = i :: is := by
  simp only [ints, Option.bind_eq_bind, Option.bind_eq_some_iff]
  grind

theorem ints_append {fs gs : List Str} {r : List Int} : ints (fs ++ gs) = some r ↔
    ∃ is js, ints fs = some is ∧ ints gs = some js ∧ r = is ++ js := by
  induction fs generalizing r with
  | nil => simp [ints, eq_comm]
  | cons f fs ih =>
    rw [List.cons_append, ints_cons]
    constructor
    · rintro ⟨i, is, hi, his, rfl⟩
      obtain ⟨is₁, js, h₁, hjs, rfl⟩ := ih.1 his
      exact ⟨i :: is₁, js, ints_cons.2 ⟨i, is₁, hi, h₁, rfl⟩, hjs, rfl⟩
    · rintro ⟨is, js, his, hjs, rfl⟩
      obtain ⟨i, is₁, hi, h₁, rfl⟩ := ints_cons.1 his
      exact ⟨i, is₁ ++ js, hi, ih.2 ⟨is₁, js, h₁, hjs, rfl⟩, rfl⟩

theorem parseInt_of_mem {fs : List Str} {r : List Int} (h : ints fs = some r) {f : Str} (hf : f ∈ fs) :
    ∃ i, parseInt f = some i := by
  induction fs generalizing r with
  | nil => cases hf
  | cons g fs ih =>
    obtain ⟨i, is, hi, his, -⟩ := ints_cons.1 h
    rcases List.mem_cons.1 hf with rfl | hf
    exacts [⟨i, hi⟩, ih his hf]

theorem dot_not_mem_intStr (i : Int) : '.' ∉ intStr i := by
  intro h
  have hd : ∀ n, '.' ∉ natStr n := fun n hn => absurd (isDigit_of_mem_natStr hn) (by decide)
  cases i with
  | ofNat n => exact hd n h
  | negSucc n =>
    rcases List.mem_cons.1 h with h | h
    · cases h
    · exact hd _ h

theorem components_joinDots {fields : List Str} (hne : fields ≠ []) (h : ∀ f ∈ fields, '.' ∉ f) :
    components (joinDots fields) = ints fields := by
  rw [components, joinDots, List.splitOn_intercalate _ h hne]

/-! ### What the functions compute -/

section Spec
variable {s t : Str} {r q : List Int}

theorem int_eq_ok {i : Int} (h : parseInt s = some i) : int s = .ok i := by simp [int, h]

theorem components_ne_nil (h : components s = some r) : r ≠ [] := by
  unfold components at h
  rcases hf : s.splitOn '.' with _ | ⟨f, fs⟩
  · exact absurd hf (List.splitOn_ne_nil _ _)
  rw [hf] at h
  obtain ⟨i, is, -, -, rfl⟩ := ints_cons.1 h
  simp

theorem greaterOrEqualFields_eq {fs gs : List Str} (h : ints fs = some r) (h' : ints gs = some q) :
    ∃ b, greaterOrEqualFields fs gs = .ok b ∧ (b = true ↔ ¬ Below r q) := by
  induction fs generalizing gs r q with
  | nil => cases h; exact ⟨true, rfl, by simp [Below]⟩
  | cons f fs ih =>
    obtain ⟨i, is, hi, his, rfl⟩ := ints_cons.1 h
    cases gs with
    | nil =>
      cases h'
      exact ⟨true, by rw [greaterOrEqualFields, int_eq_ok hi]; rfl, by simp [Below]⟩
    | cons g gs =>
      obtain ⟨j, js, hj, hjs, rfl⟩ := ints_cons.1 h'
      obtain ⟨b, hb, hiff⟩ := ih his hjs
      have heq : greaterOrEqualFields (f :: fs) (g :: gs) =
          if j < i then .ok true else if j > i then .ok false else greaterOrEqualFields fs gs := by
        rw [greaterOrEqualFields, int_eq_ok hi]
        simp only [bind, Except.bind, int_eq_ok hj]
        rfl
      rw [heq]
      rcases lt_trichotomy i j with hij | rfl | hij
      · exact ⟨false, by rw [if_neg (by omega), if_pos hij], by simp [Below, hij]⟩
      · exact ⟨b, by rw [if_neg (by omega), if_neg (by omega), hb], by simp [Below, hiff]⟩
      · exact ⟨true, by rw [if_pos hij], by simp [Below]; omega⟩

/-- `_revision_greater_or_equal` tells whether the first revision is not below the second. -/
theorem revisionGreaterOrEqual_eq (h : IsRevision s) (h' : IsRevision t) :
    ∃ b, revisionGreaterOrEqual (some s) (some t) = .ok b ∧ (b = true ↔ ¬ Below (num s) (num t)) :=
  greaterOrEqualFields_eq h.components h'.components

theorem revisionSmaller_eq (h : IsRevision s) (h' : IsRevision t) :
    ∃ b, revisionSmaller (some s) (some t) = .ok b ∧ (b = true ↔ Below (num s) (num t)) := by
  obtain ⟨b, hb, hiff⟩ := revisionGreaterOrEqual_eq h h'
  exact ⟨!b, by simp [revisionSmaller, hb, bind, Except.bind, pure, Except.pure], by grind⟩

theorem revisionGreater_eq (h : IsRevision s) (h' : IsRevision t) :
    ∃ b, revisionGreater (some s) (some t) = .ok b ∧
      (b = true ↔ ¬ Below (num s) (num t) ∧ s ≠ t) := by
  obtain ⟨b, hb, hiff⟩ := revisionGreaterOrEqual_eq h h'
  refine ⟨b && decide (some s ≠ some t), ?_, by simp [hiff]⟩
  simp [revisionGreater, hb, bind, Except.bind, pure, Except.pure]

theorem bump_append_singleton (l : List Int) (a : Int) : bump (l ++ [a]) = l ++ [a + 1] := by
  induction l with
  | nil => rfl
  | cons b l ih =>
    rcases hl : l ++ [a] with _ | ⟨c, cs⟩
    · simp at hl
    · rw [List.cons_append, hl, bump, ← hl, ih, List.cons_append]

/-- `increase_revision` increases the last component. -/
theorem increaseRevision_eq (h : IsRevision s) :
    ∃ t, increaseRevision s = .ok t ∧ IsRevision t ∧ num t = bump (num s) := by
  have hc := h.components
  unfold components at hc
  have hne : s.splitOn '.' ≠ [] := List.splitOn_ne_nil _ _
  have hsplit : (s.splitOn '.').dropLast ++ [(s.splitOn '.').getLast hne] = s.splitOn '.' :=
    List.dropLast_append_getLast hne
  rw [← hsplit] at hc
  obtain ⟨is, js, his, hjs, hnum⟩ := ints_append.1 hc
  obtain ⟨i, js, hi, hnil, rfl⟩ := ints_cons.1 hjs
  cases hnil
  have hdots : ∀ f ∈ (s.splitOn '.').dropLast ++ [intStr (i + 1)], '.' ∉ f := by
    intro f hf
    rcases List.mem_append.1 hf with hf | hf
    · exact not_mem_of_mem_splitOn (List.mem_of_mem_dropLast hf)
    · rw [List.mem_singleton.1 hf]
      exact dot_not_mem_intStr _
  have ht : components (joinDots ((s.splitOn '.').dropLast ++ [intStr (i + 1)])) =
      some (is ++ [i + 1]) := by
    rw [components_joinDots (by simp) hdots]
    exact ints_append.2 ⟨is, _, his, by simp [ints], rfl⟩
  refine ⟨_, ?_, ⟨_, ht⟩, ?_⟩
  · rw [increaseRevision, List.getLast?_eq_some_getLast hne, Option.getD_some, int_eq_ok hi]
    rfl
  · rw [num, ht, hnum, bump_append_singleton]
    rfl

theorem dotted_splitOn {b z : Str} : (b ++ '.' :: z).splitOn '.' = b.splitOn '.' ++ z.splitOn '.' :=
  List.splitOn_append_cons_self ..

theorem num_prefix_of_extend {b z : Str} (hb : IsRevision b) (hx : IsRevision (b ++ '.' :: z)) :
    num b <+: num (b ++ '.' :: z) ∧ num b ≠ num (b ++ '.' :: z) := by
  have hc := hx.components
  rw [components, dotted_splitOn] at hc
  obtain ⟨is, js, his, hjs, hnum⟩ := ints_append.1 hc
  obtain rfl : num b = is := Option.some.inj (hb.components.symm.trans his)
  have hne : js ≠ [] := components_ne_nil (s := z) hjs
  rw [hnum]
  exact ⟨List.prefix_append _ _, by simpa using hne⟩

/-- A revision comes before what extends it by further components. -/
theorem num_lt_of_extend {b z : Str} (hb : IsRevision b) (hx : IsRevision (b ++ '.' :: z)) :
    num b < num (b ++ '.' :: z) := lt_iff.2 (.inr (num_prefix_of_extend hb hx))

theorem isRevision_append_zero {b : Str} (hb : IsRevision b) : IsRevision (b ++ ".0".toList) := by
  refine ⟨num b ++ [0], ?_⟩
  show components (b ++ '.' :: ['0']) = _
  rw [components, dotted_splitOn]
  exact ints_append.2 ⟨_, _, hb.components, by decide, rfl⟩

theorem joinDots_append {as bs : List Str} (ha : as ≠ []) (hb : bs ≠ []) :
    joinDots (as ++ bs) = joinDots as ++ '.' :: joinDots bs := by
  induction as with
  | nil => exact absurd rfl ha
  | cons a as ih =>
    cases as with
    | nil => simp [joinDots, List.intercalate_cons_of_ne_nil hb]
    | cons a' as =>
      have := ih (by simp)
      simp only [joinDots, List.cons_append, List.intercalate_cons_cons] at this ⊢
      rw [this]
      simp

/-- Increasing a revision keeps the components before the last. -/
theorem increaseRevision_extend {b y x : Str} (h : increaseRevision (b ++ '.' :: y) = .ok x) :
    ∃ z, x = b ++ '.' :: z := by
  have hy : y.splitOn '.' ≠ [] := List.splitOn_ne_nil _ _
  unfold increaseRevision at h
  simp only [dotted_splitOn, List.dropLast_append_of_ne_nil hy, bind, Except.bind] at h
  split at h
  · cases h
  · rename_i val _
    cases h
    refine ⟨joinDots ((y.splitOn '.').dropLast ++ [intStr (val + 1)]), ?_⟩
    rw [List.append_assoc, joinDots_append (List.splitOn_ne_nil _ _) (by simp)]
    congr 1
    exact List.intercalate_splitOn '.'

theorem literal_of_not_isAlpha {c : Char} (hp : c ≠ '%') (hu : c ≠ '_') (ha : c.isAlpha = false) :
    Literal c := by
  refine ⟨hp, hu, fun d h => ?_⟩
  rw [Char.isAlpha, Bool.or_eq_false_iff] at ha
  rw [toLower_of_not_isUpper (by simp [ha.1])] at h
  by_cases hd : d.isUpper
  · have := isLower_toLower hd
    rw [← h, ha.2] at this
    cases this
  · rwa [toLower_of_not_isUpper hd] at h

theorem not_isAlpha_of_isIntChar {c : Char} (h : isIntChar c) : c.isAlpha = false := by
  rw [Char.isAlpha, Bool.or_eq_false_iff, ← Bool.not_eq_true, ← Bool.not_eq_true, isUpper_iff, isLower_iff]
  simp only [isIntChar, isSpace, Bool.or_eq_true, Bool.and_eq_true, decide_eq_true_eq, beq_iff_eq,
    isDigit_iff] at h
  rcases h with (((h | h) | rfl) | rfl) | rfl
  · omega
  · omega
  all_goals decide

theorem literal_dot : Literal '.' := literal_of_not_isAlpha (by decide) (by decide) (by decide)

theorem literal_of_isRevision {b : Str} (h : IsRevision b) (hu : '_' ∉ b) : ∀ c ∈ b, Literal c := by
  intro c hc
  have hne : c ≠ '_' := fun he => hu (he ▸ hc)
  rcases mem_splitOn_of_mem '.' hc with rfl | ⟨f, hf, hcf⟩
  · exact literal_dot
  obtain ⟨i, hi⟩ := parseInt_of_mem h.components hf
  have hint := isIntChar_of_mem hi hcf
  refine literal_of_not_isAlpha ?_ hne (not_isAlpha_of_isIntChar hint)
  rintro rfl
  exact absurd hint (by decide)

end Spec

end PrServ
end OpenBmc
