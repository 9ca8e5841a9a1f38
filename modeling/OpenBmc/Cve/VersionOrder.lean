import OpenBmc.Cve.VersionText

/-!
# The order of versions

Versions are ordered by their releases, then by their patches, then by their pre-releases: `Before`.
The keys order the texts of the patches and the numbers of the pre-releases instead. `judged_iff`
says for which two versions that is the same.
-/

namespace OpenBmc
namespace Cve
open Py

/-! ### Releases -/

/-- Component by component; what is missing is zero. -/
def ReleaseBefore (a b : List ℕ) : Prop :=
  ∃ i, (∀ j < i, a.getD j 0 = b.getD j 0) ∧ a.getD i 0 < b.getD i 0

def ReleaseSame (a b : List ℕ) : Prop := ∀ i, a.getD i 0 = b.getD i 0

/-- A release without its trailing zeros. -/
def trim (a : List ℕ) : List ℕ := a.rdropWhile (· = 0)

theorem getD_trim (a : List ℕ) (i : ℕ) : (trim a).getD i 0 = a.getD i 0 := by
  induction a using List.reverseRecOn with
  | nil => rfl
  | append_singleton a x ih =>
    by_cases hx : x = 0
    · rw [trim, List.rdropWhile_concat_pos _ _ _ (by simpa using hx)]
      refine ih.trans ?_
      rcases Nat.lt_or_ge i a.length with hi | hi
      · rw [List.getD_append _ _ _ _ hi]
      · rw [List.getD_append_right _ _ _ _ hi, List.getD_eq_default _ _ hi, hx]
        rcases i - a.length with _ | k
        · rfl
        · rfl
    · rw [trim, List.rdropWhile_concat_neg _ _ _ (by simpa using hx)]

/-- No component at the end is zero. -/
def Trimmed (a : List ℕ) : Prop := ∀ h : a ≠ [], a.getLast h ≠ 0

theorem trimmed_trim (a : List ℕ) : Trimmed (trim a) := fun h => by
  have hlast := List.rdropWhile_last_not (fun x : ℕ => decide (x = 0)) a h
  rw [decide_eq_true_eq] at hlast
  exact hlast

theorem Trimmed.tail {x : ℕ} {a : List ℕ} (h : Trimmed (x :: a)) : Trimmed a := fun hne => by
  rw [← List.getLast_cons hne]
  exact h (List.cons_ne_nil x a)

theorem Trimmed.exists_ne_zero {x : ℕ} {a : List ℕ} (h : Trimmed (x :: a)) :
    ∃ i, (x :: a).getD i 0 ≠ 0 := by
  refine ⟨a.length, ?_⟩
  have hlast := h (List.cons_ne_nil x a)
  rw [List.getLast_eq_getElem] at hlast
  rw [List.getD_eq_getElem _ _ (by simp)]
  exact hlast

theorem releaseBefore_nil_iff {b : List ℕ} : ReleaseBefore [] b ↔ ∃ i, b.getD i 0 ≠ 0 := by
  constructor
  · rintro ⟨i, -, hi⟩
    exact ⟨i, Nat.ne_of_gt (Nat.zero_lt_of_lt hi)⟩
  · intro h
    refine ⟨Nat.find h, fun j hj => ?_, Nat.pos_of_ne_zero (Nat.find_spec h)⟩
    exact (not_not.1 (Nat.find_min h hj)).symm

theorem not_releaseBefore_nil (a : List ℕ) : ¬ ReleaseBefore a [] := by
  rintro ⟨i, -, hi⟩
  exact absurd hi (Nat.not_lt_zero _)

theorem releaseBefore_cons {x y : ℕ} {a b : List ℕ} :
    ReleaseBefore (x :: a) (y :: b) ↔ x < y ∨ x = y ∧ ReleaseBefore a b := by
  constructor
  · rintro ⟨i, heq, hlt⟩
    cases i with
    | zero => exact .inl hlt
    | succ i =>
      exact .inr ⟨heq 0 (Nat.zero_lt_succ i), i, fun j hj => heq (j + 1) (Nat.succ_lt_succ hj), hlt⟩
  · rintro (hlt | ⟨rfl, i, heq, hlt⟩)
    · exact ⟨0, fun j hj => absurd hj (Nat.not_lt_zero j), hlt⟩
    · refine ⟨i + 1, fun j hj => ?_, hlt⟩
      cases j with
      | zero => rfl
      | succ j => exact heq j (Nat.lt_of_succ_lt_succ hj)

/-- On releases without trailing zeros the order is the one of tuples. -/
theorem Trimmed.lt_iff {a b : List ℕ} (ha : Trimmed a) (hb : Trimmed b) :
    a < b ↔ ReleaseBefore a b := by
  induction a generalizing b with
  | nil =>
    cases b with
    | nil => exact iff_of_false (lt_irrefl _) (not_releaseBefore_nil _)
    | cons y b => exact iff_of_true (List.nil_lt_cons y b) (releaseBefore_nil_iff.2 hb.exists_ne_zero)
  | cons x a ih =>
    cases b with
    | nil => exact iff_of_false (List.not_lt_nil _) (not_releaseBefore_nil _)
    | cons y b => rw [List.cons_lt_cons_iff, releaseBefore_cons, ih ha.tail hb.tail]

theorem Trimmed.eq_iff {a b : List ℕ} (ha : Trimmed a) (hb : Trimmed b) :
    a = b ↔ ReleaseSame a b := by
  constructor
  · rintro rfl i
    rfl
  · intro h
    have hsame : ∀ {c d : List ℕ}, ReleaseSame c d → ¬ ReleaseBefore c d := by
      rintro c d hcd ⟨i, -, hi⟩
      exact absurd (hcd i) (Nat.ne_of_lt hi)
    rcases lt_trichotomy a b with hlt | heq | hgt
    · exact absurd ((ha.lt_iff hb).1 hlt) (hsame h)
    · exact heq
    · exact absurd ((hb.lt_iff ha).1 hgt) (hsame fun i => (h i).symm)

theorem trim_lt_iff (a b : List ℕ) : trim a < trim b ↔ ReleaseBefore a b := by
  rw [(trimmed_trim a).lt_iff (trimmed_trim b)]
  simp only [ReleaseBefore, getD_trim]

theorem trim_eq_iff (a b : List ℕ) : trim a = trim b ↔ ReleaseSame a b := by
  rw [(trimmed_trim a).eq_iff (trimmed_trim b)]
  simp only [ReleaseSame, getD_trim]

/-! ### The order that is meant -/

/-- The place of a stage. -/
def Stage.rank : Stage → ℕ
  | dev => 0
  | alpha => 1
  | beta => 2
  | rc => 3

/-- A letter by the alphabet, a number by its value. -/
def Patch.rank : Patch → ℕ
  | .letter _ c _ => c.toUpper.toNat
  | .number _ _ _ n => digitsVal n.1

/-- The number of a pre-release; none comes first. -/
def Pre.value (p : Pre) : WithBot ℕ := p.number.map fun n => digitsVal n.2.1

def Pre.rank (p : Pre) : ℕ ×ₗ WithBot ℕ := toLex (p.stage.rank, p.value)

namespace Form
variable {suffix : Str}

/-- No patch comes first. -/
def patchRank (f : Form suffix) : WithBot ℕ := f.patch.map Patch.rank

/-- No pre-release comes last. -/
def preRank (f : Form suffix) : WithTop (ℕ ×ₗ WithBot ℕ) := f.pre.map Pre.rank

def Before (v w : Form suffix) : Prop :=
  ReleaseBefore v.release w.release ∨ ReleaseSame v.release w.release ∧
    (v.patchRank < w.patchRank ∨ v.patchRank = w.patchRank ∧ v.preRank < w.preRank)

def Same (v w : Form suffix) : Prop :=
  ReleaseSame v.release w.release ∧ v.patchRank = w.patchRank ∧ v.preRank = w.preRank

/-- Two versions are compared as they are meant. -/
def Judged (v w : Form suffix) : Prop :=
  ∃ a b, readVersion suffix v.render = some a ∧ readVersion suffix w.render = some b ∧
    (lt a b ↔ v.Before w) ∧ (gt a b ↔ w.Before v) ∧ (eq a b ↔ v.Same w) ∧
    (le a b ↔ v.Before w ∨ v.Same w) ∧ (ge a b ↔ w.Before v ∨ v.Same w)

end Form

/-! ### Where the keys agree with it -/

/-- The number as a double. -/
def Pre.double (p : Pre) : Number := p.value.map toDouble

/-- The numbers alone order two pre-releases as they are meant. -/
def PreAgrees : Option Pre → Option Pre → Prop
  | none, none => True
  | some p, none | none, some p => p.double ≠ ⊤
  | some p, some q =>
    if p.stage.rank < q.stage.rank then p.double < q.double
    else if q.stage.rank < p.stage.rank then q.double < p.double
    else p.double = q.double → p.value = q.value

/-- The letter that is taken of a stage. -/
def Stage.initial : Stage → Char
  | dev => 'D'
  | alpha => 'A'
  | beta => 'B'
  | rc => 'R'

/-- The first letters order two pre-releases as they are meant. -/
def InitialsAgree : Option Pre → Option Pre → Prop
  | some p, some q =>
    p.stage.initial < q.stage.initial ∧ p.stage.rank < q.stage.rank ∨
      q.stage.initial < p.stage.initial ∧ q.stage.rank < p.stage.rank ∨
      p.stage = q.stage ∧ p.value = q.value
  | _, _ => False

namespace Form
variable {suffix : Str}

/-- The text of the patch, without its case. -/
def mark (f : Form suffix) : Str := ((f.patch.map Patch.value).getD []).map upperChar

/-- The first letter of the stage. -/
def initial (f : Form suffix) : Str := (f.pre.map fun p => [p.stage.initial]).getD []

/-- Two versions whose keys are in the right order. -/
def Agrees (v w : Form suffix) : Prop :=
  ¬ ReleaseSame v.release w.release ∨
    if v.Misread then if w.Misread then InitialsAgree v.pre w.pre else v.initial < w.mark
    else if w.Misread then w.initial < v.mark
    else
      v.mark = w.mark ∧ PreAgrees v.pre w.pre ∨ v.mark < w.mark ∧ v.Before w ∨
        w.mark < v.mark ∧ w.Before v

end Form

/-! ### Two orders on one pair -/

section SameOrder
variable {α β γ δ : Type*} [LinearOrder α] [LinearOrder β] [LinearOrder γ] [LinearOrder δ]

/-- The values `a` and `b` are in the order of `x` and `y`. -/
def SameOrder (a b : α) (x y : β) : Prop := a < b ∧ x < y ∨ b < a ∧ y < x ∨ a = b ∧ x = y

theorem sameOrder_symm {a b : α} {x y : β} : SameOrder a b x y ↔ SameOrder b a y x := by
  unfold SameOrder
  rw [eq_comm (a := a), eq_comm (a := x)]
  tauto

theorem sameOrder_of_lt {a b : α} {x y : β} (h : x < y) : SameOrder a b x y ↔ a < b := by
  constructor
  · rintro (hs | ⟨-, hs⟩ | ⟨-, hs⟩)
    · exact hs.1
    · exact absurd hs h.asymm
    · exact absurd hs h.ne
  · exact fun ha => .inl ⟨ha, h⟩

theorem sameOrder_of_eq {a b : α} {x y : β} (h : x = y) : SameOrder a b x y ↔ a = b := by
  constructor
  · rintro (⟨-, hs⟩ | ⟨-, hs⟩ | hs)
    · exact absurd h hs.ne
    · exact absurd h hs.ne'
    · exact hs.1
  · exact fun ha => .inr (.inr ⟨ha, h⟩)

theorem SameOrder.lt_iff {a b : α} {x y : β} (h : SameOrder a b x y) : a < b ↔ x < y := by
  rcases h with ⟨ha, hx⟩ | ⟨ha, hx⟩ | ⟨rfl, rfl⟩
  · exact iff_of_true ha hx
  · exact iff_of_false ha.asymm hx.asymm
  · exact iff_of_false (lt_irrefl _) (lt_irrefl _)

theorem SameOrder.eq_iff {a b : α} {x y : β} (h : SameOrder a b x y) : a = b ↔ x = y := by
  rcases h with ⟨ha, hx⟩ | ⟨ha, hx⟩ | ⟨rfl, rfl⟩
  · exact iff_of_false ha.ne hx.ne
  · exact iff_of_false ha.ne' hx.ne'
  · exact iff_of_true rfl rfl

/-- One first component for both. -/
theorem sameOrder_toLex_left {r r' : α} {a b : β} {x y : γ} :
    SameOrder (toLex (r, a)) (toLex (r', b)) (toLex (r, x)) (toLex (r', y)) ↔
      r ≠ r' ∨ SameOrder a b x y := by
  have hne : ∀ {c c' : α}, c ≠ c' → (toLex (c, a) : α ×ₗ β) ≠ toLex (c', b) := fun h he =>
    h (congrArg (fun z => (ofLex z).1) he)
  rcases lt_trichotomy r r' with h | rfl | h
  · refine iff_of_true (.inl ⟨?_, ?_⟩) (.inl h.ne) <;> exact Prod.Lex.toLex_lt_toLex.2 (.inl h)
  · simp [SameOrder, Prod.Lex.toLex_lt_toLex]
  · refine iff_of_true (.inr (.inl ⟨?_, ?_⟩)) (.inl h.ne') <;>
      exact Prod.Lex.toLex_lt_toLex.2 (.inl h)

/-- Two first components, where the first ones being the same makes the second ones the same. -/
theorem sameOrder_toLex {m m' : α} {n n' : β} {k k' : γ} {z z' : δ} (h : m = m' → k = k') :
    SameOrder (toLex (m, n)) (toLex (m', n')) (toLex (k, z)) (toLex (k', z')) ↔
      m = m' ∧ SameOrder n n' z z' ∨ m < m' ∧ toLex (k, z) < toLex (k', z') ∨
        m' < m ∧ toLex (k', z') < toLex (k, z) := by
  rcases lt_trichotomy m m' with hm | rfl | hm
  · have hlt : toLex (m, n) < toLex (m', n') := Prod.Lex.toLex_lt_toLex.2 (.inl hm)
    simp [SameOrder, hm, hm.asymm, hm.ne, hlt, hlt.asymm, hlt.ne]
  · obtain rfl := h rfl
    simp [SameOrder, Prod.Lex.toLex_lt_toLex]
  · have hlt : toLex (m', n') < toLex (m, n) := Prod.Lex.toLex_lt_toLex.2 (.inl hm)
    simp [SameOrder, hm, hm.asymm, hm.ne', hlt, hlt.asymm, hlt.ne']

end SameOrder

namespace Form
variable {suffix : Str}

/-- The key that is meant. -/
def meant (f : Form suffix) : List ℕ ×ₗ WithBot ℕ ×ₗ WithTop (ℕ ×ₗ WithBot ℕ) :=
  toLex (trim f.release, toLex (f.patchRank, f.preRank))

theorem before_iff {v w : Form suffix} : v.Before w ↔ v.meant < w.meant := by
  rw [meant, meant, Prod.Lex.toLex_lt_toLex, Prod.Lex.toLex_lt_toLex, Before, trim_lt_iff,
    trim_eq_iff]

theorem same_iff {v w : Form suffix} : v.Same w ↔ v.meant = w.meant := by
  rw [meant, meant, Same, ← trim_eq_iff]
  simp

/-- The judgement is one about the keys. -/
theorem judged_iff_sameOrder {v w : Form suffix} :
    v.Judged w ↔ SameOrder (cmpkey v.fields) (cmpkey w.fields) v.meant w.meant := by
  simp only [Judged, before_iff, same_iff]
  constructor
  · rintro ⟨a, b, ha, hb, -, hgt, heq, -, -⟩
    rw [readVersion_render, Option.some.injEq] at ha hb
    subst ha hb
    rw [gt, decide_eq_true_eq] at hgt
    rw [eq, decide_eq_true_eq] at heq
    rcases lt_trichotomy v.meant w.meant with h | h | h
    · refine .inl ⟨lt_of_not_ge fun hle => ?_, h⟩
      rcases hle.lt_or_eq with hlt | he
      · exact h.asymm (hgt.1 hlt)
      · exact h.ne (heq.1 he.symm)
    · exact .inr (.inr ⟨heq.2 h, h⟩)
    · exact .inr (.inl ⟨hgt.2 h, h⟩)
  · intro h
    have hlt := h.lt_iff
    have hgt := (sameOrder_symm.1 h).lt_iff
    have heq := h.eq_iff
    refine ⟨_, _, v.readVersion_render, w.readVersion_render, ?_, ?_, ?_, ?_, ?_⟩
    · rw [lt, gt, eq, Bool.and_eq_true, Bool.not_eq_true', Bool.not_eq_true', decide_eq_false_iff_not,
        decide_eq_false_iff_not, hgt, heq, not_lt, ← ne_eq, ← lt_iff_le_and_ne]
    · rw [gt, decide_eq_true_eq, hgt]
    · rw [eq, decide_eq_true_eq, heq]
    · rw [le, gt, Bool.not_eq_true', decide_eq_false_iff_not, hgt, not_lt, le_iff_lt_or_eq]
    · rw [ge, gt, eq, Bool.or_eq_true, decide_eq_true_eq, decide_eq_true_eq, hgt, heq]

/-- The number of a version; none comes last. -/
def number (f : Form suffix) : Number := (f.pre.map Pre.double).getD ⊤

theorem cmpkey_of_not_misread {f : Form suffix} (h : ¬ f.Misread) :
    cmpkey f.fields = toLex (trim f.release, toLex (f.mark, f.number)) := by
  rw [fields, if_neg h, cmpkey, number]
  rcases hp : f.pre with _ | p
  · rfl
  · rcases hn : p.number with _ | n <;> simp [Pre.double, Pre.value, hn, trim, mark] <;> rfl

/-- Only one character of either case is read as the first letter of a stage. -/
theorem upperChar_of_fold : ∀ {c a : Char}, fold c = a → a ∈ ['d', 'a', 'b', 'r'] →
    upperChar c = a.toUpper := by
  intro c a hc ha
  have hplain : c.toNat ≠ 0x130 ∧ c.toNat ≠ 0x131 ∧ c.toNat ≠ 0x17F ∧ c.toNat ≠ 0x212A := by
    refine ⟨?_, ?_, ?_, ?_⟩ <;>
    · intro hn
      rw [← Char.ofNat_toNat c, hn] at hc
      rw [← hc] at ha
      exact absurd ha (by decide)
  obtain ⟨h1, h2, h3, h4⟩ := hplain
  rw [fold, if_neg (by omega), if_neg h3, if_neg h4] at hc
  rw [upperChar, if_neg h2, if_neg h3]
  by_cases hup : c.isUpper
  · have hc' : c = Char.ofNat (a.toNat - 32) := by
      have hnat := toNat_toLower hup
      rw [hc] at hnat
      rw [hnat, Nat.add_sub_cancel, Char.ofNat_toNat]
    rw [hc']
    simp only [List.mem_cons, List.not_mem_nil, or_false] at ha
    rcases ha with rfl | rfl | rfl | rfl <;> decide
  · rw [toLower_of_not_isUpper hup] at hc
    rw [hc]

theorem cmpkey_of_misread {f : Form suffix} (h : f.Misread) :
    cmpkey f.fields = toLex (trim f.release, toLex (f.initial, (⊤ : Number))) := by
  obtain ⟨p, hp⟩ := Option.ne_none_iff_exists'.1 h.2.2
  obtain ⟨c, t, hw, -, hstage⟩ := p.exists_word
  have hletter : upperChar c = p.stage.initial := by
    have hhead : fold c = p.stage.word.headD 'x' := by rw [hstage]; rfl
    have hmem : p.stage.word.headD 'x' ∈ ['d', 'a', 'b', 'r'] := by cases p.stage <;> decide
    rw [upperChar_of_fold hhead hmem]
    cases p.stage <;> decide
  rw [fields, if_pos h, cmpkey, initial, hp, Option.map_some, Option.getD_some, Option.map_some,
    Option.getD_some, hw, ← hletter]
  rfl

theorem upperChar_of_isDigit {c : Char} (h : c.isDigit) : upperChar c = c := by
  have hall : ∀ n < 58, 48 ≤ n → upperChar (Char.ofNat n) = Char.ofNat n := by decide
  obtain ⟨hlo, hhi⟩ := isDigit_iff.1 h
  have hc := hall c.toNat (by omega) hlo
  rwa [Char.ofNat_toNat] at hc

theorem upperChar_of_isAlpha {c : Char} (h : c.isAlpha) : upperChar c = c.toUpper := by
  have hrange : c.toNat < 0x130 := by
    rw [Char.isAlpha, Bool.or_eq_true] at h
    rcases h with h | h
    · have := isUpper_iff.1 h
      omega
    · have := isLower_iff.1 h
      omega
  rw [upperChar, if_neg (by omega), if_neg (by omega)]

/-- Versions with one suffix have one kind of patch. -/
theorem patchRank_of_mark {v w : Form suffix} (h : v.mark = w.mark) : v.patchRank = w.patchRank := by
  have hdigits : ∀ n : Digits, n.1.map upperChar = n.1 := fun n => by
    conv_rhs => rw [← List.map_id n.1]
    exact List.map_congr_left fun c hc => upperChar_of_isDigit (n.2.2 c hc)
  have hne : ∀ q : Patch, q.value.map upperChar ≠ [] := fun q hq => by
    cases q with
    | letter sep c hc => cases hq
    | number sep word hw n => exact n.2.1 (List.map_eq_nil_iff.1 hq)
  have hkinds : "alphabetical".toList ≠ "patch".toList := by decide
  unfold mark at h
  unfold patchRank
  cases hv : v.patch with
  | none =>
    cases hw : w.patch with
    | none => rfl
    | some q =>
      rw [hv, hw] at h
      exact absurd h.symm (hne q)
  | some q =>
    cases hw : w.patch with
    | none =>
      rw [hv, hw] at h
      exact absurd h (hne q)
    | some q' =>
      have hq := v.fits q hv
      have hq' := w.fits q' hw
      rw [hv, hw] at h
      cases q with
      | letter sep c hc =>
        cases q' with
        | letter sep' c' hc' =>
          have hup : upperChar c = upperChar c' := (List.cons.inj h).1
          rw [upperChar_of_isAlpha hc, upperChar_of_isAlpha hc'] at hup
          exact congrArg (fun c : Char => (some c.toNat : WithBot ℕ)) hup
        | number sep' word' hw' n' => exact absurd (hq.symm.trans hq') hkinds
      | number sep word hword n =>
        cases q' with
        | letter sep' c' hc' => exact absurd (hq'.symm.trans hq) hkinds
        | number sep' word' hw' n' =>
          have hn : n.1.map upperChar = n'.1.map upperChar := h
          rw [hdigits, hdigits] at hn
          exact congrArg (fun n => (some (digitsVal n) : WithBot ℕ)) hn

end Form

/-! ### Where the order is right -/

theorem Stage.rank_inj {a b : Stage} (h : a.rank = b.rank) : a = b := by
  cases a <;> cases b <;> first | rfl | cases h

theorem Stage.initial_inj {a b : Stage} (h : a.initial = b.initial) : a = b := by
  cases a <;> cases b <;> first | rfl | exact absurd h (by decide)

theorem Pre.double_mono {p q : Pre} (h : p.value ≤ q.value) : p.double ≤ q.double :=
  toDouble_mono.withBot_map h

namespace Form
variable {suffix : Str}

/-- Two pre-releases by their numbers. -/
theorem sameOrder_number (v w : Form suffix) :
    SameOrder v.number w.number v.preRank w.preRank ↔ PreAgrees v.pre w.pre := by
  have hnone : ∀ p : Pre, (p.rank : WithTop (ℕ ×ₗ WithBot ℕ)) < ⊤ := fun p => WithTop.coe_lt_top _
  unfold number preRank
  cases v.pre with
  | none =>
    cases w.pre with
    | none => exact iff_of_true (.inr (.inr ⟨rfl, rfl⟩)) trivial
    | some q => exact (sameOrder_symm.trans (sameOrder_of_lt (hnone q))).trans lt_top_iff_ne_top
  | some p =>
    cases w.pre with
    | none => exact (sameOrder_of_lt (hnone p)).trans lt_top_iff_ne_top
    | some q =>
      have hlt : ∀ {p q : Pre}, p.rank < q.rank →
          (p.rank : WithTop (ℕ ×ₗ WithBot ℕ)) < q.rank := WithTop.coe_lt_coe.2
      have hrank : ∀ {p q : Pre}, p.rank < q.rank ↔
          p.stage.rank < q.stage.rank ∨ p.stage.rank = q.stage.rank ∧ p.value < q.value :=
        Prod.Lex.toLex_lt_toLex
      have hdouble : ∀ {p q : Pre}, p.value < q.value →
          (p.double < q.double ↔ (p.double = q.double → p.value = q.value)) := fun h =>
        ⟨fun hd he => absurd he hd.ne, fun hd =>
          (Pre.double_mono h.le).lt_of_ne fun he => h.ne (hd he)⟩
      simp only [PreAgrees]
      rcases lt_trichotomy p.stage.rank q.stage.rank with h | h | h
      · rw [if_pos h]
        exact sameOrder_of_lt (hlt (hrank.2 (.inl h)))
      · rw [if_neg h.not_lt, if_neg h.symm.not_lt]
        rcases lt_trichotomy p.value q.value with hv | hv | hv
        · exact (sameOrder_of_lt (hlt (hrank.2 (.inr ⟨h, hv⟩)))).trans (hdouble hv)
        · have hd : p.double = q.double := congrArg (WithBot.map toDouble) hv
          have hr : p.rank = q.rank := by rw [Pre.rank, Pre.rank, h, hv]
          exact iff_of_true (.inr (.inr ⟨hd, congrArg some hr⟩)) fun _ => hv
        · refine (sameOrder_symm.trans (sameOrder_of_lt (hlt (hrank.2 (.inr ⟨h.symm, hv⟩))))).trans ?_
          rw [eq_comm (a := p.double), eq_comm (a := p.value)]
          exact hdouble hv
      · rw [if_neg h.asymm, if_pos h]
        exact sameOrder_symm.trans (sameOrder_of_lt (hlt (hrank.2 (.inl h))))

theorem before_of_same {v w : Form suffix} (h : ReleaseSame v.release w.release) :
    v.Before w ↔ toLex (v.patchRank, v.preRank) < toLex (w.patchRank, w.preRank) := by
  rw [before_iff, meant, meant, (trim_eq_iff _ _).2 h, Prod.Lex.toLex_lt_toLex]
  simp

/-- The releases decide, or all versions of one release have to be in order. -/
theorem judged_iff_of_keys {v w : Form suffix} {m m' : Str} {n n' : Number}
    (hv : cmpkey v.fields = toLex (trim v.release, toLex (m, n)))
    (hw : cmpkey w.fields = toLex (trim w.release, toLex (m', n'))) :
    v.Judged w ↔ ¬ ReleaseSame v.release w.release ∨
      SameOrder (toLex (m, n)) (toLex (m', n')) (toLex (v.patchRank, v.preRank))
        (toLex (w.patchRank, w.preRank)) := by
  rw [judged_iff_sameOrder, hv, hw, meant, meant, sameOrder_toLex_left, ← trim_eq_iff]

/-- A pre-release without a letter comes before every other version of its release. -/
theorem lt_of_misread {v w : Form suffix} (hv : v.Misread) (hw : ¬ w.Misread) :
    toLex (v.patchRank, v.preRank) < toLex (w.patchRank, w.preRank) := by
  obtain ⟨hs, hpatch, hpre⟩ := hv
  obtain ⟨p, hp⟩ := Option.ne_none_iff_exists'.1 hpre
  rw [Prod.Lex.toLex_lt_toLex, patchRank, patchRank, hpatch]
  cases hq : w.patch with
  | some q => exact .inl (WithBot.bot_lt_coe q.rank)
  | none =>
    have hnone : w.pre = none := by
      by_contra hne
      exact hw ⟨hs, hq, hne⟩
    refine .inr ⟨rfl, ?_⟩
    rw [preRank, preRank, hp, hnone]
    exact WithTop.coe_lt_top p.rank

/-- It is compared by the letter alone. -/
theorem sameOrder_misread {v w : Form suffix} (hv : v.Misread) (hw : ¬ w.Misread) :
    SameOrder (toLex (v.initial, (⊤ : Number))) (toLex (w.mark, w.number))
      (toLex (v.patchRank, v.preRank)) (toLex (w.patchRank, w.preRank)) ↔ v.initial < w.mark := by
  rw [sameOrder_of_lt (lt_of_misread hv hw), Prod.Lex.toLex_lt_toLex]
  refine or_iff_left fun h => absurd h.2 ?_
  exact not_top_lt

/-- Two such are compared by their letters. -/
theorem sameOrder_initials {v w : Form suffix} (hv : v.Misread) (hw : w.Misread) :
    SameOrder (toLex (v.initial, (⊤ : Number))) (toLex (w.initial, (⊤ : Number)))
      (toLex (v.patchRank, v.preRank)) (toLex (w.patchRank, w.preRank)) ↔
      InitialsAgree v.pre w.pre := by
  obtain ⟨p, hp⟩ := Option.ne_none_iff_exists'.1 hv.2.2
  obtain ⟨q, hq⟩ := Option.ne_none_iff_exists'.1 hw.2.2
  have hinitial : ∀ {a b : Stage}, ([a.initial] : Str) < [b.initial] ↔ a.initial < b.initial := by
    intro a b
    rw [List.cons_lt_cons_iff]
    exact or_iff_left fun h => absurd h.2 (List.not_lt_nil _)
  have hpatch : v.patchRank = w.patchRank := by rw [patchRank, patchRank, hv.2.1, hw.2.1]
  have hpre : ∀ {f : Form suffix} {p : Pre}, f.pre = some p → f.preRank = (p.rank : WithTop _) :=
    fun h => by rw [preRank, h]; rfl
  have hrank : p.rank < q.rank ↔
      p.stage.rank < q.stage.rank ∨ p.stage.rank = q.stage.rank ∧ p.value < q.value :=
    Prod.Lex.toLex_lt_toLex
  have hrank' : q.rank < p.rank ↔
      q.stage.rank < p.stage.rank ∨ q.stage.rank = p.stage.rank ∧ q.value < p.value :=
    Prod.Lex.toLex_lt_toLex
  rw [sameOrder_toLex fun _ => hpatch, hpatch, Prod.Lex.toLex_lt_toLex, Prod.Lex.toLex_lt_toLex,
    hpre hp, hpre hq, WithTop.coe_lt_coe, WithTop.coe_lt_coe, hrank, hrank', initial, initial, hp, hq]
  simp only [Option.map_some, Option.getD_some, hinitial, InitialsAgree, lt_self_iff_false, false_or,
    true_and]
  by_cases hstage : p.stage = q.stage
  · -- one letter for both: the numbers must be the same
    have hsame : SameOrder (⊤ : Number) ⊤ (p.rank : WithTop (ℕ ×ₗ WithBot ℕ)) q.rank ↔
        p.value = q.value := by
      have hvalue : (p.rank : WithTop (ℕ ×ₗ WithBot ℕ)) = q.rank ↔ p.value = q.value := by
        rw [WithTop.coe_inj, Pre.rank, Pre.rank, hstage]
        simp
      rw [← hvalue]
      constructor
      · rintro (⟨h, -⟩ | ⟨h, -⟩ | ⟨-, h⟩)
        · exact absurd h (lt_irrefl _)
        · exact absurd h (lt_irrefl _)
        · exact h
      · exact fun h => .inr (.inr ⟨rfl, h⟩)
    rw [hsame, hstage]
    simp
  · have hne : p.stage.initial ≠ q.stage.initial := fun h => hstage (Stage.initial_inj h)
    have hne' : p.stage.rank ≠ q.stage.rank := fun h => hstage (Stage.rank_inj h)
    simp [hstage, hne, hne', hne'.symm]

/-- The condition is exact for every two versions of one kind. -/
theorem judged_iff (v w : Form suffix) : v.Judged w ↔ v.Agrees w := by
  unfold Agrees
  by_cases hv : v.Misread <;> by_cases hw : w.Misread
  · rw [judged_iff_of_keys (cmpkey_of_misread hv) (cmpkey_of_misread hw), if_pos hv, if_pos hw,
      sameOrder_initials hv hw]
  · rw [judged_iff_of_keys (cmpkey_of_misread hv) (cmpkey_of_not_misread hw), if_pos hv, if_neg hw,
      sameOrder_misread hv hw]
  · rw [judged_iff_of_keys (cmpkey_of_not_misread hv) (cmpkey_of_misread hw), if_neg hv, if_pos hw,
      sameOrder_symm, sameOrder_misread hw hv]
  · rw [judged_iff_of_keys (cmpkey_of_not_misread hv) (cmpkey_of_not_misread hw), if_neg hv,
      if_neg hw, sameOrder_toLex patchRank_of_mark, sameOrder_number]
    by_cases hr : ReleaseSame v.release w.release
    · rw [before_of_same hr, before_of_same fun i => (hr i).symm]
    · exact iff_of_true (.inl hr) (.inl hr)

end Form

theorem isDigits_natStr (n : ℕ) : natStr n ≠ [] ∧ ∀ c ∈ natStr n, c.isDigit :=
  ⟨natStr_ne_nil n, fun _ => isDigit_of_mem_natStr⟩

theorem word_p : "p".toList.map fold = ['p'] ∨ "p".toList.map fold = "patch".toList := by decide

theorem fits_patch (n : Digits) : ∀ q ∈ some (Patch.number none "p".toList word_p n),
    q.Fits "patch".toList := fun q hq => by
  obtain rfl := Option.some.inj hq
  rfl

/-- Release 1.0 with a patch. -/
def patched (n : ℕ) : Form "patch".toList where
  first := ⟨natStr 1, isDigits_natStr 1⟩
  rest := [(.dot, ⟨natStr 0, isDigits_natStr 0⟩)]
  patch := some (.number none "p".toList word_p ⟨natStr n, isDigits_natStr n⟩)
  pre := none
  fits := fits_patch ⟨natStr n, isDigits_natStr n⟩

/-- `1.0p9` is taken for the later one of `1.0p9` and `1.0p10`. -/
theorem p9_above_p10 : ¬ (patched 9).Judged (patched 10) := by
  rw [Form.judged_iff_sameOrder, Form.cmpkey_of_not_misread (by decide),
    Form.cmpkey_of_not_misread (by decide)]
  rintro (⟨h, -⟩ | ⟨-, h⟩ | ⟨-, h⟩)
  · exact absurd h (by decide +kernel)
  · exact absurd h (by decide +kernel)
  · exact absurd h (by decide +kernel)

end Cve
end OpenBmc
