import OpenBmc.Oe.LicenseExpression

/-!
# Choices between licenses

Both choice functions of the flattening prefer the option without a bad license, and so what they
select has no bad license as soon as some choice of a side of every `|` has none.
-/

namespace OpenBmc
namespace Oe
open Py

variable {s : Str} {e : Expression}

theorem flattenVisitor_node (choose : List Str → List Str → List Str) :
    ∀ e : Expression, flattenVisitor choose (e.node id) = e.tree.select choose
  | .name n => rfl
  | .group e => flattenVisitor_node choose e
  | .both l r => by
    rw [Expression.node, flattenVisitor, flattenVisitor_node choose l, flattenVisitor_node choose r]
    rfl
  | .either l r => by
    rw [Expression.node, flattenVisitor, flattenVisitor_node choose l, flattenVisitor_node choose r]
    rfl

theorem flattenedLicenses_eq (choose : List Str → List Str → List Str) (h : IsExpression s e) :
    flattenedLicenses s choose = .ok (e.tree.select choose) := by
  obtain ⟨ts, hts, hparse⟩ := parse_elements roundGrouping h
  have hparse : Ast.parse ts = some (some (e.node id)) := by simpa [roundGrouping] using hparse
  rw [flattenedLicenses, hts]
  simp only [bind, Except.bind, hparse, flattenVisitor_node]

/-! ### `incompatible_pkg_license` -/

section Incompatible
variable (spdx : Str → Option Str) (dontWantLicenses : List Str)

/-- A license that may be used. -/
def IsAcceptable (license : Str) : Prop :=
  licenseOk (canonicalLicense spdx license) dontWantLicenses

theorem chooseLicSet_eq (a b : List Str) :
    chooseLicSet spdx dontWantLicenses a b = a ∨ chooseLicSet spdx dontWantLicenses a b = b :=
  ite_eq_or_eq _ a b

theorem chooseLicSet_iff (a b : List Str) :
    (∀ l ∈ chooseLicSet spdx dontWantLicenses a b, IsAcceptable spdx dontWantLicenses l) ↔
      (∀ l ∈ a, IsAcceptable spdx dontWantLicenses l) ∨
        ∀ l ∈ b, IsAcceptable spdx dontWantLicenses l := by
  by_cases ha : ∀ l ∈ a, IsAcceptable spdx dontWantLicenses l
  · rw [chooseLicSet, if_pos (List.all_eq_true.2 ha)]
    exact (or_iff_left_of_imp fun _ => ha).symm
  · rw [chooseLicSet, if_neg fun hall => ha (List.all_eq_true.1 hall)]
    exact (or_iff_right ha).symm

/-- The unacceptable licenses of what is selected. -/
theorem incompatiblePkgLicense_eq (h : IsExpression s e) :
    ∃ bad, incompatiblePkgLicense spdx dontWantLicenses s = .ok bad ∧
      ∀ c, c ∈ bad ↔ ∃ l ∈ e.tree.select (chooseLicSet spdx dontWantLicenses),
        ¬ IsAcceptable spdx dontWantLicenses l ∧ canonicalLicense spdx l = c := by
  refine ⟨_, by rw [incompatiblePkgLicense, flattenedLicenses_eq _ h]; rfl, fun c => ?_⟩
  rw [mem_sortedBy, List.mem_filter, List.mem_map]
  constructor
  · rintro ⟨⟨l, hl, rfl⟩, hbad⟩
    exact ⟨l, hl, by simpa [IsAcceptable] using hbad, rfl⟩
  · rintro ⟨l, hl, hbad, rfl⟩
    exact ⟨⟨l, hl, rfl⟩, by simpa [IsAcceptable] using hbad⟩

end Incompatible

/-! ### `is_included` -/

section Included
variable (includeLicenses excludeLicenses : List Str)

theorem chooseLicenses_eq (a b : List Str) :
    chooseLicenses includeLicenses excludeLicenses a b = a ∨
      chooseLicenses includeLicenses excludeLicenses a b = b := ite_eq_or_eq _ a b

variable {excludeLicenses}

/-- An option without an excluded license. -/
def IsClean (excludeLicenses : List Str) (option : List Str) : Prop :=
  ∀ l ∈ option, ¬ matchesAny excludeLicenses l

theorem optionWeight_nonneg {option : List Str} (h : IsClean excludeLicenses option) :
    0 ≤ optionWeight includeLicenses excludeLicenses option := by
  have hnil : option.filter (matchesAny excludeLicenses) = [] := List.filter_eq_nil_iff.2 h
  rw [optionWeight, hnil]
  simp

theorem optionWeight_neg {option : List Str} (h : ¬ IsClean excludeLicenses option)
    (hlen : option.length < 1000) : optionWeight includeLicenses excludeLicenses option < 0 := by
  have hne : option.filter (matchesAny excludeLicenses) ≠ [] :=
    fun hnil => h (List.filter_eq_nil_iff.1 hnil)
  have hpos := List.length_pos_iff.2 hne
  have hle : (option.filter (matchesAny includeLicenses)).length ≤ option.length :=
    List.length_filter_le _ _
  rw [optionWeight, if_pos hpos]
  omega

theorem chooseLicenses_iff {a b : List Str} (ha : a.length < 1000) (hb : b.length < 1000) :
    IsClean excludeLicenses (chooseLicenses includeLicenses excludeLicenses a b) ↔
      IsClean excludeLicenses a ∨ IsClean excludeLicenses b := by
  rw [chooseLicenses]
  constructor
  · intro h
    split_ifs at h
    · exact .inl h
    · exact .inr h
  · intro h
    split_ifs with hw
    · by_contra hna
      have hbc := h.resolve_left hna
      have h₁ := optionWeight_nonneg includeLicenses hbc
      have h₂ := optionWeight_neg includeLicenses hna ha
      omega
    · by_contra hnb
      have hac := h.resolve_right hnb
      have h₁ := optionWeight_nonneg includeLicenses hac
      have h₂ := optionWeight_neg includeLicenses hnb hb
      omega

variable (excludeLicenses) in
theorem isIncluded_eq (h : IsExpression s e) :
    let chosen := e.tree.select (chooseLicenses (includesOrAll includeLicenses) excludeLicenses)
    (IsClean excludeLicenses chosen ∧ isIncluded s includeLicenses excludeLicenses =
        .ok (true, chosen.filter (matchesAny (includesOrAll includeLicenses)))) ∨
      (¬ IsClean excludeLicenses chosen ∧ isIncluded s includeLicenses excludeLicenses =
        .ok (false, chosen.filter (matchesAny excludeLicenses))) := by
  intro chosen
  have hflat := flattenedLicenses_eq
    (chooseLicenses (includesOrAll includeLicenses) excludeLicenses) h
  by_cases hc : IsClean excludeLicenses chosen
  · refine .inl ⟨hc, ?_⟩
    have hnil : chosen.filter (matchesAny excludeLicenses) = [] := List.filter_eq_nil_iff.2 hc
    simp only [isIncluded, hflat, bind, Except.bind]
    exact if_neg (not_not.2 hnil)
  · refine .inr ⟨hc, ?_⟩
    have hne : chosen.filter (matchesAny excludeLicenses) ≠ [] :=
      fun hnil => hc (List.filter_eq_nil_iff.1 hnil)
    simp only [isIncluded, hflat, bind, Except.bind]
    exact if_pos hne

end Included

/-- `incompatible_pkg_license` finds nothing exactly if a choice has only acceptable licenses, and
`is_included` says yes exactly if a choice has no excluded license; what they return is of a choice,
and the former returns unacceptable licenses only. -/
theorem license_choices {licensestr : Str} {e : Expression} (h : IsExpression licensestr e)
    (hlen : e.names.length < 1000) (spdx : Str → Option Str)
    (dontWantLicenses includeLicenses excludeLicenses : List Str) :
    (∃ bad, incompatiblePkgLicense spdx dontWantLicenses licensestr = .ok bad ∧
      (bad = [] ↔ ∃ c, e.tree.Chooses c ∧
        ∀ l ∈ c, licenseOk (canonicalLicense spdx l) dontWantLicenses) ∧
      ∀ l ∈ bad, ¬ licenseOk l dontWantLicenses) ∧
    ∃ state licenses,
      isIncluded licensestr includeLicenses excludeLicenses = .ok (state, licenses) ∧
      (state = true ↔ ∃ c, e.tree.Chooses c ∧
        ∀ l ∈ c, ¬ excludeLicenses.any fun pattern => fnmatch l pattern) ∧
      ∃ c, e.tree.Chooses c ∧ ∀ l ∈ licenses, l ∈ c := by
  constructor
  · obtain ⟨bad, hbad, hmem⟩ := incompatiblePkgLicense_eq spdx dontWantLicenses h
    refine ⟨bad, hbad, ?_, fun c hc => ?_⟩
    · have hcan := AndOr.select_iff (p := IsAcceptable spdx dontWantLicenses)
        (chooseLicSet_eq spdx dontWantLicenses) e.tree
        fun a b _ _ => chooseLicSet_iff spdx dontWantLicenses a b
      refine Iff.trans ?_ hcan
      rw [List.eq_nil_iff_forall_not_mem]
      constructor
      · intro hnil l hl
        by_contra hna
        exact hnil _ ((hmem _).2 ⟨l, hl, hna, rfl⟩)
      · intro hok c hc
        obtain ⟨l, hl, hna, -⟩ := (hmem c).1 hc
        exact hna (hok l hl)
    · obtain ⟨l, -, hna, rfl⟩ := (hmem c).1 hc
      exact hna
  · have hchoose := chooseLicenses_eq (includesOrAll includeLicenses) excludeLicenses
    have hchosen := AndOr.chooses_select hchoose e.tree
    have hcan := AndOr.select_iff (p := fun l => ¬ matchesAny excludeLicenses l) hchoose e.tree
      fun a b ha hb => chooseLicenses_iff _ (by rw [e.leaves_tree] at ha; omega)
        (by rw [e.leaves_tree] at hb; omega)
    rcases isIncluded_eq includeLicenses excludeLicenses h with ⟨hclean, heq⟩ | ⟨hbad, heq⟩
    · exact ⟨_, _, heq, iff_of_true rfl (hcan.1 hclean), _, hchosen,
        fun l hl => (List.mem_filter.1 hl).1⟩
    · exact ⟨_, _, heq, iff_of_false (by decide) fun hc => hbad (hcan.2 hc), _, hchosen,
        fun l hl => (List.mem_filter.1 hl).1⟩

theorem isExpression_dual : IsExpression "GPL-2.0-only | MIT BSD".toList
    (.either (.name "GPL-2.0-only".toList) (.both (.name "MIT".toList) (.name "BSD".toList))) := by
  have hpieces : licensePieces "GPL-2.0-only | MIT BSD".toList =
      ["GPL-2.0-only".toList] ++ ['|'] :: ([] ++ ["MIT".toList] ++ ["BSD".toList]) := by decide
  rw [IsExpression, hpieces]
  exact .or (.ands (.factor (.name (by decide))))
    (.sideBySide (.factor (.name (by decide))) (by decide) (by decide))

theorem license_choices_dual :
    ∃ bad, incompatiblePkgLicense (fun _ => none) ["GPL-*".toList]
        "GPL-2.0-only | MIT BSD".toList = .ok bad ∧
      (bad = [] ↔ ∃ c, (AndOr.either (.leaf "GPL-2.0-only".toList)
          (.both (.leaf "MIT".toList) (.leaf "BSD".toList))).Chooses c ∧
        ∀ l ∈ c, licenseOk (canonicalLicense (fun _ => none) l) ["GPL-*".toList]) ∧
      ∀ l ∈ bad, ¬ licenseOk l ["GPL-*".toList] :=
  (license_choices isExpression_dual (by decide) (fun _ => none) ["GPL-*".toList] [] []).1

end Oe
end OpenBmc
