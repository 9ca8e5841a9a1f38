import Mathlib

/-!
# SQL patterns

`like pattern text` is SQLite's `LIKE`: `%` stands for any characters, `_` for any one, and letters
match in either case. A pattern that is a text without wildcards and letters followed by `%` matches
the texts it is a prefix of (`like_iff_prefix`).
-/

namespace OpenBmc

def like : List Char → List Char → Bool
  | [], text => text.isEmpty
  | c :: pattern, text =>
    if c = '%' then text.tails.any (like pattern)
    else match text with
      | [] => false
      | d :: text => (c = '_' || c.toLower = d.toLower) && like pattern text

@[simp] theorem like_percent (s : List Char) : like ['%'] s = true := by
  simp [like, List.nil_suffix]

/-- A character that matches itself only. -/
def Literal (c : Char) : Prop := c ≠ '%' ∧ c ≠ '_' ∧ ∀ d : Char, c.toLower = d.toLower → c = d

theorem like_iff_prefix {p s : List Char} (h : ∀ c ∈ p, Literal c) :
    like (p ++ ['%']) s = true ↔ p <+: s := by
  induction p generalizing s with
  | nil => simp
  | cons c p ih =>
    obtain ⟨hp, hu, hl⟩ := h c (by simp)
    have ih := fun s => ih (s := s) fun d hd => h d (by simp [hd])
    cases s with
    | nil => simp [like, hp]
    | cons d s =>
      rw [List.cons_append, like, if_neg hp, Bool.and_eq_true, ih, List.cons_prefix_cons]
      simp only [hu, decide_false, Bool.false_or, decide_eq_true_eq]
      constructor
      · rintro ⟨hc, hps⟩
        exact ⟨hl d hc, hps⟩
      · rintro ⟨rfl, hps⟩
        exact ⟨rfl, hps⟩

end OpenBmc
