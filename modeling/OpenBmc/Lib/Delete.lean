import Mathlib

/-!
# Deleting a word from a text

`delete w s` takes every occurrence of the word `w` out of `s`, from the left and without overlap.
What comes together by a deletion is not read again.
-/

namespace OpenBmc

variable {α : Type} [DecidableEq α]

/-- `delete w` on the text that follows the next `n` letters, which belong to an occurrence. -/
def deleteFrom (w : List α) : Nat → List α → List α
  | _, [] => []
  | n + 1, _ :: s => deleteFrom w n s
  | 0, x :: s =>
    if w.isPrefixOf (x :: s) then deleteFrom w (w.length - 1) s else x :: deleteFrom w 0 s

/-- The text `s` without the occurrences of a nonempty word. -/
def delete (w s : List α) : List α := deleteFrom w 0 s

variable {w s a b : List α} {x : α}

theorem deleteFrom_eq : ∀ (n : Nat) (s : List α), deleteFrom w n s = delete w (s.drop n)
  | 0, s => rfl
  | n + 1, [] => by rw [List.drop_nil]; rfl
  | n + 1, x :: s => deleteFrom_eq n s

@[simp] theorem delete_nil : delete w [] = [] := rfl

theorem delete_cons_of_mismatch (h : ¬ w <+: x :: s) : delete w (x :: s) = x :: delete w s := by
  have h : ¬ w.isPrefixOf (x :: s) := fun hp => h (List.isPrefixOf_iff_prefix.1 hp)
  rw [delete, deleteFrom, if_neg h]
  rfl

theorem delete_append_self (hw : w ≠ []) (s : List α) : delete w (w ++ s) = delete w s := by
  obtain ⟨x, t, rfl⟩ := List.exists_cons_of_ne_nil hw
  have hp : (x :: t).isPrefixOf (x :: (t ++ s)) :=
    List.isPrefixOf_iff_prefix.2 (List.prefix_append (x :: t) s)
  rw [List.cons_append, delete, deleteFrom, if_pos hp, deleteFrom_eq]
  simp

theorem delete_of_not_infix : ∀ {s : List α}, ¬ w <:+: s → delete w s = s
  | [], _ => rfl
  | x :: s, h => by
    rw [delete_cons_of_mismatch fun hp => h hp.isInfix,
      delete_of_not_infix fun hi => h (hi.trans (List.suffix_cons x s).isInfix)]

theorem delete_sublist (w s : List α) : (delete w s).Sublist s := by
  suffices h : ∀ n, (deleteFrom w n s).Sublist s from h 0
  induction s with
  | nil => exact fun _ => List.Sublist.refl _
  | cons x s ih =>
    intro n
    cases n with
    | succ n => exact (ih n).cons x
    | zero =>
      rw [deleteFrom]
      split
      · exact (ih _).cons x
      · exact (ih 0).cons_cons x

theorem length_delete_le (w s : List α) : (delete w s).length ≤ s.length :=
  (delete_sublist w s).length_le

/-- A deletion that finds its word makes the text shorter. -/
theorem length_delete_lt (hw : w ≠ []) : ∀ {s : List α}, w <:+: s →
    (delete w s).length < s.length
  | [], h => absurd (List.infix_nil.1 h) hw
  | x :: s, h => by
    by_cases hp : w <+: x :: s
    · obtain ⟨t, ht⟩ := hp
      rw [← ht, delete_append_self hw, List.length_append]
      have := length_delete_le w t
      have := List.length_pos_iff.2 hw
      omega
    · have := length_delete_lt hw ((List.infix_cons_iff.1 h).resolve_left hp)
      rw [delete_cons_of_mismatch hp]
      simpa using this

theorem delete_eq_self_iff (hw : w ≠ []) : delete w s = s ↔ ¬ w <:+: s := by
  refine ⟨fun h hi => ?_, delete_of_not_infix⟩
  have := length_delete_lt hw hi
  rw [h] at this
  exact lt_irrefl _ this

/-- A letter that the word does not have separates the text into parts. -/
theorem delete_append_cons (hw : w ≠ []) (hx : x ∉ w) (b : List α) :
    ∀ (a : List α), delete w (a ++ x :: b) = delete w a ++ x :: delete w b := by
  intro a
  induction hn : a.length using Nat.strong_induction_on generalizing a with
  | _ n ih =>
    by_cases hp : w <+: a
    · obtain ⟨t, rfl⟩ := hp
      have hlen := List.length_pos_iff.2 hw
      rw [List.append_assoc, delete_append_self hw, delete_append_self hw]
      exact ih t.length (by rw [← hn, List.length_append]; omega) t rfl
    · have hp' : ¬ w <+: a ++ x :: b := fun h => by
        rcases List.prefix_or_prefix_of_prefix h (List.prefix_append a (x :: b)) with h' | ⟨t, rfl⟩
        · exact hp h'
        · rw [List.prefix_append_right_inj] at h
          cases t with
          | nil => exact hp (by simp)
          | cons y t =>
            obtain ⟨rfl, -⟩ := List.cons_prefix_cons.1 h
            exact hx (by simp)
      cases a with
      | nil => exact delete_cons_of_mismatch hp'
      | cons y a =>
        rw [List.cons_append] at hp' ⊢
        rw [delete_cons_of_mismatch hp', delete_cons_of_mismatch hp,
          ih a.length (by rw [← hn]; simp) a rfl]
        rfl

/-- Before the first letter of the word nothing is deleted. -/
theorem delete_append_of_not_mem (ha : x ∉ a) (b : List α) :
    delete (x :: w) (a ++ b) = a ++ delete (x :: w) b := by
  induction a with
  | nil => rfl
  | cons y a ih =>
    simp only [List.mem_cons, not_or] at ha
    have hp : ¬ x :: w <+: y :: (a ++ b) := fun h => ha.1 (List.cons_prefix_cons.1 h).1
    rw [List.cons_append, delete_cons_of_mismatch hp, ih ha.2]
    rfl

end OpenBmc
