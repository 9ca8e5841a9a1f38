import OpenBmc.Py.Words

/-!
# `str.replace`

A text without the replaced one is left alone. Otherwise the first place is cut out and the rest of
the text goes on from there; removing makes the text shorter by each place removed.
-/

namespace OpenBmc
namespace Py
variable {sep s : Str}

/-- `s.replace(old, new)` for a text `old` that is not empty. -/
def replace (old new s : Str) : Str := new.intercalate (splitSub old s)

/-- The text `a` stands in front of the first place of the separator. -/
def First (sep a r : Str) : Prop := ∀ p c q, a = p ++ c :: q → ¬ sep <+: c :: q ++ (sep ++ r)

theorem splitSub_eq_self (h : ¬ sep <:+: s) : splitSub sep s = [s] := by
  have hfrom : splitSubFrom sep 0 [] (s ++ []) = splitSubFrom sep 0 s [] := by
    refine splitSubFrom_append [] fun p c q hs hp => h ?_
    rw [List.append_nil] at hp
    rw [hs]
    exact hp.isInfix.trans (List.suffix_append p _).isInfix
  rw [List.append_nil] at hfrom
  rw [splitSub, hfrom]
  exact splitSubFrom.eq_1 ..

theorem splitSub_first (hsep : sep ≠ []) {a r : Str} (h : First sep a r) :
    splitSub sep (a ++ (sep ++ r)) = a :: splitSub sep r := by
  have hfrom : splitSubFrom sep 0 [] (a ++ (sep ++ r)) = splitSubFrom sep 0 a (sep ++ r) :=
    splitSubFrom_append [] h
  rw [splitSub, hfrom, splitSubFrom_sep hsep]
  rfl

/-- Where the separator stands somewhere, it stands somewhere first. -/
theorem exists_first (h : sep <:+: s) : ∃ a r, s = a ++ (sep ++ r) ∧ First sep a r := by
  induction s with
  | nil =>
    rw [List.infix_nil] at h
    exact ⟨[], [], by rw [h]; rfl, by rintro (_ | ⟨_, _⟩) c q hp <;> cases hp⟩
  | cons d s ih =>
    by_cases hp : sep <+: d :: s
    · obtain ⟨r, hr⟩ := hp
      exact ⟨[], r, hr.symm, by rintro (_ | ⟨_, _⟩) c q hp <;> cases hp⟩
    · obtain ⟨a, r, rfl, hfirst⟩ := ih ((List.infix_cons_iff.1 h).resolve_left hp)
      refine ⟨d :: a, r, rfl, fun p c q hpq => ?_⟩
      cases p with
      | nil =>
        obtain ⟨rfl, rfl⟩ := List.cons.inj hpq
        exact hp
      | cons e p => exact hfirst p c q (List.cons.inj hpq).2

theorem intercalate_nil (ts : List Str) : ([] : Str).intercalate ts = ts.flatten := by
  induction ts with
  | nil => rfl
  | cons t ts ih =>
    cases ts with
    | nil => simp
    | cons u ts => rw [List.intercalate_cons_cons, ih]; simp

theorem replace_eq_self {old new : Str} (h : ¬ old <:+: s) : replace old new s = s := by
  rw [replace, splitSub_eq_self h]
  exact List.intercalate_singleton ..

theorem remove_first (hsep : sep ≠ []) {a r : Str} (h : First sep a r) :
    replace sep [] (a ++ (sep ++ r)) = a ++ replace sep [] r := by
  rw [replace, splitSub_first hsep h, intercalate_nil, List.flatten_cons, replace, intercalate_nil]

theorem length_remove_le (hsep : sep ≠ []) (s : Str) : (replace sep [] s).length ≤ s.length := by
  induction hn : s.length using Nat.strong_induction_on generalizing s with
  | _ n ih =>
    by_cases h : sep <:+: s
    · obtain ⟨a, r, rfl, hfirst⟩ := exists_first h
      have hpos := List.length_pos_iff.2 hsep
      rw [List.length_append, List.length_append] at hn
      have hr := ih r.length (by omega) r rfl
      rw [remove_first hsep hfirst, List.length_append]
      omega
    · rw [replace_eq_self h]
      exact hn.le

theorem length_remove_of_occurs (hsep : sep ≠ []) (h : sep <:+: s) :
    (replace sep [] s).length + sep.length ≤ s.length := by
  obtain ⟨a, r, rfl, hfirst⟩ := exists_first h
  have hr := length_remove_le hsep r
  rw [remove_first hsep hfirst, List.length_append, List.length_append, List.length_append]
  omega

/-- A second place in front of the last one is removed as well. -/
theorem length_remove_twice (hsep : sep ≠ []) {v : Str} (h : sep <:+: v) :
    (replace sep [] (v ++ sep)).length < v.length := by
  obtain ⟨x, y, hv⟩ := h
  have hend : sep <:+: v ++ sep := (List.suffix_append v sep).isInfix
  obtain ⟨a, r, har, hfirst⟩ := exists_first hend
  have hpos := List.length_pos_iff.2 hsep
  have hv' : v ++ sep = x ++ (sep ++ (y ++ sep)) := by rw [← hv]; simp
  have hax : a.length ≤ x.length := by
    by_contra hlt
    obtain ⟨b, hb⟩ := List.prefix_of_prefix_length_le (List.prefix_append x (sep ++ (y ++ sep)))
      (hv' ▸ har ▸ List.prefix_append a (sep ++ r)) (by omega)
    cases b with
    | nil => rw [← hb, List.append_nil] at hlt; omega
    | cons c q =>
      refine hfirst x c q hb.symm ?_
      have heq : x ++ (c :: q ++ (sep ++ r)) = x ++ (sep ++ (y ++ sep)) := by
        rw [← hv', har, ← hb, List.append_assoc]
      rw [List.append_cancel_left heq]
      exact List.prefix_append ..
  have hlen : v.length + sep.length = a.length + (sep.length + r.length) := by
    rw [← List.length_append, har, List.length_append, List.length_append]
  have hlenv : v.length = x.length + sep.length + y.length := by
    rw [← hv, List.length_append, List.length_append]
  have hr : sep <:+ r := by
    have hsuffix : r <:+ v ++ sep := by
      rw [har, ← List.append_assoc]
      exact List.suffix_append ..
    exact List.suffix_of_suffix_length_le (List.suffix_append v sep) hsuffix (by omega)
  have hremoved := length_remove_of_occurs hsep hr.isInfix
  rw [har, remove_first hsep hfirst, List.length_append]
  omega

/-- The place at the end is the only one. -/
theorem remove_append {v : Str} {c : Char} {w : Str} (hw : c ∉ w) (hv : ¬ c :: w <:+: v) :
    replace (c :: w) [] (v ++ c :: w) = v := by
  have hfirst : First (c :: w) v [] := by
    rintro p d q rfl hp
    rw [List.append_nil, List.cons_append, List.cons_prefix_cons] at hp
    obtain ⟨rfl, hp⟩ := hp
    by_cases hlen : w.length ≤ q.length
    · have hq : w <+: q := List.prefix_of_prefix_length_le hp (List.prefix_append ..) hlen
      exact hv (List.IsInfix.trans (List.cons_prefix_cons.2 ⟨rfl, hq⟩).isInfix
        (List.suffix_append p _).isInfix)
    · obtain ⟨t, rfl⟩ : q <+: w :=
        List.prefix_of_prefix_length_le (List.prefix_append ..) hp (by omega)
      cases t with
      | nil => simp at hlen
      | cons e t =>
        rw [List.prefix_append_right_inj] at hp
        obtain ⟨rfl, -⟩ := List.cons_prefix_cons.1 hp
        exact hw (List.mem_append_right _ (List.mem_cons_self ..))
  have h := remove_first (List.cons_ne_nil c w) hfirst
  rw [List.append_nil, replace_eq_self (s := [])] at h
  · rw [h, List.append_nil]
  · rw [List.infix_nil]
    exact List.cons_ne_nil c w

end Py
end OpenBmc
