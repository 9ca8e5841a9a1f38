import OpenBmc.Py.Str

/-!
# Words

`words` is `str.split` without a separator. A text that is made longer behind a space has the old
words and then the new ones. `splitSub (spaced w)` cuts a text at a word that stands between two
spaces: where the pieces do not have the word, they come back as they were.
-/

namespace OpenBmc
namespace Py

/-- A nonempty text without whitespace. -/
def IsWord (s : Str) : Prop := s ≠ [] ∧ ∀ c ∈ s, ¬ isSpace c

instance (s : Str) : Decidable (IsWord s) :=
  have := List.decidableBAll (fun c => ¬ isSpace c) s
  inferInstanceAs (Decidable (s ≠ [] ∧ ∀ c ∈ s, ¬ isSpace c))

theorem words_append_cons {c : Char} (hc : isSpace c) (s t : Str) :
    words (s ++ c :: t) = words s ++ words t := by
  rw [words, List.splitOnP_append_cons _ _ hc, List.filter_append]
  rfl

theorem words_append_space (s t : Str) : words (s ++ ' ' :: t) = words s ++ words t :=
  words_append_cons (by decide) s t

theorem IsWord.words {s : Str} (h : IsWord s) : words s = [s] := by
  rw [Py.words, List.splitOnP_eq_singleton fun c hc => by simpa using h.2 c hc]
  simp [h.1]

theorem isWord_of_mem_words {s w : Str} (h : w ∈ words s) : IsWord w := by
  obtain ⟨hw, hne⟩ := List.mem_filter.1 h
  exact ⟨by simpa using hne, (mem_splitOnP hw).1⟩

theorem infix_of_mem_words {s w : Str} (h : w ∈ words s) : w <:+: s :=
  (mem_splitOnP (List.mem_filter.1 h).1).2

theorem words_nil : words [] = [] := rfl

theorem words_intercalate (ss : List Str) : words ([' '].intercalate ss) = ss.flatMap words := by
  induction ss with
  | nil => rfl
  | cons s ss ih =>
    cases ss with
    | nil => simp
    | cons t ss =>
      rw [List.intercalate_cons_cons, List.append_assoc, List.singleton_append, words_append_space, ih]
      rfl

/-- A text is a word, or empty, up to its first space. -/
theorem spaceInduction {P : Str → Prop} (last : ∀ w, (∀ c ∈ w, ¬ isSpace c) → P w)
    (space : ∀ w c s, (∀ c ∈ w, ¬ isSpace c) → isSpace c → P s → P (w ++ c :: s)) (s : Str) :
    P s := by
  induction hn : s.length using Nat.strong_induction_on generalizing s with
  | _ n ih =>
    have hsplit := List.takeWhile_append_dropWhile (p := fun c => !isSpace c) (l := s)
    have hword : ∀ c ∈ s.takeWhile (fun c => !isSpace c), ¬ isSpace c := fun c hc => by
      simpa using List.mem_takeWhile_imp hc
    cases hd : s.dropWhile (fun c => !isSpace c) with
    | nil =>
      rw [hd, List.append_nil] at hsplit
      exact last s (hsplit ▸ hword)
    | cons c t =>
      have hc : isSpace c := by simpa [hd] using List.head?_dropWhile_not (fun c => !isSpace c) s
      rw [hd] at hsplit
      have hlen : t.length < n := by
        rw [← hn, ← hsplit, List.length_append, List.length_cons]
        omega
      rw [← hsplit]
      exact space _ c t hword hc (ih t.length hlen t rfl)

/-! ### Splitting at a word -/

/-- The separator `w` between two spaces. -/
def spaced (w : Str) : Str := ' ' :: w ++ [' ']

theorem splitSubFrom_skip (sep acc a s : Str) :
    splitSubFrom sep a.length acc (a ++ s) = splitSubFrom sep 0 acc s := by
  induction a with
  | nil => rfl
  | cons c a ih =>
    show splitSubFrom sep (a.length + 1) acc (c :: (a ++ s)) = _
    rw [splitSubFrom]
    exact ih

theorem splitSubFrom_sep {sep : Str} (hsep : sep ≠ []) (acc s : Str) :
    splitSubFrom sep 0 acc (sep ++ s) = acc :: splitSubFrom sep 0 [] s := by
  obtain ⟨c, a, rfl⟩ := List.exists_cons_of_ne_nil hsep
  have hprefix : (c :: a).isPrefixOf (c :: (a ++ s)) = true :=
    List.isPrefixOf_iff_prefix.2 (List.prefix_append (c :: a) s)
  rw [List.cons_append, splitSubFrom, if_pos hprefix]
  exact congrArg _ (splitSubFrom_skip _ _ a s)

/-- No separator begins within `u`. -/
theorem splitSubFrom_append {sep : Str} {u v : Str} (acc : Str)
    (h : ∀ p c q, u = p ++ c :: q → ¬ sep <+: c :: q ++ v) :
    splitSubFrom sep 0 acc (u ++ v) = splitSubFrom sep 0 (acc ++ u) v := by
  induction u generalizing acc with
  | nil => rw [List.nil_append, List.append_nil]
  | cons c u ih =>
    have hprefix : ¬ sep.isPrefixOf (c :: (u ++ v)) = true := fun hp =>
      h [] c u rfl (List.isPrefixOf_iff_prefix.1 hp)
    rw [List.cons_append, splitSubFrom, if_neg hprefix, ih, List.append_assoc]
    · rfl
    · intro p d q hu
      exact h (c :: p) d q (congrArg _ hu)

/-- A word followed by a space stands before the space that follows `q`. -/
theorem prefix_of_prefix_append_space {w q r : Str} (hw : ∀ c ∈ w, ¬ isSpace c)
    (h : w ++ [' '] <+: q ++ ' ' :: r) : ∃ x, q ++ [' '] = w ++ ' ' :: x := by
  induction w generalizing q with
  | nil =>
    cases q with
    | nil => exact ⟨[], rfl⟩
    | cons c q =>
      rw [List.nil_append, List.cons_append, List.cons_prefix_cons] at h
      exact ⟨q ++ [' '], by rw [← h.1]; rfl⟩
  | cons a w ih =>
    have ha : ¬ isSpace a := hw a (List.mem_cons_self ..)
    cases q with
    | nil =>
      rw [List.nil_append, List.cons_append, List.cons_prefix_cons] at h
      rw [h.1] at ha
      exact absurd (by decide) ha
    | cons c q =>
      rw [List.cons_append, List.cons_append, List.cons_prefix_cons] at h
      obtain ⟨x, hx⟩ := ih (fun c hc => hw c (List.mem_cons_of_mem _ hc)) h.2
      exact ⟨x, by rw [List.cons_append, hx, h.1]; rfl⟩

/-- A text in which `w` stands between spaces has the word `w`. -/
theorem not_spaced_prefix {w u p q r : Str} {c : Char} (hw : IsWord w) (hu : w ∉ words u)
    (hpq : u = p ++ c :: q) : ¬ spaced w <+: c :: q ++ ' ' :: r := by
  intro h
  rw [spaced, List.cons_append, List.cons_append, List.cons_prefix_cons] at h
  obtain ⟨rfl, h⟩ := h
  obtain ⟨x, hx⟩ := prefix_of_prefix_append_space hw.2 h
  refine hu ?_
  have hwords : words u = words (u ++ [' ']) := by
    rw [words_append_space, words_nil, List.append_nil]
  rw [hwords, hpq, List.append_assoc, List.cons_append, hx, words_append_space, words_append_space,
    hw.words]
  simp

theorem not_spaced_prefix_last {w u p q : Str} {c : Char} (hw : IsWord w) (hu : w ∉ words u)
    (hpq : u = p ++ c :: q) : ¬ spaced w <+: c :: q ++ [] := by
  intro h
  rw [List.append_nil] at h
  exact not_spaced_prefix (r := []) hw hu hpq (h.trans (List.prefix_append ..))

theorem splitSub_spaced {w u : Str} (hw : IsWord w) (hu : w ∉ words u) (r : Str) :
    splitSub (spaced w) (u ++ (spaced w ++ r)) = u :: splitSub (spaced w) r := by
  have h : splitSubFrom (spaced w) 0 [] (u ++ (spaced w ++ r)) =
      splitSubFrom (spaced w) 0 u (spaced w ++ r) :=
    splitSubFrom_append [] fun p c q hpq => not_spaced_prefix (r := w ++ [' '] ++ r) hw hu hpq
  rw [splitSub, h, splitSubFrom_sep (by simp [spaced])]
  rfl

theorem splitSub_spaced_last {w u : Str} (hw : IsWord w) (hu : w ∉ words u) :
    splitSub (spaced w) u = [u] := by
  have h : splitSubFrom (spaced w) 0 [] (u ++ []) = splitSubFrom (spaced w) 0 u [] :=
    splitSubFrom_append [] fun p c q hpq => not_spaced_prefix_last hw hu hpq
  rw [List.append_nil] at h
  rw [splitSub, h]
  rfl

end Py
end OpenBmc
