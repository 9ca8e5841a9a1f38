import Mathlib
import OpenBmc.Py.Str

/-!
# Slugs

What `sanitize_fragment` makes of a text: words over `a-z0-9` joined by single underscores. `Slug`
carries this grammar, so a slug is always an object-path element, never holds a `/`, and is its own
`sanitize_fragment`. Joining two slugs by an underscore gives a slug, which is how stream names are
built.
-/

namespace OpenBmc
namespace IpCamera
open Py

/-- The characters `[^a-z0-9]+` does not match. -/
def isSlugChar (c : Char) : Bool := c.isLower || c.isDigit

structure IsSlug (s : Str) : Prop where
  ne_nil : s ≠ []
  chars : ∀ c ∈ s, isSlugChar c ∨ c = '_'
  first : s.head? ≠ some '_'
  last : s.getLast? ≠ some '_'
  gaps : s.IsChain fun a b => ¬ (a = '_' ∧ b = '_')

structure Slug where
  val : Str
  isSlug : IsSlug val

namespace Slug

theorem val_injective : Function.Injective Slug.val := fun a b h => by
  cases a; cases b; simpa using h

@[ext] theorem ext {a b : Slug} (h : a.val = b.val) : a = b := val_injective h

instance : LinearOrder Slug := LinearOrder.lift' Slug.val val_injective

theorem le_iff {a b : Slug} : a ≤ b ↔ a.val ≤ b.val := Iff.rfl

end Slug

namespace IsSlug
variable {s t : Str}

theorem isAscii (h : IsSlug s) : ∀ c ∈ s, Py.isAscii c := fun c hc => by
  rcases h.chars c hc with h | rfl
  · simp only [isSlugChar, Bool.or_eq_true, isLower_iff, isDigit_iff] at h
    simp only [Py.isAscii, decide_eq_true_eq]; omega
  · decide

theorem not_isUpper (h : IsSlug s) : ∀ c ∈ s, ¬ c.isUpper := fun c hc hu => by
  have hu := isUpper_iff.1 hu
  rcases h.chars c hc with h | rfl
  · simp only [isSlugChar, Bool.or_eq_true, isLower_iff, isDigit_iff] at h; omega
  · simp at hu

theorem not_mem (h : IsSlug s) {c : Char} (hc : isSlugChar c = false) (hu : c ≠ '_') : c ∉ s :=
  fun hm => by
    rcases h.chars c hm with h | h
    · rw [hc] at h; cases h
    · exact hu h

theorem not_mem_slash (h : IsSlug s) : '/' ∉ s := h.not_mem rfl (by decide)

theorem map_toLower (h : IsSlug s) : s.map Char.toLower = s := by
  have hfix : ∀ c ∈ s, c.toLower = id c := fun c hc => toLower_of_not_isUpper (h.not_isUpper c hc)
  rw [List.map_congr_left hfix, List.map_id]

theorem join (hs : IsSlug s) (ht : IsSlug t) : IsSlug (s ++ '_' :: t) where
  ne_nil := by simp
  chars c hc := by
    simp only [List.mem_append, List.mem_cons] at hc
    rcases hc with hc | rfl | hc
    exacts [hs.chars c hc, .inr rfl, ht.chars c hc]
  first := by
    cases s with
    | nil => exact absurd rfl hs.ne_nil
    | cons c cs => simpa using hs.first
  last := by
    obtain ⟨c, cs, rfl⟩ := List.exists_cons_of_ne_nil ht.ne_nil
    have := ht.last
    rw [List.getLast?_append, List.getLast?_cons_cons]
    rcases hl : (c :: cs).getLast? with _ | d
    · simp at hl
    · rw [hl] at this; simpa using this
  gaps := by
    refine hs.gaps.append (ht.gaps.cons fun d hd h => ht.first ?_) fun a ha b hb h => hs.last ?_
    · rw [← h.2]; exact hd
    · rw [← h.1]; exact ha

/-- A slug is one word of slug characters, or such a word, an underscore and a slug. -/
theorem word_or_join (h : IsSlug s) : (∀ c ∈ s, isSlugChar c) ∨
    ∃ w t, s = w ++ '_' :: t ∧ w ≠ [] ∧ (∀ c ∈ w, isSlugChar c) ∧ IsSlug t := by
  rcases hp : partition '_' s with ⟨w, _ | t⟩
  · have hu : '_' ∉ s := (partition_none hp).2
    exact .inl fun c hc => (h.chars c hc).resolve_right fun hcu => hu (hcu ▸ hc)
  · have hs : s = w ++ '_' :: t := partition_some hp
    have hu : '_' ∉ w := by
      have : '_' ∉ (partition '_' s).1 := not_mem_partition_fst s
      rwa [hp] at this
    have hw : w ≠ [] := by
      rintro rfl
      exact h.first (by simp [hs])
    have hgaps := h.gaps
    rw [hs, List.isChain_append, List.isChain_cons] at hgaps
    have ht : t ≠ [] := by
      rintro rfl
      exact h.last (by simp [hs])
    refine .inr ⟨w, t, hs, hw, fun c hc => ?_, ht, fun c hc => ?_, fun ht => ?_, fun hl => ?_, ?_⟩
    · exact (h.chars c (by simp [hs, hc])).resolve_right fun hcu => hu (hcu ▸ hc)
    · exact h.chars c (by simp [hs, hc])
    · exact hgaps.2.1.1 '_' ht ⟨rfl, rfl⟩
    · refine h.last ?_
      rw [hs, List.getLast?_append, List.getLast?_cons, hl]
      rfl
    · exact hgaps.2.1.2

theorem word (hs : s ≠ []) (h : ∀ c ∈ s, isSlugChar c) : IsSlug s :=
  have hu : ∀ c ∈ s, c ≠ '_' := fun c hc => by rintro rfl; simpa [isSlugChar] using h _ hc
  { ne_nil := hs
    chars := fun c hc => .inl (h c hc)
    first := fun hf => hu _ (List.mem_of_mem_head? hf) rfl
    last := fun hl => hu _ (List.mem_of_mem_getLast? hl) rfl
    gaps := List.Pairwise.isChain (List.pairwise_of_forall_mem_list fun a ha b _ h => hu a ha h.1) }

end IsSlug

/-- `[a-z0-9]+(_[a-z0-9]+)*`. -/
def MatchesSlug (s : Str) : Prop :=
  ∃ w ws, (∀ x ∈ w :: ws, x ≠ [] ∧ ∀ c ∈ x, isSlugChar c) ∧ s = w ++ ws.flatMap ('_' :: ·)

theorem isSlug_of_words : ∀ {w : Str} {ws : List Str},
    (∀ x ∈ w :: ws, x ≠ [] ∧ ∀ c ∈ x, isSlugChar c) → IsSlug (w ++ ws.flatMap ('_' :: ·))
  | w, [], h => by
    have hw := h w List.mem_cons_self
    simpa using IsSlug.word hw.1 hw.2
  | w, x :: ws, h => by
    have hw := h w List.mem_cons_self
    exact (IsSlug.word hw.1 hw.2).join (isSlug_of_words fun y hy => h y (List.mem_cons_of_mem _ hy))

theorem matchesSlug_iff {s : Str} : MatchesSlug s ↔ IsSlug s := by
  constructor
  · rintro ⟨w, ws, h, rfl⟩
    exact isSlug_of_words h
  · intro h
    induction hn : s.length using Nat.strong_induction_on generalizing s with
    | _ n ih =>
      rcases h.word_or_join with hs | ⟨w, t, rfl, hw, hc, ht⟩
      · exact ⟨s, [], by simpa using ⟨h.ne_nil, hs⟩, by simp⟩
      · obtain ⟨x, xs, hx, rfl⟩ := ih t.length (by simp [← hn]; omega) ht rfl
        refine ⟨w, x :: xs, ?_, rfl⟩
        intro y hy
        rcases List.mem_cons.1 hy with rfl | hy
        · exact ⟨hw, hc⟩
        · exact hx y hy

/-! ### `sanitize_fragment` -/

/-- `re.sub(r"[^a-z0-9]+", "_", s)`; the flag tells that the last character belonged to a run. -/
def subRuns : Bool → Str → Str
  | _, [] => []
  | inRun, c :: cs =>
    if isSlugChar c then c :: subRuns false cs
    else if inRun then subRuns true cs
    else '_' :: subRuns true cs

theorem isSlugChar_or_of_mem_subRuns {c : Char} : ∀ {s : Str} {b : Bool}, c ∈ subRuns b s →
    isSlugChar c ∨ c = '_'
  | [], _, h => by simp [subRuns] at h
  | d :: ds, b, h => by
    rw [subRuns] at h
    split at h
    · rcases List.mem_cons.1 h with rfl | h
      · exact .inl ‹_›
      · exact isSlugChar_or_of_mem_subRuns h
    · split at h
      · exact isSlugChar_or_of_mem_subRuns h
      · rcases List.mem_cons.1 h with h | h
        · exact .inr h
        · exact isSlugChar_or_of_mem_subRuns h

theorem head?_subRuns_true : ∀ s : Str, (subRuns true s).head? ≠ some '_'
  | [] => by simp [subRuns]
  | c :: cs => by
    rw [subRuns]
    split
    · rename_i hc
      simp only [List.head?_cons, ne_eq, Option.some.injEq]
      rintro rfl
      simp [isSlugChar] at hc
    · simpa using head?_subRuns_true cs

theorem isChain_subRuns : ∀ (s : Str) (b : Bool),
    (subRuns b s).IsChain fun a b => ¬ (a = '_' ∧ b = '_')
  | [], _ => by simp [subRuns]
  | c :: cs, b => by
    rw [subRuns]
    split
    · rename_i hc
      refine (isChain_subRuns cs false).cons fun d _ h => ?_
      rw [h.1] at hc
      simp [isSlugChar] at hc
    · split
      · exact isChain_subRuns cs true
      · refine (isChain_subRuns cs true).cons fun d hd h => head?_subRuns_true cs ?_
        rw [← h.2]; exact hd

/-- On a slug nothing is replaced. -/
theorem subRuns_of_gaps : ∀ {s : Str} {b : Bool}, (∀ c ∈ s, isSlugChar c ∨ c = '_') →
    s.IsChain (fun a b => ¬ (a = '_' ∧ b = '_')) → (b = true → s.head? ≠ some '_') →
    subRuns b s = s
  | [], _, _, _, _ => rfl
  | c :: cs, b, hc, hg, hb => by
    have hcs : ∀ d ∈ cs, isSlugChar d ∨ d = '_' := fun d hd => hc d (by simp [hd])
    obtain ⟨hnext, hg⟩ := List.isChain_cons.1 hg
    rw [subRuns]
    by_cases h : isSlugChar c
    · rw [if_pos h, subRuns_of_gaps hcs hg (by simp)]
    · have hu : c = '_' := (hc c (by simp)).resolve_left h
      have hbf : b = false := by
        cases b
        · rfl
        · exact absurd (by simp [hu]) (hb rfl)
      rw [if_neg h, if_neg (by simp [hbf]), subRuns_of_gaps hcs hg fun _ h => hnext _ h ⟨hu, rfl⟩, hu]

section Sanitize
variable [UnicodeData]

/-- `re.sub(r"[^a-z0-9]+", "_", value.lower()).strip("_")`. -/
def cleaned (value : Str) : Str := stripBy (· = '_') (subRuns false (lower value))

theorem isSlug_cleaned {value : Str} (h : cleaned value ≠ []) : IsSlug (cleaned value) where
  ne_nil := h
  chars _ hc := isSlugChar_or_of_mem_subRuns (mem_of_mem_stripBy hc)
  first hf := by simpa using head?_stripBy _ _ _ hf
  last hl := by simpa using getLast?_rdropWhile _ _ _ hl
  gaps := by
    have htrim := (isChain_subRuns (lower value) false).suffix (List.dropWhile_suffix (· = '_'))
    obtain ⟨t, ht⟩ := List.rdropWhile_prefix (· = '_') ((subRuns false (lower value)).dropWhile (· = '_'))
    rw [← ht] at htrim
    exact htrim.left_of_append

def sanitizeFragment (value : Str) (fallback : Slug) : Slug :=
  if h : cleaned value ≠ [] then ⟨cleaned value, isSlug_cleaned h⟩ else fallback

theorem cleaned_of_isSlug {s : Str} (h : IsSlug s) : cleaned s = s := by
  rw [cleaned, lower_ascii h.isAscii, h.map_toLower, subRuns_of_gaps h.chars h.gaps (by simp)]
  refine stripBy_of_ends (fun c hc => ?_) fun c hc => ?_
  · simp only [decide_eq_false_iff_not]; rintro rfl; exact h.first hc
  · simp only [decide_eq_false_iff_not]; rintro rfl; exact h.last hc

@[simp] theorem sanitizeFragment_val (s fallback : Slug) : sanitizeFragment s.val fallback = s := by
  have hc := cleaned_of_isSlug s.isSlug
  rw [sanitizeFragment, dif_pos (by rw [hc]; exact s.isSlug.ne_nil)]
  exact Slug.ext hc

/-- `sanitize_fragment` with any text to fall back on. -/
def sanitizeText (value fallback : Str) : Str :=
  if cleaned value ≠ [] then cleaned value else fallback

theorem val_sanitizeFragment (value : Str) (fallback : Slug) :
    (sanitizeFragment value fallback).val = sanitizeText value fallback.val := by
  unfold sanitizeFragment sanitizeText
  split <;> rfl

theorem sanitizeText_of_isSlug {s : Str} (h : IsSlug s) (fallback : Str) :
    sanitizeText s fallback = s := by
  rw [sanitizeText, cleaned_of_isSlug h, if_pos h.ne_nil]

theorem isSlug_sanitizeText (value : Str) {fallback : Str} (h : IsSlug fallback) :
    IsSlug (sanitizeText value fallback) := by
  unfold sanitizeText
  split
  · exact isSlug_cleaned ‹_›
  · exact h

end Sanitize

namespace Slug

instance (s : Str) : Decidable (IsSlug s) :=
  decidable_of_iff (s ≠ [] ∧ (s.all fun c => isSlugChar c || c = '_') = true ∧ s.head? ≠ some '_' ∧
      s.getLast? ≠ some '_' ∧ s.IsChain fun a b => ¬ (a = '_' ∧ b = '_'))
    ⟨fun ⟨a, b, c, d, e⟩ => ⟨a, by simpa using b, c, d, e⟩, fun h => ⟨h.1, by simpa using h.2, h.3, h.4, h.5⟩⟩

/-- Two slugs with an underscore between them. -/
def join (a b : Slug) : Slug := ⟨a.val ++ '_' :: b.val, a.isSlug.join b.isSlug⟩

theorem join_right_inj {a b c : Slug} : a.join b = a.join c ↔ b = c := by
  simp [join, Slug.ext_iff]

/-- The part behind the last underscore tells where two joined slugs meet. -/
theorem join_inj {a b c d : Slug} (hb : '_' ∉ b.val) (hd : '_' ∉ d.val) :
    a.join b = c.join d ↔ a = c ∧ b = d := by
  refine ⟨fun h => ?_, fun h => by rw [h.1, h.2]⟩
  have h := congrArg (rpartition '_') (congrArg Slug.val h)
  simp only [join, rpartition_append hb, rpartition_append hd, Prod.mk.injEq,
    Option.some.injEq] at h
  exact ⟨Slug.ext h.1, Slug.ext h.2⟩

/-- `str(n)`. -/
def ofNat (n : Nat) : Slug where
  val := natStr n
  isSlug := .word (natStr_ne_nil n) fun _ hc => by simp [isSlugChar, isDigit_of_mem_natStr hc]

theorem underscore_not_mem_ofNat (n : Nat) : '_' ∉ (ofNat n).val := fun h => by
  simpa using isDigit_of_mem_natStr h

end Slug
end IpCamera
end OpenBmc
