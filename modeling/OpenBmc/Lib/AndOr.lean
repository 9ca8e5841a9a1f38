import Mathlib

/-!
# Terms over "and" and "or"

A term offers choices: one side of each `either`, and of each `both` the two sides together. What is
selected from the inside to the outside, by comparing two selections at a time, is a choice, and it
meets a requirement on the single members as soon as one choice does.
-/

namespace OpenBmc

inductive AndOr (α : Type)
  | leaf (a : α)
  | both (l r : AndOr α)
  | either (l r : AndOr α)

namespace AndOr

variable {α : Type}

/-- The members of a term, in their order. -/
def leaves : AndOr α → List α
  | leaf a => [a]
  | both l r => l.leaves ++ r.leaves
  | either l r => l.leaves ++ r.leaves

/-- `t.Chooses c`: `c` is what one choice of a side of every `either` leaves. -/
inductive Chooses : AndOr α → List α → Prop
  | leaf (a : α) : Chooses (leaf a) [a]
  | both {l r : AndOr α} {c d : List α} : Chooses l c → Chooses r d → Chooses (both l r) (c ++ d)
  | left {l r : AndOr α} {c : List α} : Chooses l c → Chooses (either l r) c
  | right {l r : AndOr α} {c : List α} : Chooses r c → Chooses (either l r) c

/-- The selection that `choose` makes, from the inside to the outside. -/
def select (choose : List α → List α → List α) : AndOr α → List α
  | leaf a => [a]
  | both l r => l.select choose ++ r.select choose
  | either l r => choose (l.select choose) (r.select choose)

variable {choose : List α → List α → List α} {t l r : AndOr α} {c : List α} {p : α → Prop}

theorem Chooses.length_le (h : t.Chooses c) : c.length ≤ t.leaves.length := by
  induction h with
  | leaf a => exact le_refl _
  | both _ _ ihl ihr =>
    rw [leaves, List.length_append, List.length_append]
    exact Nat.add_le_add ihl ihr
  | left _ ih => exact le_trans ih (by rw [leaves, List.length_append]; omega)
  | right _ ih => exact le_trans ih (by rw [leaves, List.length_append]; omega)

theorem chooses_both_iff :
    (both l r).Chooses c ↔ ∃ d e, c = d ++ e ∧ l.Chooses d ∧ r.Chooses e := by
  constructor
  · intro h
    cases h with
    | both hl hr => exact ⟨_, _, rfl, hl, hr⟩
  · rintro ⟨d, e, rfl, hl, hr⟩
    exact .both hl hr

theorem chooses_either_iff : (either l r).Chooses c ↔ l.Chooses c ∨ r.Chooses c := by
  constructor
  · intro h
    cases h with
    | left h => exact .inl h
    | right h => exact .inr h
  · rintro (h | h)
    · exact .left h
    · exact .right h

/-- Some choice has only members with `p`. -/
def Can (p : α → Prop) (t : AndOr α) : Prop := ∃ c, t.Chooses c ∧ ∀ a ∈ c, p a

theorem can_leaf {a : α} : (leaf a).Can p ↔ p a := by
  refine ⟨fun ⟨c, hc, hp⟩ => ?_, fun h => ⟨[a], .leaf a, by simpa using h⟩⟩
  cases hc
  exact hp a (List.mem_singleton_self a)

theorem can_both : (both l r).Can p ↔ l.Can p ∧ r.Can p := by
  constructor
  · rintro ⟨c, hc, hp⟩
    obtain ⟨d, e, rfl, hd, he⟩ := chooses_both_iff.1 hc
    exact ⟨⟨d, hd, fun a ha => hp a (List.mem_append_left _ ha)⟩,
      e, he, fun a ha => hp a (List.mem_append_right _ ha)⟩
  · rintro ⟨⟨d, hd, hpd⟩, e, he, hpe⟩
    exact ⟨d ++ e, .both hd he, fun a ha => (List.mem_append.1 ha).elim (hpd a) (hpe a)⟩

theorem can_either : (either l r).Can p ↔ l.Can p ∨ r.Can p := by
  simp only [Can, chooses_either_iff, or_and_right, exists_or]

/-- A function that returns one of its two lists selects a choice. -/
theorem chooses_select (hc : ∀ a b, choose a b = a ∨ choose a b = b) :
    ∀ t : AndOr α, t.Chooses (t.select choose)
  | leaf a => .leaf a
  | both l r => .both (chooses_select hc l) (chooses_select hc r)
  | either l r => by
    rw [select]
    rcases hc (l.select choose) (r.select choose) with h | h
    · rw [h]
      exact .left (chooses_select hc l)
    · rw [h]
      exact .right (chooses_select hc r)

/-- When of two lists that are not longer than the term a list with `p` is preferred, the selection
has `p` as soon as a choice has. -/
theorem select_iff (hc : ∀ a b, choose a b = a ∨ choose a b = b) :
    ∀ t : AndOr α, (∀ a b, a.length ≤ t.leaves.length → b.length ≤ t.leaves.length →
      ((∀ x ∈ choose a b, p x) ↔ (∀ x ∈ a, p x) ∨ ∀ x ∈ b, p x)) →
      ((∀ x ∈ t.select choose, p x) ↔ t.Can p)
  | leaf a, _ => by rw [can_leaf, select, List.forall_mem_singleton]
  | both l r, h => by
    rw [leaves, List.length_append] at h
    have hl := select_iff hc l fun a b ha hb => h a b (by omega) (by omega)
    have hr := select_iff hc r fun a b ha hb => h a b (by omega) (by omega)
    rw [can_both, ← hl, ← hr, select]
    exact List.forall_mem_append
  | either l r, h => by
    rw [leaves, List.length_append] at h
    have hl := select_iff hc l fun a b ha hb => h a b (by omega) (by omega)
    have hr := select_iff hc r fun a b ha hb => h a b (by omega) (by omega)
    have hll := (chooses_select hc l).length_le
    have hrl := (chooses_select hc r).length_le
    rw [can_either, ← hl, ← hr, select]
    exact h _ _ (by omega) (by omega)

/-! ### Equivalence -/

/-- The choices of a term, in their order. -/
def choices : AndOr α → List (List α)
  | leaf a => [[a]]
  | both l r => l.choices.flatMap fun c => r.choices.map (c ++ ·)
  | either l r => l.choices ++ r.choices

theorem mem_choices : ∀ {t : AndOr α} {c : List α}, c ∈ t.choices ↔ t.Chooses c
  | leaf a, c => by
    rw [choices, List.mem_singleton]
    constructor
    · rintro rfl
      exact .leaf a
    · intro h
      cases h
      rfl
  | both l r, c => by
    rw [chooses_both_iff, choices, List.mem_flatMap]
    simp only [List.mem_map, mem_choices]
    constructor
    · rintro ⟨d, hd, e, he, rfl⟩
      exact ⟨d, e, rfl, hd, he⟩
    · rintro ⟨d, e, rfl, hd, he⟩
      exact ⟨d, hd, e, he, rfl⟩
  | either l r, c => by
    rw [chooses_either_iff, choices, List.mem_append, mem_choices, mem_choices]

/-- Two terms that offer the same choices, each as often. -/
def Equivalent (t u : AndOr α) : Prop := t.choices.Perm u.choices

theorem Equivalent.refl (t : AndOr α) : Equivalent t t := List.Perm.refl _

theorem Equivalent.chooses_iff {u : AndOr α} (h : Equivalent t u) : t.Chooses c ↔ u.Chooses c := by
  rw [← mem_choices, h.mem_iff, mem_choices]

/-- A number that equivalent terms share, and that is larger for `both` than for `either`. -/
def weight (t : AndOr α) : Nat := (t.choices.map fun c => 3 ^ c.length).sum

theorem Equivalent.weight_eq {u : AndOr α} (h : Equivalent t u) : t.weight = u.weight :=
  (h.map _).sum_eq

theorem weight_leaf (a : α) : (leaf a).weight = 3 := rfl

theorem weight_either : (either l r).weight = l.weight + r.weight := by
  rw [weight, choices, List.map_append, List.sum_append]
  rfl

theorem weight_both : (both l r).weight = l.weight * r.weight := by
  have hright : ∀ c : List α, ((r.choices.map (c ++ ·)).map fun d => 3 ^ d.length).sum =
      3 ^ c.length * r.weight := by
    intro c
    rw [List.map_map, weight, ← List.sum_map_mul_left]
    simp [Function.comp_def, pow_add]
  rw [weight, choices, List.map_flatMap, List.flatMap_def, List.sum_flatten, List.map_map, weight,
    ← List.sum_map_mul_right]
  exact congrArg List.sum (List.map_congr_left fun c _ => hright c)

theorem three_le_weight : ∀ t : AndOr α, 3 ≤ t.weight
  | leaf a => le_refl 3
  | both l r => by
    rw [weight_both]
    nlinarith [three_le_weight l, three_le_weight r]
  | either l r => by
    rw [weight_either]
    exact le_trans (three_le_weight l) (Nat.le_add_right _ _)

theorem weight_either_lt_both (l r : AndOr α) : (either l r).weight < (both l r).weight := by
  rw [weight_either, weight_both]
  nlinarith [three_le_weight l, three_le_weight r]

end AndOr
end OpenBmc
