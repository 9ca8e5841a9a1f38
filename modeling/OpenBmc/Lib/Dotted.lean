import Mathlib

/-!
# Dotted numbers

A dotted number is the list of its components. Their order is the lexicographic one, in which a
number comes before its own extensions: `r < s` holds when `r` is `Below` `s`, that is smaller at
the first component in which they differ, or when `r` is a proper prefix of `s`. `pick` is the scan
for a greatest element by a test that tells only `Below`; it finds one if no element is a proper
prefix of a greatest.
-/

namespace OpenBmc
namespace Dotted

variable {α : Type} [LinearOrder α]

/-- `r` is smaller than `s` at a component both have, the components before that being equal. -/
def Below : List α → List α → Prop
  | a :: r, b :: s => a < b ∨ a = b ∧ Below r s
  | _, _ => False

instance decidableBelow : (r s : List α) → Decidable (Below r s)
  | [], _ => isFalse id
  | _ :: _, [] => isFalse id
  | a :: r, b :: s =>
    have := decidableBelow r s
    inferInstanceAs (Decidable (a < b ∨ a = b ∧ Below r s))

theorem lt_iff {r s : List α} : r < s ↔ Below r s ∨ r <+: s ∧ r ≠ s := by
  induction r generalizing s with
  | nil => cases s <;> simp [Below]
  | cons a r ih =>
    cases s with
    | nil => simp [Below]
    | cons b s =>
      rw [List.cons_lt_cons_iff, ih, Below, List.cons_prefix_cons]
      constructor
      · rintro (h | ⟨rfl, h | ⟨h, hne⟩⟩)
        exacts [.inl (.inl h), .inl (.inr ⟨rfl, h⟩), .inr ⟨⟨rfl, h⟩, by simpa using hne⟩]
      · rintro ((h | ⟨rfl, h⟩) | ⟨⟨rfl, h⟩, hne⟩)
        exacts [.inl h, .inr ⟨rfl, .inl h⟩, .inr ⟨rfl, .inr ⟨h, by simpa using hne⟩⟩]

theorem Below.lt {r s : List α} (h : Below r s) : r < s := lt_iff.2 (.inl h)

theorem prefix_of_not_below {r s : List α} (h : ¬ Below r s) (hle : r ≤ s) : r <+: s := by
  rcases hle.eq_or_lt with rfl | hlt
  · exact List.prefix_rfl
  · exact ((lt_iff.1 hlt).resolve_left h).1

theorem not_below_of_prefix {r s : List α} (h : r <+: s) : ¬ Below r s := by
  obtain ⟨t, rfl⟩ := h
  induction r with
  | nil => exact id
  | cons a r ih =>
    rintro (h | ⟨-, h⟩)
    exacts [lt_irrefl a h, ih h]

theorem not_below_iff {r s : List α} : ¬ Below r s ↔ s ≤ r ∨ r <+: s := by
  constructor
  · intro h
    exact (le_total s r).imp_right (prefix_of_not_below h)
  · rintro (h | h)
    · exact fun hb => absurd hb.lt (not_lt.2 h)
    · exact not_below_of_prefix h

/-- Further components behind either number change nothing. -/
theorem Below.of_initial {r s t : List α} (h : Below r s) (hp : r <+: t) : Below t s := by
  obtain ⟨z, rfl⟩ := hp
  induction r generalizing s with
  | nil => cases h
  | cons a r ih =>
    cases s with
    | nil => cases h
    | cons b s => exact Or.imp_right (And.imp_right ih) h

theorem Below.trans_prefix {r s t : List α} (h : Below r s) (hp : s <+: t) : Below r t := by
  obtain ⟨z, rfl⟩ := hp
  induction r generalizing s with
  | nil => cases h
  | cons a r ih =>
    cases s with
    | nil => cases h
    | cons b s => exact Or.imp_right (And.imp_right ih) h

/-- No element of `S` is a proper prefix of a greatest one. -/
def Tip (S : Set (List α)) : Prop := ∀ g, IsGreatest S g → ∀ r ∈ S, r <+: g → r = g

theorem Tip.eq_of_not_below {S : Set (List α)} (h : Tip S) {g r : List α} (hg : IsGreatest S g)
    (hr : r ∈ S) (hb : ¬ Below r g) : r = g :=
  h g hg r hr (prefix_of_not_below hb (hg.2 hr))

theorem tip_empty : Tip (∅ : Set (List α)) := fun _ hg => hg.1.elim

theorem tip_singleton (r : List α) : Tip {r} := fun _ hg _ hs _ => hs.trans hg.1.symm

/-! ### The scan for a greatest element -/

section Pick
variable {β : Type} (num : β → List α) (better : β → β → Bool)

def pick (v : β) (l : List β) : β := l.foldl (fun v c => if better c v then c else v) v

variable {num better} {v : β} {l : List β}

theorem pick_mem : pick better v l ∈ v :: l := by
  induction l generalizing v with
  | nil => exact List.mem_cons_self
  | cons c l ih =>
    show pick better (if better c v then c else v) l ∈ _
    split
    · exact List.mem_cons_of_mem _ ih
    · rcases List.mem_cons.1 (ih (v := v)) with h | h
      · rw [h]; exact List.mem_cons_self
      · exact List.mem_cons_of_mem _ (List.mem_cons_of_mem _ h)

theorem pick_concat {c : β} : pick better v (l ++ [c]) =
    if better c (pick better v l) then c else pick better v l := by
  rw [pick, List.foldl_append]
  rfl

/-- What every other element gives way to, and what gives way to none, is found in any order. -/
theorem pick_eq_of_top {g : β} (hmem : g ∈ v :: l) (htop : ∀ x ∈ v :: l, x ≠ g → better g x = true)
    (hkeep : ∀ x ∈ v :: l, x ≠ g → better x g = false) : pick better v l = g := by
  induction l generalizing v with
  | nil => exact (List.mem_singleton.1 hmem).symm
  | cons c l ih =>
    have hsub : ∀ x ∈ (if better c v then c else v) :: l, x ∈ v :: c :: l := by
      intro x hx
      rcases List.mem_cons.1 hx with rfl | hx
      · split <;> simp
      · simp [hx]
    show pick better (if better c v then c else v) l = g
    refine ih ?_ (fun x hx => htop x (hsub x hx)) (fun x hx => hkeep x (hsub x hx))
    by_cases hv : v = g
    · by_cases hc : c = g
      · simp [hv, hc]
      · have hc := hkeep c (by simp) hc
        rw [hv, hc, if_neg Bool.false_ne_true]
        exact List.mem_cons_self
    · rcases List.mem_cons.1 hmem with hg | hmem
      · exact absurd hg.symm hv
      rcases List.mem_cons.1 hmem with rfl | hmem
      · rw [if_pos (htop v (by simp) hv)]
        exact List.mem_cons_self
      · exact List.mem_cons_of_mem _ hmem

/-- The test accepts whatever is not below the value held, except that value itself. -/
theorem num_pick (hbetter : ∀ c v, better c v = true ↔ ¬ Below (num c) (num v) ∧ c ≠ v)
    {S : Set (List α)} (htip : Tip S) {g : List α} (hg : IsGreatest S g)
    (hS : ∀ x ∈ v :: l, num x ∈ S) (hmem : ∃ x ∈ v :: l, num x = g) : num (pick better v l) = g := by
  induction l generalizing v with
  | nil =>
    obtain ⟨x, hx, rfl⟩ := hmem
    rw [List.mem_singleton.1 hx]
    rfl
  | cons c l ih =>
    have hv : num v ∈ S := hS v (by simp)
    have hc : num c ∈ S := hS c (by simp)
    show num (pick better (if better c v then c else v) l) = g
    by_cases hb : better c v = true
    · rw [if_pos hb]
      refine ih (fun x hx => hS x (List.mem_cons_of_mem _ hx)) ?_
      obtain ⟨x, hx, hxg⟩ := hmem
      rcases List.mem_cons.1 hx with rfl | hx
      · -- the value held was greatest: the accepted one is not below it
        exact ⟨c, by simp, htip.eq_of_not_below hg hc (hxg ▸ ((hbetter c x).1 hb).1)⟩
      · exact ⟨x, hx, hxg⟩
    · rw [if_neg hb]
      refine ih (fun x hx => hS x ?_) ?_
      · simp only [List.mem_cons] at hx ⊢; tauto
      · obtain ⟨x, hx, hxg⟩ := hmem
        simp only [List.mem_cons] at hx
        rcases hx with rfl | rfl | hx
        · exact ⟨x, by simp, hxg⟩
        · -- the greatest was refused: it is the value held
          rw [hbetter, not_and_or, not_not, not_not] at hb
          rcases hb with hb | rfl
          · exact absurd hb.lt (not_lt.2 (hxg ▸ hg.2 hv))
          · exact ⟨x, by simp, hxg⟩
        · exact ⟨x, List.mem_cons_of_mem _ hx, hxg⟩

end Pick

/-! ### Increasing the last component -/

section Bump

/-- The number with its last component increased by one. -/
def bump : List Int → List Int
  | [] => []
  | [a] => [a + 1]
  | a :: b :: r => a :: bump (b :: r)

theorem lt_bump {r : List Int} (h : r ≠ []) : r < bump r := by
  induction r with
  | nil => exact absurd rfl h
  | cons a r ih =>
    cases r with
    | nil => exact List.cons_lt_cons_iff.2 (.inl (by omega))
    | cons b r => exact List.cons_lt_cons_iff.2 (.inr ⟨rfl, ih (by simp)⟩)

end Bump

end Dotted
end OpenBmc
