import Mathlib.Order.Defs.Unbundled
import Mathlib.Data.List.Basic

/-!
# Loops that can fail

`foldlM_ok` is the rule for a loop in `Except`: what each step keeps is kept, the states grow by a
transitive relation, and what a step settles for its element stays settled.
-/

namespace OpenBmc
namespace Loop
variable {ε σ α : Type*}

/-- `P` holds of the state before every step of the loop, and of the element taken there. -/
def Along (P : σ → α → Prop) (f : σ → α → Except ε σ) : List α → σ → Prop
  | [], _ => True
  | a :: l, s => P s a ∧ ∀ s', f s a = .ok s' → Along P f l s'

variable {f : σ → α → Except ε σ}

@[simp] theorem foldlM_nil (s : σ) : [].foldlM f s = .ok s := rfl

theorem foldlM_cons_ok {a : α} {l : List α} {s s' : σ} (h : f s a = .ok s') :
    (a :: l).foldlM f s = l.foldlM f s' := by
  rw [List.foldlM_cons, h]
  rfl

/-- A loop whose steps succeed under `P`, keep it, grow the state, and settle their elements. -/
theorem foldlM_ok {P : σ → Prop} {R : σ → σ → Prop} {Q : α → σ → Prop} (refl : ∀ s, R s s)
    (trans : ∀ s t u, R s t → R t u → R s u) (keep : ∀ a s t, R s t → Q a s → Q a t)
    {C : σ → α → Prop} {l : List α} {s : σ}
    (step : ∀ a ∈ l, ∀ s, P s → C s a → ∃ s', f s a = .ok s' ∧ P s' ∧ R s s' ∧ Q a s')
    (hs : P s) (hC : Along C f l s) :
    ∃ s', l.foldlM f s = .ok s' ∧ P s' ∧ R s s' ∧ ∀ a ∈ l, Q a s' := by
  induction l generalizing s with
  | nil => exact ⟨s, rfl, hs, refl s, by simp⟩
  | cons a l ih =>
    obtain ⟨t, hst, hPt, hRt, hQt⟩ := step a List.mem_cons_self s hs hC.1
    obtain ⟨u, htu, hPu, hRu, hQu⟩ :=
      ih (fun b hb => step b (List.mem_cons_of_mem _ hb)) hPt (hC.2 t hst)
    refine ⟨u, (foldlM_cons_ok hst).trans htu, hPu, trans s t u hRt hRu, ?_⟩
    intro b hb
    rcases List.mem_cons.1 hb with rfl | hb
    · exact keep b t u hRu hQt
    · exact hQu b hb

theorem along_true (l : List α) (s : σ) : Along (fun _ _ => True) f l s := by
  induction l generalizing s with
  | nil => trivial
  | cons a l ih => exact ⟨trivial, fun s' _ => ih s'⟩

theorem along_imp {P : σ → α → Prop} {c : Prop} {l : List α} {s : σ} (h : c → Along P f l s) :
    Along (fun s a => c → P s a) f l s := by
  induction l generalizing s with
  | nil => trivial
  | cons a l ih => exact ⟨fun hc => (h hc).1, fun s' hs' => ih fun hc => (h hc).2 s' hs'⟩

end Loop
end OpenBmc
