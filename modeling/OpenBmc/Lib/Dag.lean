import Mathlib.Data.Finset.Card
import Mathlib.Logic.Relation

/-!
# Finite acyclic relations

`rank r nodes a` counts the nodes below `a`. In an acyclic relation it falls along every edge, which
bounds a traversal from above, and gives the induction in which a node comes after all that lead to
it. `Chain r p` is reachability by non-empty chains whose inner nodes satisfy `p`.
-/

namespace OpenBmc
namespace Dag
open Relation Classical

/-- `b` is reached from `a` by one edge or more, over inner nodes that satisfy `p`. -/
inductive Chain {α : Type*} (r : α → α → Prop) (p : α → Prop) : α → α → Prop
  | single {a b : α} : r a b → Chain r p a b
  | tail {a b c : α} : Chain r p a b → p b → r b c → Chain r p a c

variable {α : Type*} {r : α → α → Prop} {p : α → Prop} {nodes : Finset α}

/-- A chain is followed forwards by whatever is closed under the edges from its inner nodes. -/
theorem Chain.closed {q : α → Prop} {a b : α} (h : Chain r p a b) (hstart : ∀ b, r a b → q b)
    (hstep : ∀ b c, q b → p b → r b c → q c) : q b := by
  induction h with
  | single h => exact hstart _ h
  | tail _ hp hr ih => exact hstep _ _ ih hp hr

/-- What lies on a cycle has an infinite descent. -/
theorem not_acc_of_transGen {a : α} (h : TransGen r a a) : ¬ Acc r a := by
  intro hacc
  replace hacc := hacc.transGen
  induction hacc with
  | intro a _ ih => exact ih a h h

/-- What one more edge connects, it connects through that edge. -/
theorem transGen_of_edge {r' : α → α → Prop} {t u : α} (hr : ∀ a b, r' a b → r a b ∨ a = t ∧ b = u)
    {a b : α} (h : TransGen r' a b) :
    TransGen r a b ∨ ReflTransGen r a t ∧ ReflTransGen r u b := by
  induction h with
  | single h =>
    rcases hr _ _ h with h | ⟨rfl, rfl⟩
    · exact .inl (.single h)
    · exact .inr ⟨.refl, .refl⟩
  | tail _ hbc ih =>
    rcases hr _ _ hbc with hbc | ⟨rfl, rfl⟩
    · exact ih.imp (fun h => h.tail hbc) fun h => ⟨h.1, h.2.tail hbc⟩
    · exact .inr (ih.elim (fun h => ⟨h.to_reflTransGen, .refl⟩) fun h => ⟨h.1, .refl⟩)

/-- One more edge closes no cycle where nothing leads back. -/
theorem irrefl_of_edge {r' : α → α → Prop} {t u : α} (h : ∀ a, ¬ TransGen r a a)
    (hr : ∀ a b, r' a b → r a b ∨ a = t ∧ b = u) (hne : u ≠ t) (hback : ¬ TransGen r u t) (a : α) :
    ¬ TransGen r' a a := by
  intro hcycle
  rcases transGen_of_edge hr hcycle with hold | ⟨hat, hua⟩
  · exact h a hold
  · rcases reflTransGen_iff_eq_or_transGen.1 (hua.trans hat) with heq | hut
    · exact hne heq.symm
    · exact hback hut

/-- The edges stay between nodes, and do not lead back. -/
structure Acyclic (r : α → α → Prop) (nodes : Finset α) : Prop where
  left_mem : ∀ a b, r a b → a ∈ nodes
  right_mem : ∀ a b, r a b → b ∈ nodes
  irrefl : ∀ a, ¬ TransGen r a a

/-- The number of nodes below `a`. -/
noncomputable def rank (r : α → α → Prop) (nodes : Finset α) (a : α) : Nat :=
  (nodes.filter fun b => TransGen r a b).card

theorem rank_le_card {a : α} : rank r nodes a ≤ nodes.card :=
  Finset.card_le_card (Finset.filter_subset ..)

theorem Acyclic.rank_lt_card (h : Acyclic r nodes) {a : α} (ha : a ∈ nodes) :
    rank r nodes a < nodes.card := by
  refine Finset.card_lt_card (Finset.ssubset_iff_subset_ne.2 ⟨Finset.filter_subset .., ?_⟩)
  intro heq
  rw [← heq] at ha
  exact h.irrefl a (Finset.mem_filter.1 ha).2

theorem Acyclic.rank_lt (h : Acyclic r nodes) {a b : α} (hab : r a b) :
    rank r nodes b < rank r nodes a := by
  refine Finset.card_lt_card (Finset.ssubset_iff_subset_ne.2 ⟨?_, ?_⟩)
  · intro c hc
    obtain ⟨hc, hbc⟩ := Finset.mem_filter.1 hc
    exact Finset.mem_filter.2 ⟨hc, .head hab hbc⟩
  · intro heq
    have hb : b ∈ nodes.filter fun c => TransGen r a c :=
      Finset.mem_filter.2 ⟨h.right_mem a b hab, .single hab⟩
    rw [← heq] at hb
    exact h.irrefl b (Finset.mem_filter.1 hb).2

/-- Induction in which a node follows all the nodes that have an edge to it. -/
theorem Acyclic.induction (h : Acyclic r nodes) {q : α → Prop}
    (step : ∀ b, (∀ a, r a b → q a) → q b) (b : α) : q b := by
  suffices hall : ∀ n b, nodes.card - rank r nodes b < n → q b from hall _ b (Nat.lt_succ_self _)
  intro n
  induction n with
  | zero => intro b hb; omega
  | succ n ih =>
    intro b hb
    refine step b fun a hab => ih a ?_
    have hlt := h.rank_lt hab
    have hle : rank r nodes a ≤ nodes.card := rank_le_card
    omega

end Dag
end OpenBmc
