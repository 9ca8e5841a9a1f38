import Mathlib.Data.Finset.Union
import Mathlib.Data.Finset.Card
import Mathlib.Logic.Relation

/-!
# Worklist closure

`worklist next n seen new` follows `next` from the elements of `new`, a whole generation at a time,
until no generation is new or `n` of them were taken. Inside a finite set that `next` does not leave,
`closure` takes enough of them: its elements are those reachable from the start.
-/

namespace OpenBmc
namespace Worklist
variable {α : Type*} [DecidableEq α]

def worklist (next : α → Finset α) : Nat → Finset α → Finset α → Finset α
  | 0, seen, _ => seen
  | n + 1, seen, new =>
    if new = ∅ then seen
    else worklist next n (seen ∪ new) (new.biUnion next \ (seen ∪ new))

/-- The closure of `start` in a set of nodes that `next` does not leave. -/
def closure (next : α → Finset α) (nodes start : Finset α) : Finset α :=
  worklist next (nodes.card + 1) ∅ start

/-- `b` is reached from `a` by following `next`. -/
def Reach (next : α → Finset α) : α → α → Prop := Relation.ReflTransGen fun a b => b ∈ next a

variable {next : α → Finset α} {nodes : Finset α}

/-- What the loop keeps: it sees nodes only, and the successors of what it has seen are seen or new. -/
structure Closing (next : α → Finset α) (nodes seen new : Finset α) : Prop where
  seen_subset : seen ⊆ nodes
  new_subset : new ⊆ nodes
  disjoint : Disjoint seen new
  next_subset : ∀ a ∈ seen, next a ⊆ seen ∪ new

theorem Closing.step {seen new : Finset α} (hnodes : ∀ a ∈ nodes, next a ⊆ nodes)
    (h : Closing next nodes seen new) :
    Closing next nodes (seen ∪ new) (new.biUnion next \ (seen ∪ new)) where
  seen_subset := Finset.union_subset h.seen_subset h.new_subset
  new_subset := by
    intro b hb
    obtain ⟨a, ha, hb⟩ := Finset.mem_biUnion.1 (Finset.mem_sdiff.1 hb).1
    exact hnodes a (h.new_subset ha) hb
  disjoint := Finset.disjoint_sdiff
  next_subset := by
    intro a ha b hb
    rw [Finset.union_sdiff_self_eq_union]
    rcases Finset.mem_union.1 ha with ha | ha
    · exact Finset.mem_union_left _ (h.next_subset a ha hb)
    · exact Finset.mem_union_right _ (Finset.mem_biUnion.2 ⟨a, ha, hb⟩)

omit [DecidableEq α] in
theorem reach_mem_of_closed {s : Finset α} (h : ∀ a ∈ s, next a ⊆ s) {a b : α} (ha : a ∈ s)
    (hab : Reach next a b) : b ∈ s := by
  induction hab with
  | refl => exact ha
  | tail _ hbc ih => exact h _ ih hbc

/-- With as many rounds as nodes are left, the loop sees what it can reach. -/
theorem mem_worklist (hnodes : ∀ a ∈ nodes, next a ⊆ nodes) {n : Nat} {seen new : Finset α} {b : α}
    (h : Closing next nodes seen new) (hn : (nodes \ seen).card < n) :
    b ∈ worklist next n seen new ↔ b ∈ seen ∨ ∃ a ∈ new, Reach next a b := by
  induction n generalizing seen new with
  | zero => omega
  | succ n ih =>
    rw [worklist]
    split
    · rename_i hnew
      simp [hnew]
    · rename_i hnew
      have hlt : (nodes \ (seen ∪ new)).card < (nodes \ seen).card := by
        obtain ⟨a, ha⟩ := Finset.nonempty_iff_ne_empty.2 hnew
        refine Finset.card_lt_card (Finset.ssubset_iff_subset_ne.2 ⟨?_, fun he => ?_⟩)
        · exact Finset.sdiff_subset_sdiff (Finset.Subset.refl _) Finset.subset_union_left
        · have hmem : a ∈ nodes \ seen :=
            Finset.mem_sdiff.2 ⟨h.new_subset ha, fun hs => Finset.disjoint_left.1 h.disjoint hs ha⟩
          rw [← he] at hmem
          exact (Finset.mem_sdiff.1 hmem).2 (Finset.mem_union_right _ ha)
      rw [ih (h.step hnodes) (by omega)]
      constructor
      · rintro (hb | ⟨c, hc, hcb⟩)
        · exact (Finset.mem_union.1 hb).imp_right fun hb => ⟨b, hb, .refl⟩
        · obtain ⟨a, ha, hac⟩ := Finset.mem_biUnion.1 (Finset.mem_sdiff.1 hc).1
          exact .inr ⟨a, ha, hcb.head hac⟩
      · rintro (hb | ⟨a, ha, hab⟩)
        · exact .inl (Finset.mem_union_left _ hb)
        · -- the path stays in what is seen, or leaves it through a new successor
          have hpath : ∀ c, Reach next a c → c ∈ seen ∪ new ∨
              ∃ c' ∈ new.biUnion next \ (seen ∪ new), Reach next c' c := by
            intro c hc
            induction hc with
            | refl => exact .inl (Finset.mem_union_right _ ha)
            | @tail c d _ hcd ih =>
              rcases ih with hc | ⟨c', hc', hreach⟩
              · have hd := (h.step hnodes).next_subset c hc hcd
                rcases Finset.mem_union.1 hd with hd | hd
                · exact .inl hd
                · exact .inr ⟨d, hd, .refl⟩
              · exact .inr ⟨c', hc', hreach.tail hcd⟩
          exact hpath b hab

theorem mem_closure (hnodes : ∀ a ∈ nodes, next a ⊆ nodes) {start : Finset α} (hstart : start ⊆ nodes)
    {b : α} : b ∈ closure next nodes start ↔ ∃ a ∈ start, Reach next a b := by
  have h : Closing next nodes ∅ start := ⟨by simp, hstart, by simp, by simp⟩
  rw [closure, mem_worklist hnodes h (by simp)]
  simp

theorem subset_closure (hnodes : ∀ a ∈ nodes, next a ⊆ nodes) {start : Finset α}
    (hstart : start ⊆ nodes) : start ⊆ closure next nodes start :=
  fun a ha => (mem_closure hnodes hstart).2 ⟨a, ha, .refl⟩

theorem next_subset_closure (hnodes : ∀ a ∈ nodes, next a ⊆ nodes) {start : Finset α}
    (hstart : start ⊆ nodes) {a : α} (ha : a ∈ closure next nodes start) :
    next a ⊆ closure next nodes start := by
  intro b hb
  obtain ⟨c, hc, hca⟩ := (mem_closure hnodes hstart).1 ha
  exact (mem_closure hnodes hstart).2 ⟨c, hc, hca.tail hb⟩

theorem closure_subset (hnodes : ∀ a ∈ nodes, next a ⊆ nodes) {start : Finset α}
    (hstart : start ⊆ nodes) : closure next nodes start ⊆ nodes := by
  intro b hb
  obtain ⟨a, ha, hab⟩ := (mem_closure hnodes hstart).1 hb
  exact reach_mem_of_closed hnodes (hstart ha) hab

end Worklist
end OpenBmc
