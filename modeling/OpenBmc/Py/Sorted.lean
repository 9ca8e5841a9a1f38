import OpenBmc.Py.Str
import Mathlib.Data.List.Sort
import Mathlib.Data.Finset.Basic

/-!
# `sorted`

Sets have no order, so `sorted` of one is a function of the set; of a list it is stable.
-/

namespace OpenBmc
namespace Py
variable {α : Type*}

section Key

/-- `sorted(l, key=key)`. -/
def sortedBy {β : Type*} [LinearOrder β] (key : α → β) (l : List α) : List α :=
  l.insertionSort fun a b => key a ≤ key b

theorem mem_sortedBy {β : Type*} [LinearOrder β] {key : α → β} {l : List α} {a : α} :
    a ∈ sortedBy key l ↔ a ∈ l := (List.perm_insertionSort _ l).mem_iff

end Key

variable [LinearOrder α]

/-- `sorted(s)` for a set. -/
def sorted (s : Finset α) : List α :=
  Quot.liftOn s.val (fun l => l.insertionSort (· ≤ ·)) fun l l' h =>
    List.Perm.eq_of_pairwise (fun _ _ _ _ hab hba => le_antisymm hab hba)
      (List.pairwise_insertionSort _ l) (List.pairwise_insertionSort _ l')
      ((List.perm_insertionSort _ l).trans (h.trans (List.perm_insertionSort _ l').symm))

theorem coe_sorted (s : Finset α) : (sorted s : Multiset α) = s.val := by
  unfold sorted
  induction s.val using Quot.ind with
  | mk l => exact Quot.sound (List.perm_insertionSort _ l)

@[simp]
theorem mem_sorted {s : Finset α} {a : α} : a ∈ sorted s ↔ a ∈ s := by
  rw [← Multiset.mem_coe, coe_sorted, Finset.mem_val]

theorem nodup_sorted (s : Finset α) : (sorted s).Nodup := by
  rw [← Multiset.coe_nodup, coe_sorted]
  exact s.nodup

theorem pairwise_sorted (s : Finset α) : (sorted s).Pairwise (· < ·) := by
  have hle : (sorted s).Pairwise (· ≤ ·) := by
    unfold sorted
    induction s.val using Quot.ind with
    | mk l => exact List.pairwise_insertionSort _ l
  exact (hle.and (nodup_sorted s)).imp fun h => lt_of_le_of_ne h.1 h.2

@[simp]
theorem length_sorted (s : Finset α) : (sorted s).length = s.card := by
  rw [← Multiset.coe_card, coe_sorted]
  rfl

theorem sorted_inj {s s' : Finset α} : sorted s = sorted s' ↔ s = s' := by
  refine ⟨fun h => ?_, fun h => by rw [h]⟩
  ext a
  rw [← mem_sorted, h, mem_sorted]

end Py
end OpenBmc
