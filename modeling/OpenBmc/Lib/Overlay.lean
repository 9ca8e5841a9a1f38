import OpenBmc.Lib.Extent

/-!
# Files laid over one another

`Overlay source S file file'` says that `file'` is `file` with the bytes of `source` at the positions in
`S`. Past the end a file counts as filled, and it becomes as long as what is written needs. Writes one
after the other overlay the union of their positions.
-/

namespace OpenBmc

variable {α : Type} {fill : α} {file file' file'' bytes : List α} {off : ℕ}

/-- The byte at `i`, `fill` past the end of the file. -/
def byteAt (fill : α) (file : List α) (i : ℕ) : α := file[i]?.getD fill

theorem byteAt_writeAt_of_mem {i : ℕ} (h : i < bytes.length) :
    byteAt fill (writeAt fill file off bytes) (off + i) = byteAt fill bytes i := by
  rw [byteAt, getElem?_writeAt_of_mem h, byteAt]

theorem byteAt_writeAt_of_not_mem {j : ℕ} (h : j < off ∨ off + bytes.length ≤ j) :
    byteAt fill (writeAt fill file off bytes) j = byteAt fill file j := by
  rcases h with h | h
  · by_cases hj : j < file.length
    · rw [byteAt, getElem?_writeAt_of_lt h hj, byteAt]
    · -- The gap that a seek past the end leaves.
      cases bytes with
      | nil => rfl
      | cons b bs =>
        have htake : file.take off = file := List.take_of_length_le (by omega)
        rw [byteAt, byteAt, List.getElem?_eq_none (Nat.not_lt.1 hj), writeAt, htake, List.append_assoc,
          List.append_assoc, List.getElem?_append_right (Nat.not_lt.1 hj),
          List.getElem?_append_left (by rw [List.length_replicate]; omega)]
        rw [List.getElem?_replicate_of_lt (by omega)]
        rfl
  · rw [byteAt, getElem?_writeAt_of_ge h, byteAt]

theorem lt_length_writeAt {j : ℕ} : j < (writeAt fill file off bytes).length ↔
    j < file.length ∨ bytes ≠ [] ∧ j < off + bytes.length := by
  cases bytes with
  | nil => simp [writeAt]
  | cons b bs =>
    simp only [writeAt, List.length_append, List.length_take, List.length_replicate, List.length_cons,
      List.length_drop, ne_eq, reduceCtorEq, not_false_eq_true, true_and]
    omega

structure Overlay (fill : α) (source : ℕ → α) (S : Set ℕ) (file file' : List α) : Prop where
  inside : ∀ j ∈ S, byteAt fill file' j = source j
  outside : ∀ j ∉ S, byteAt fill file' j = byteAt fill file j
  length : ∀ j, j < file'.length ↔ j < file.length ∨ ∃ k ∈ S, j ≤ k

namespace Overlay
variable {source : ℕ → α} {S T : Set ℕ}

theorem refl : Overlay fill source ∅ file file where
  inside := fun _ h => absurd h (Set.notMem_empty _)
  outside := fun _ _ => rfl
  length := fun j => by simp

theorem trans (h : Overlay fill source S file file') (h' : Overlay fill source T file' file'') :
    Overlay fill source (S ∪ T) file file'' where
  inside := fun j hj => by
    by_cases hT : j ∈ T
    · exact h'.inside j hT
    · rw [h'.outside j hT, h.inside j (hj.resolve_right hT)]
  outside := fun j hj => by
    rw [Set.mem_union, not_or] at hj
    rw [h'.outside j hj.2, h.outside j hj.1]
  length := fun j => by
    rw [h'.length, h.length, or_assoc]
    refine or_congr_right ?_
    simp only [Set.mem_union, or_and_right, exists_or]

theorem writeAt (h : ∀ i, i < bytes.length → byteAt fill bytes i = source (off + i)) :
    Overlay fill source {j | off ≤ j ∧ j < off + bytes.length} file
      (OpenBmc.writeAt fill file off bytes) where
  inside := fun j hj => by
    obtain ⟨i, rfl⟩ := Nat.exists_eq_add_of_le hj.1
    have hi : i < bytes.length := by
      have := hj.2
      omega
    rw [byteAt_writeAt_of_mem hi, h i hi]
  outside := fun j hj => byteAt_writeAt_of_not_mem (by
    simp only [Set.mem_ofPred_eq, not_and_or, Nat.not_le, Nat.not_lt] at hj
    exact hj)
  length := fun j => by
    rw [lt_length_writeAt]
    refine or_congr_right ⟨fun ⟨hne, hj⟩ => ?_, fun ⟨k, ⟨h1, h2⟩, hk⟩ => ⟨?_, by omega⟩⟩
    · have hpos := List.length_pos_iff.2 hne
      by_cases hoff : off ≤ j
      · exact ⟨j, ⟨hoff, hj⟩, le_rfl⟩
      · exact ⟨off, ⟨le_rfl, by omega⟩, by omega⟩
    · rintro rfl
      simp only [List.length_nil] at h2
      omega

end Overlay
end OpenBmc
