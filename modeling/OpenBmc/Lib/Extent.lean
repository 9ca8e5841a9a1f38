import Mathlib

/-!
# Files written at offsets

An `Extent` is a run of bytes at an offset. Writing extents one after the other into a file leaves
the ones that no later write touches intact (`intact_writeAll`), and a file that already reaches to
the end of each keeps its length (`length_writeAll`).
-/

namespace OpenBmc

variable {α : Type}

/-- `bytes` written over `file` at `off`, the gap a seek past the end leaves filled with `fill`.
Writing no bytes changes nothing, wherever the seek went. -/
def writeAt (fill : α) (file : List α) (off : Nat) : List α → List α
  | [] => file
  | b :: bs =>
    file.take off ++ List.replicate (off - file.length) fill ++ b :: bs ++
      file.drop (off + (bs.length + 1))

section WriteAt
variable {fill : α} {file bytes : List α} {off i : Nat}

theorem getElem?_writeAt_of_lt (h : i < off) (hi : i < file.length) :
    (writeAt fill file off bytes)[i]? = file[i]? := by
  cases bytes with
  | nil => rfl
  | cons b bs =>
    rw [writeAt, List.append_assoc, List.append_assoc, List.getElem?_append_left (by simp; omega)]
    simp [h]

theorem getElem?_writeAt_of_mem (h : i < bytes.length) :
    (writeAt fill file off bytes)[off + i]? = bytes[i]? := by
  cases bytes with
  | nil => cases h
  | cons b bs =>
    have hpre : (file.take off ++ List.replicate (off - file.length) fill).length = off := by
      simp; omega
    rw [writeAt, List.append_assoc, List.getElem?_append_right (by omega), hpre,
      Nat.add_sub_cancel_left, List.getElem?_append_left h]

theorem getElem?_writeAt_of_ge (hi : off + bytes.length ≤ i) :
    (writeAt fill file off bytes)[i]? = file[i]? := by
  cases bytes with
  | nil => rfl
  | cons b bs =>
    have hpre : (file.take off ++ List.replicate (off - file.length) fill ++ b :: bs).length =
        off + (bs.length + 1) := by simp; omega
    simp only [List.length_cons] at hi
    rw [writeAt, List.getElem?_append_right (by omega), hpre, List.getElem?_drop]
    congr 1
    omega

theorem length_writeAt (h : bytes = [] ∨ off + bytes.length ≤ file.length) :
    (writeAt fill file off bytes).length = file.length := by
  cases bytes with
  | nil => rfl
  | cons b bs =>
    have hle := h.resolve_left (by simp)
    simp only [List.length_cons] at hle
    simp [writeAt]
    omega

end WriteAt

structure Extent (α : Type) where
  start : Nat
  bytes : List α

namespace Extent
variable {fill : α} {file : List α} {e e' : Extent α} {es : List (Extent α)}

def stop (e : Extent α) : Nat := e.start + e.bytes.length

def Covers (e : Extent α) (i : Nat) : Prop := e.start ≤ i ∧ i < e.stop

/-- No byte belongs to both. -/
def Apart (e e' : Extent α) : Prop := ∀ i, ¬ (e.Covers i ∧ e'.Covers i)

def Within (n : Nat) (e : Extent α) : Prop := ∀ i, e.Covers i → i < n

/-- The bytes of `e` stand in `file` at its offset. -/
def IntactIn (file : List α) (e : Extent α) : Prop :=
  ∀ i, i < e.bytes.length → file[e.start + i]? = e.bytes[i]?

def write (fill : α) (file : List α) (e : Extent α) : List α := writeAt fill file e.start e.bytes

def writeAll (fill : α) (file : List α) (es : List (Extent α)) : List α := es.foldl (write fill) file

theorem Apart.symm (h : e.Apart e') : e'.Apart e := fun i hi => h i hi.symm

theorem apart_of_stop_le (h : e.stop ≤ e'.start) : e.Apart e' := by
  rintro i ⟨h1, h2⟩
  have := h1.2
  have := h2.1
  omega

theorem within_of_stop_le {n : Nat} (h : e.stop ≤ n) : e.Within n := by
  intro i hi
  have := hi.2
  omega

theorem within_iff {n : Nat} : e.Within n ↔ e.bytes = [] ∨ e.stop ≤ n := by
  constructor
  · intro h
    rcases hb : e.bytes with _ | ⟨b, bs⟩
    · exact .inl rfl
    · have hlen : e.bytes.length = bs.length + 1 := by rw [hb]; rfl
      have := h (e.stop - 1) ⟨by unfold stop; omega, by unfold stop; omega⟩
      exact .inr (by omega)
  · rintro (h | h)
    · rintro i ⟨h1, h2⟩
      simp only [stop, h, List.length_nil] at h2
      omega
    · exact within_of_stop_le h

theorem intactIn_iff : e.IntactIn file ↔ ∀ i, e.Covers i → file[i]? = e.bytes[i - e.start]? := by
  constructor
  · rintro h i ⟨h1, h2⟩
    obtain ⟨j, rfl⟩ := Nat.exists_eq_add_of_le h1
    rw [Nat.add_sub_cancel_left]
    exact h j (by unfold stop at h2; omega)
  · intro h i hi
    rw [h (e.start + i) ⟨by omega, by unfold stop; omega⟩, Nat.add_sub_cancel_left]

/-- An intact extent lies within the file. -/
theorem IntactIn.within (h : e.IntactIn file) : e.Within file.length := by
  intro i hi
  have hlt : i - e.start < e.bytes.length := by
    have h1 := hi.1
    have h2 := hi.2
    unfold stop at h2
    omega
  by_contra hge
  have := intactIn_iff.1 h i hi
  rw [List.getElem?_eq_none (by omega), List.getElem?_eq_getElem hlt] at this
  cases this

/-- An intact extent is the slice of the file at its offset. -/
theorem IntactIn.slice (h : e.IntactIn file) : (file.drop e.start).take e.bytes.length = e.bytes := by
  refine List.ext_getElem? fun i => ?_
  rw [List.getElem?_take]
  split
  · rename_i hi
    rw [List.getElem?_drop, h i hi]
  · rename_i hi
    rw [List.getElem?_eq_none (by omega)]

theorem intactIn_write : e.IntactIn (e.write fill file) := fun _ hi => getElem?_writeAt_of_mem hi

/-- A write apart from an extent leaves it intact. -/
theorem IntactIn.write (h : e.IntactIn file) (ha : e.Apart e') : e.IntactIn (e'.write fill file) := by
  rw [intactIn_iff] at h ⊢
  intro i hi
  rw [← h i hi]
  have hlt := (intactIn_iff.2 h).within i hi
  have hne : ¬ e'.Covers i := fun hc => ha i ⟨hi, hc⟩
  simp only [Covers, stop, not_and_or, Nat.not_le, Nat.not_lt] at hne
  rcases hne with hne | hne
  · exact getElem?_writeAt_of_lt hne hlt
  · exact getElem?_writeAt_of_ge hne

theorem IntactIn.writeAll (h : e.IntactIn file) (ha : ∀ e' ∈ es, e.Apart e') :
    e.IntactIn (writeAll fill file es) := by
  induction es generalizing file with
  | nil => exact h
  | cons e' es ih => exact ih (h.write (ha e' (by simp))) fun e'' he => ha e'' (by simp [he])

/-- Extents pairwise apart are all intact once they are all written. -/
theorem intact_writeAll (h : es.Pairwise Apart) : ∀ e ∈ es, e.IntactIn (writeAll fill file es) := by
  induction es generalizing file with
  | nil => simp
  | cons e' es ih =>
    obtain ⟨hhead, htail⟩ := List.pairwise_cons.1 h
    intro e he
    rcases List.mem_cons.1 he with rfl | he
    · exact intactIn_write.writeAll hhead
    · exact ih htail e he

theorem length_writeAll (h : ∀ e ∈ es, e.Within file.length) :
    (writeAll fill file es).length = file.length := by
  induction es generalizing file with
  | nil => rfl
  | cons e es ih =>
    have hw : (e.write fill file).length = file.length :=
      length_writeAt (within_iff.1 (h e (by simp)))
    refine (ih fun e' he => ?_).trans hw
    rw [hw]
    exact h e' (by simp [he])

theorem writeAll_append {es' : List (Extent α)} :
    writeAll fill file (es ++ es') = writeAll fill (writeAll fill file es) es' := List.foldl_append

end Extent
end OpenBmc
