import OpenBmc.Py.Str

/-!
# Reading integers

`int(s)` of a string: white space around, a sign, and ASCII digits in groups joined by single
underscores. Everything else is a `ValueError`.
-/

namespace OpenBmc
namespace Py

def parseDigits (s : Str) : Option Nat :=
  if (s.splitOn '_').all fun g => g ≠ [] && g.all Char.isDigit then
    some (digitsVal (s.filter (· ≠ '_')))
  else none

/-- `int(s)`. -/
def parseInt (s : Str) : Option Int :=
  match strip s with
  | '-' :: ds => (parseDigits ds).map fun n => -Int.ofNat n
  | '+' :: ds => (parseDigits ds).map Int.ofNat
  | ds => (parseDigits ds).map Int.ofNat

theorem not_isSpace_of_isDigit {c : Char} (h : c.isDigit) : isSpace c = false := by
  rw [isDigit_iff] at h
  simp only [isSpace, Bool.or_eq_false_iff, Bool.and_eq_false_iff, decide_eq_false_iff_not,
    beq_eq_false_iff_ne]
  omega

theorem strip_of_not_isSpace {s : Str} (h : ∀ c ∈ s, isSpace c = false) : strip s = s := by
  unfold strip stripBy
  have hd : s.dropWhile isSpace = s := by
    cases s with
    | nil => rfl
    | cons c s => rw [List.dropWhile_cons_of_neg]; simp [h c]
  rw [hd, List.rdropWhile_eq_self_iff]
  intro hl
  simp [h _ (List.getLast_mem hl)]

theorem parseDigits_natStr (n : Nat) : parseDigits (natStr n) = some n := by
  have hd : ∀ c ∈ natStr n, c.isDigit := fun c hc => isDigit_of_mem_natStr hc
  have hne : ∀ c ∈ natStr n, c ≠ '_' := by
    rintro c hc rfl
    exact absurd (hd _ hc) (by decide)
  have hs : (natStr n).splitOn '_' = [natStr n] :=
    List.splitOnP_eq_singleton fun c hc => by simpa using hne c hc
  have hf : (natStr n).filter (· ≠ '_') = natStr n := by
    rw [List.filter_eq_self]
    simpa using hne
  rw [parseDigits, hs, hf, digitsVal_natStr, if_pos]
  simpa [natStr_ne_nil] using hd

/-- The characters an integer is written with. -/
def isIntChar (c : Char) : Bool := c.isDigit || isSpace c || c = '_' || c = '-' || c = '+'

theorem isIntChar_of_mem_digits {s : Str} {n : Nat} (h : parseDigits s = some n) {c : Char}
    (hc : c ∈ s) : isIntChar c := by
  unfold parseDigits at h
  split at h
  · rename_i hall
    rw [List.all_eq_true] at hall
    rcases mem_splitOn_of_mem '_' hc with rfl | ⟨g, hg, hcg⟩
    · decide
    · have := hall g hg
      simp only [Bool.and_eq_true, List.all_eq_true] at this
      simp [isIntChar, this.2 c hcg]
  · cases h

theorem isIntChar_of_mem {s : Str} {i : Int} (h : parseInt s = some i) {c : Char} (hc : c ∈ s) :
    isIntChar c := by
  rcases mem_strip_of_mem hc with hsp | hc
  · simp [isIntChar, hsp]
  unfold parseInt at h
  split at h <;> simp only [Option.map_eq_some_iff] at h <;> obtain ⟨n, hn, -⟩ := h
  · rename_i ds hs
    rw [hs] at hc
    rcases List.mem_cons.1 hc with rfl | hc
    exacts [by decide, isIntChar_of_mem_digits hn hc]
  · rename_i ds hs
    rw [hs] at hc
    rcases List.mem_cons.1 hc with rfl | hc
    exacts [by decide, isIntChar_of_mem_digits hn hc]
  · exact isIntChar_of_mem_digits hn hc

@[simp] theorem parseInt_intStr (i : Int) : parseInt (intStr i) = some i := by
  have hdigits : ∀ n, ∀ c ∈ natStr n, isSpace c = false := fun n c hc =>
    not_isSpace_of_isDigit (isDigit_of_mem_natStr hc)
  cases i with
  | ofNat n =>
    have hs : strip (intStr (.ofNat n)) = natStr n := strip_of_not_isSpace (hdigits n)
    rw [parseInt, hs]
    rcases hn : natStr n with _ | ⟨c, ds⟩
    · exact absurd hn (natStr_ne_nil n)
    have hc : c.isDigit := isDigit_of_mem_natStr (n := n) (by rw [hn]; exact List.mem_cons_self)
    split
    · rename_i heq
      obtain ⟨rfl, -⟩ := List.cons.inj heq
      exact absurd hc (by decide)
    · rename_i heq
      obtain ⟨rfl, -⟩ := List.cons.inj heq
      exact absurd hc (by decide)
    · rw [← hn, parseDigits_natStr]
      rfl
  | negSucc n =>
    have hs : strip (intStr (.negSucc n)) = '-' :: natStr (n + 1) := by
      refine strip_of_not_isSpace fun c hc => ?_
      rcases List.mem_cons.1 hc with rfl | hc
      · decide
      · exact hdigits _ c hc
    rw [parseInt, hs]
    simp [parseDigits_natStr, Int.negSucc_eq]

end Py
end OpenBmc
