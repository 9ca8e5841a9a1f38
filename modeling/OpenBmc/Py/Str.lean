import Mathlib

/-!
# Python strings

A `str` is a list of code points. The Unicode tables that `str.lower` and `repr` consult beyond
ASCII are the class `UnicodeData`; its laws are the facts about them that hold in every version of
Unicode. Everything else (`partition`, `strip`, `isspace`, decimal numbers) is computed here.
-/

namespace OpenBmc

abbrev Str := List Char

instance : Coe String Str := ⟨String.toList⟩

instance : LawfulBEq Str := inferInstanceAs (LawfulBEq (List Char))

namespace Py

def isAscii (c : Char) : Bool := c.toNat < 128

/-- Characters whose NFKC normalisation contains one of `/ ? # @ :`. -/
def isNfkcDelim (c : Char) : Bool :=
  [0x2047, 0x2048, 0x2049, 0x2100, 0x2101, 0x2105, 0x2106, 0x2A74, 0xFE13, 0xFE16, 0xFE55, 0xFE56,
    0xFE5F, 0xFE6B, 0xFF03, 0xFF0F, 0xFF1A, 0xFF1F, 0xFF20].contains c.toNat

/-- `str.isspace` of one character. -/
def isSpace (c : Char) : Bool :=
  let n := c.toNat
  (9 ≤ n && n ≤ 13) || (28 ≤ n && n ≤ 32) || n == 0x85 || n == 0xA0 || n == 0x1680 ||
    (0x2000 ≤ n && n ≤ 0x200A) || n == 0x2028 || n == 0x2029 || n == 0x202F || n == 0x205F ||
    n == 0x3000

/-- The Unicode data behind `str.lower` and `str.isprintable`. The lower-case form of a character
may depend on its neighbours (a final sigma), so `lowerAt` is told what stands before and after. -/
class UnicodeData where
  lowerAt : Str → Char → Str → Str
  isPrintable : Char → Bool
  lowerAt_ascii : ∀ b c a, isAscii c → lowerAt b c a = [c.toLower]
  lowerAt_ne_nil : ∀ b c a, lowerAt b c a ≠ []
  lowerAt_fixed : ∀ b c a, ∀ d ∈ lowerAt b c a, ∀ b' a', lowerAt b' d a' = [d]
  lowerAt_letter : ∀ b c a, ∀ d ∈ lowerAt b c a, isAscii d → d = c ∨ d.isLower
  lowerAt_delim : ∀ b c a, ∀ d ∈ lowerAt b c a, isNfkcDelim d → d = c

theorem isLower_iff {c : Char} : c.isLower ↔ 97 ≤ c.toNat ∧ c.toNat ≤ 122 := by
  simp [Char.isLower, UInt32.le_iff_toNat_le]

theorem isUpper_iff {c : Char} : c.isUpper ↔ 65 ≤ c.toNat ∧ c.toNat ≤ 90 := by
  simp [Char.isUpper, UInt32.le_iff_toNat_le]

theorem isDigit_iff {c : Char} : c.isDigit ↔ 48 ≤ c.toNat ∧ c.toNat ≤ 57 := by
  simp [Char.isDigit, UInt32.le_iff_toNat_le]

theorem toLower_of_not_isUpper {c : Char} (h : ¬ c.isUpper) : c.toLower = c := by
  simp only [Char.isUpper, decide_eq_true_eq] at h
  rw [Char.toLower, dif_neg h]

theorem toNat_toLower {c : Char} (h : c.isUpper) : c.toLower.toNat = c.toNat + 32 := by
  have hb := isUpper_iff.1 h
  simp only [Char.isUpper, decide_eq_true_eq] at h
  rw [Char.toLower, dif_pos h]
  show (c.val + 32).toNat = c.val.toNat + 32
  have hc : c.val.toNat = c.toNat := rfl
  rw [UInt32.toNat_add]
  simp only [UInt32.reduceToNat]
  omega

theorem isLower_toLower {c : Char} (h : c.isUpper) : c.toLower.isLower := by
  have hb := isUpper_iff.1 h
  have hv := toNat_toLower h
  exact isLower_iff.2 (by omega)

theorem toLower_toLower (c : Char) : c.toLower.toLower = c.toLower := by
  by_cases h : c.isUpper
  · refine toLower_of_not_isUpper fun hu => ?_
    have h₁ := isLower_iff.1 (isLower_toLower h)
    have h₂ := isUpper_iff.1 hu
    omega
  · rw [toLower_of_not_isUpper h, toLower_of_not_isUpper h]

theorem isAscii_of_isLower {c : Char} (h : c.isLower) : isAscii c := by
  have := isLower_iff.1 h
  simp only [isAscii, decide_eq_true_eq]; omega

theorem not_isNfkcDelim_of_isAscii {c : Char} (h : isAscii c) : isNfkcDelim c = false := by
  simp only [isAscii, decide_eq_true_eq] at h
  simp only [isNfkcDelim, List.contains_eq_mem, decide_eq_false_iff_not, List.mem_cons,
    List.not_mem_nil, or_false]
  omega

/-- Unicode data that knows ASCII only: every other character is its own lower-case form. -/
@[reducible] def asciiData : UnicodeData where
  lowerAt _ c _ := [c.toLower]
  isPrintable c := 32 ≤ c.toNat && c.toNat < 127
  lowerAt_ascii _ _ _ _ := rfl
  lowerAt_ne_nil _ _ _ := by simp
  lowerAt_fixed _ c _ d hd _ _ := by rw [List.mem_singleton.1 hd, toLower_toLower]
  lowerAt_letter _ c _ d hd _ := by
    rw [List.mem_singleton.1 hd]
    by_cases h : c.isUpper
    · exact .inr (isLower_toLower h)
    · exact .inl (toLower_of_not_isUpper h)
  lowerAt_delim _ c _ d hd h := by
    rw [List.mem_singleton.1 hd] at h ⊢
    by_cases hc : c.isUpper
    · rw [not_isNfkcDelim_of_isAscii (isAscii_of_isLower (isLower_toLower hc))] at h
      cases h
    · exact toLower_of_not_isUpper hc

/-! ### `str.lower` -/

section Lower
variable [UnicodeData]

def lowerFrom (before : Str) : Str → Str
  | [] => []
  | c :: cs => UnicodeData.lowerAt before c cs ++ lowerFrom (before ++ [c]) cs

/-- `s.lower()`. -/
def lower (s : Str) : Str := lowerFrom [] s

/-- Every character of `s` is its own lower-case form. -/
def Lowered (s : Str) : Prop := ∀ d ∈ s, ∀ b a, UnicodeData.lowerAt b d a = [d]

theorem mem_lowerFrom {d : Char} : ∀ {s : Str} {b : Str}, d ∈ lowerFrom b s →
    ∃ c ∈ s, ∃ b' a', d ∈ UnicodeData.lowerAt b' c a'
  | [], _, h => by simp [lowerFrom] at h
  | c :: cs, b, h => by
    rcases List.mem_append.1 h with h | h
    · exact ⟨c, by simp, b, cs, h⟩
    · obtain ⟨c', hc', h⟩ := mem_lowerFrom h
      exact ⟨c', by simp [hc'], h⟩

theorem lowered_lower (s : Str) : Lowered (lower s) := fun d hd b a => by
  obtain ⟨c, -, b', a', h⟩ := mem_lowerFrom hd
  exact UnicodeData.lowerAt_fixed b' c a' d h b a

theorem Lowered.subset {s t : Str} (h : Lowered s) (hts : ∀ d ∈ t, d ∈ s) : Lowered t :=
  fun d hd => h d (hts d hd)

theorem lowerFrom_of_lowered : ∀ {s : Str} {b : Str}, Lowered s → lowerFrom b s = s
  | [], _, _ => rfl
  | c :: cs, b, h => by
    rw [lowerFrom, h c (by simp), lowerFrom_of_lowered (h.subset fun d hd => by simp [hd])]
    rfl

theorem lower_of_lowered {s : Str} (h : Lowered s) : lower s = s := lowerFrom_of_lowered h

theorem lower_lower (s : Str) : lower (lower s) = lower s := lower_of_lowered (lowered_lower s)

theorem lowerFrom_ascii : ∀ {s : Str} {b : Str}, (∀ c ∈ s, isAscii c) →
    lowerFrom b s = s.map Char.toLower
  | [], _, _ => rfl
  | c :: cs, b, h => by
    rw [lowerFrom, UnicodeData.lowerAt_ascii _ _ _ (h c (by simp)),
      lowerFrom_ascii fun d hd => h d (by simp [hd])]
    rfl

theorem lower_ascii {s : Str} (h : ∀ c ∈ s, isAscii c) : lower s = s.map Char.toLower :=
  lowerFrom_ascii h

theorem lower_eq_nil {s : Str} : lower s = [] ↔ s = [] := by
  cases s with
  | nil => simp [lower, lowerFrom]
  | cons c cs => simp [lower, lowerFrom, UnicodeData.lowerAt_ne_nil]

/-- Lower-casing brings in no ASCII character that is not a letter. -/
theorem mem_of_mem_lower {s : Str} {d : Char} (h : d ∈ lower s) (ha : isAscii d)
    (hl : d.isLower = false) : d ∈ s := by
  obtain ⟨c, hc, b, a, hd⟩ := mem_lowerFrom h
  rcases UnicodeData.lowerAt_letter b c a d hd ha with rfl | h
  · exact hc
  · rw [hl] at h; cases h

theorem mem_of_mem_lower_delim {s : Str} {d : Char} (h : d ∈ lower s) (hd : isNfkcDelim d) :
    d ∈ s := by
  obtain ⟨c, hc, b, a, hm⟩ := mem_lowerFrom h
  rw [UnicodeData.lowerAt_delim b c a d hm hd]; exact hc

end Lower

/-! ### Splitting and stripping -/

/-- `s.partition(sep)` for a separator of one character: the text before its first occurrence, and
the text after it if there is one. -/
def partition (sep : Char) : Str → Str × Option Str
  | [] => ([], none)
  | c :: cs => if c = sep then ([], some cs) else (c :: (partition sep cs).1, (partition sep cs).2)

theorem partition_of_not_mem {sep : Char} : ∀ {s : Str}, sep ∉ s → partition sep s = (s, none)
  | [], _ => rfl
  | c :: cs, h => by
    simp only [List.mem_cons, not_or] at h
    rw [partition, if_neg (Ne.symm h.1), partition_of_not_mem h.2]

theorem partition_append {sep : Char} {a : Str} : ∀ {b : Str}, sep ∉ b →
    partition sep (b ++ sep :: a) = (b, some a)
  | [], _ => by simp [partition]
  | c :: cs, h => by
    simp only [List.mem_cons, not_or] at h
    rw [List.cons_append, partition, if_neg (Ne.symm h.1), partition_append h.2]

theorem partition_append_left {sep : Char} {a : Str} (h : sep ∉ a) (b : Str) :
    partition sep (a ++ b) = (a ++ (partition sep b).1, (partition sep b).2) := by
  induction a with
  | nil => rfl
  | cons c cs ih =>
    simp only [List.mem_cons, not_or] at h
    rw [List.cons_append, partition, if_neg (Ne.symm h.1), ih h.2]
    rfl

theorem not_mem_partition_fst {sep : Char} : ∀ (s : Str), sep ∉ (partition sep s).1
  | [] => by simp [partition]
  | c :: cs => by
    rw [partition]
    split
    · simp
    · simp only [List.mem_cons, not_or]
      exact ⟨Ne.symm ‹_›, not_mem_partition_fst cs⟩

theorem partition_some {sep : Char} : ∀ {s b a : Str}, partition sep s = (b, some a) →
    s = b ++ sep :: a
  | [], _, _, h => by simp [partition] at h
  | c :: cs, b, a, h => by
    rw [partition] at h
    split at h
    · rename_i hc
      obtain ⟨rfl, ha⟩ := Prod.mk.inj h
      simp [hc, Option.some.inj ha]
    · obtain ⟨rfl, ha⟩ := Prod.mk.inj h
      rw [List.cons_append, ← partition_some (Prod.ext rfl ha)]

theorem partition_none {sep : Char} {s b : Str} (h : partition sep s = (b, none)) :
    b = s ∧ sep ∉ s := by
  have hs : sep ∉ s := fun hm => by
    obtain ⟨b', a, rfl, hb⟩ := List.eq_append_cons_of_mem hm
    rw [partition_append hb] at h
    simp at h
  rw [partition_of_not_mem hs] at h
  exact ⟨(Prod.mk.inj h).1.symm, hs⟩

theorem mem_of_mem_partition_fst {sep c : Char} {s : Str} (h : c ∈ (partition sep s).1) :
    c ∈ s := by
  rcases hp : partition sep s with ⟨b, _ | a⟩
  · rw [hp] at h; rw [← (partition_none hp).1]; exact h
  · rw [hp] at h; rw [partition_some hp]; simp [show c ∈ b from h]

theorem mem_of_partition_some {sep c : Char} {s b a : Str} (hp : partition sep s = (b, some a))
    (h : c ∈ a) : c ∈ s := by rw [partition_some hp]; simp [h]

/-- `s.rpartition(sep)`: the text before the last occurrence if there is one, and the text after
it. -/
def rpartition (sep : Char) (s : Str) : Option Str × Str :=
  ((partition sep s.reverse).2.map List.reverse, (partition sep s.reverse).1.reverse)

theorem not_mem_rpartition_snd {sep : Char} (s : Str) : sep ∉ (rpartition sep s).2 := by
  simpa [rpartition] using not_mem_partition_fst s.reverse

theorem mem_of_mem_rpartition_snd {sep c : Char} {s : Str} (h : c ∈ (rpartition sep s).2) :
    c ∈ s := by
  simpa using mem_of_mem_partition_fst (s := s.reverse) (by simpa [rpartition] using h)

theorem rpartition_of_not_mem {sep : Char} {s : Str} (h : sep ∉ s) :
    rpartition sep s = (none, s) := by
  simp [rpartition, partition_of_not_mem (show sep ∉ s.reverse by simpa using h)]

theorem rpartition_some {sep : Char} {s b a : Str} (h : rpartition sep s = (some b, a)) :
    s = b ++ sep :: a := by
  rcases hp : partition sep s.reverse with ⟨x, _ | y⟩
  · simp [rpartition, hp] at h
  · simp only [rpartition, hp, Option.map_some, Prod.mk.injEq, Option.some.injEq] at h
    obtain ⟨rfl, rfl⟩ := h
    have := congrArg List.reverse (partition_some hp)
    simpa using this

theorem rpartition_none {sep : Char} {s a : Str} (h : rpartition sep s = (none, a)) :
    a = s ∧ sep ∉ s := by
  rcases hp : partition sep s.reverse with ⟨x, _ | y⟩
  · obtain ⟨rfl, hs⟩ := partition_none hp
    simp only [rpartition, hp, Prod.mk.injEq] at h
    exact ⟨by simpa using h.2.symm, by simpa using hs⟩
  · simp [rpartition, hp] at h

theorem rpartition_append {sep : Char} {b a : Str} (h : sep ∉ a) :
    rpartition sep (b ++ sep :: a) = (some b, a) := by
  have : (b ++ sep :: a).reverse = a.reverse ++ sep :: b.reverse := by simp
  rw [rpartition, this, partition_append (by simpa using h)]
  simp

/-- The two sides of `s.rpartition(sep)` joined by `sep` again. -/
theorem rpartition_join {sep : Char} (s : Str) :
    s = ((rpartition sep s).1.map (· ++ [sep])).getD [] ++ (rpartition sep s).2 := by
  rcases h : rpartition sep s with ⟨_ | b, a⟩
  · simp [(rpartition_none h).1]
  · simp [rpartition_some h]

theorem rpartition_rejoin {sep : Char} (b : Option Str) {a : Str} (h : sep ∉ a) :
    rpartition sep ((b.map (· ++ [sep])).getD [] ++ a) = (b, a) := by
  cases b with
  | none => exact rpartition_of_not_mem h
  | some b => simpa using rpartition_append (b := b) h

/-- `s.strip(chars)` for the characters satisfying `p`. -/
def stripBy (p : Char → Bool) (s : Str) : Str := (s.dropWhile p).rdropWhile p

theorem mem_of_mem_stripBy {p : Char → Bool} {s : Str} {c : Char} (h : c ∈ stripBy p s) : c ∈ s :=
  (List.dropWhile_sublist p).subset ((List.rdropWhile_prefix p _).subset h)

theorem getLast?_rdropWhile (p : Char → Bool) (s : Str) : ∀ c ∈ (s.rdropWhile p).getLast?,
    p c = false := fun c hc => by
  have hne : s.rdropWhile p ≠ [] := by rintro h; simp [h] at hc
  have := List.rdropWhile_last_not p s hne
  rw [List.getLast?_eq_some_getLast hne, Option.mem_def, Option.some.injEq] at hc
  simpa [hc] using this

theorem head?_stripBy (p : Char → Bool) (s : Str) : ∀ c ∈ (stripBy p s).head?, p c = false :=
  fun c hc => by
    obtain ⟨t, ht⟩ := List.rdropWhile_prefix p (s.dropWhile p)
    have hhead : (s.dropWhile p).head? = some c := by
      rw [← ht, List.head?_append]
      simp only [stripBy, Option.mem_def] at hc
      simp [hc]
    have := List.head?_dropWhile_not p s
    rw [hhead] at this
    simpa using this

theorem stripBy_of_ends {p : Char → Bool} {s : Str} (hf : ∀ c ∈ s.head?, p c = false)
    (hl : ∀ c ∈ s.getLast?, p c = false) : stripBy p s = s := by
  have hd : s.dropWhile p = s := by
    cases s with
    | nil => rfl
    | cons c cs => rw [List.dropWhile_cons_of_neg (by simp [hf c rfl])]
  rw [stripBy, hd]
  refine List.rdropWhile_eq_self_iff.2 fun hne => ?_
  simp [hl _ (List.getLast?_eq_some_getLast hne)]

theorem getLast?_stripBy (p : Char → Bool) (s : Str) : ∀ c ∈ (stripBy p s).getLast?, p c = false :=
  getLast?_rdropWhile p _

/-- Two stripped texts, with anything between them. -/
theorem stripBy_append {p : Char → Bool} {a m b : Str} (ha : stripBy p a = a) (hb : stripBy p b = b)
    (hane : a ≠ []) (hbne : b ≠ []) : stripBy p (a ++ m ++ b) = a ++ m ++ b := by
  refine stripBy_of_ends ?_ ?_
  · intro c hc
    rw [List.append_assoc, List.head?_append_of_ne_nil _ hane] at hc
    exact head?_stripBy p a c (ha.symm ▸ hc)
  · intro c hc
    rw [List.getLast?_append_of_ne_nil _ hbne] at hc
    exact getLast?_stripBy p b c (hb.symm ▸ hc)

/-- `s.rstrip()`. -/
def rstrip (s : Str) : Str := s.rdropWhile isSpace

/-- `s.strip()`. -/
def strip (s : Str) : Str := stripBy isSpace s

theorem mem_strip_of_mem {s : Str} {c : Char} (h : c ∈ s) : isSpace c ∨ c ∈ strip s := by
  by_cases hsp : isSpace c
  · exact .inl hsp
  have hd : ∀ l : Str, c ∈ l → c ∈ l.dropWhile isSpace := by
    intro l hl
    rw [← List.takeWhile_append_dropWhile (p := isSpace) (l := l), List.mem_append] at hl
    exact hl.resolve_left fun ht => hsp (List.mem_takeWhile_imp ht)
  refine .inr ?_
  rw [strip, stripBy, List.rdropWhile, List.mem_reverse]
  exact hd _ (List.mem_reverse.2 (hd s h))

/-- `s.split()`. -/
def words (s : Str) : List Str := (s.splitOnP isSpace).filter (· ≠ [])

/-- `sub in s`. -/
def contains (sub s : Str) : Bool := decide (sub <:+: s)

/-- The part of `s.split(sep)` after `acc`, with the rest of a separator to skip. -/
def splitSubFrom (sep : Str) : Nat → Str → Str → List Str
  | _, acc, [] => [acc]
  | n + 1, acc, _ :: s => splitSubFrom sep n acc s
  | 0, acc, c :: s =>
    if sep.isPrefixOf (c :: s) then acc :: splitSubFrom sep (sep.length - 1) [] s
    else splitSubFrom sep 0 (acc ++ [c]) s

/-- `s.split(sep)` for a separator of more than one character. -/
def splitSub (sep s : Str) : List Str := splitSubFrom sep 0 [] s

/-- A piece of a split text has no separator, and stands in the text. -/
theorem mem_splitOnP {p : Char → Bool} {s f : Str} (h : f ∈ s.splitOnP p) :
    (∀ c ∈ f, ¬ p c) ∧ f <:+: s := by
  induction hn : s.length using Nat.strong_induction_on generalizing s with
  | _ n ih =>
    have hsplit := List.takeWhile_append_dropWhile (p := fun c => !p c) (l := s)
    have hhead : ∀ c ∈ s.takeWhile (fun c => !p c), p c = false := fun c hc => by
      simpa using List.mem_takeWhile_imp hc
    cases hd : s.dropWhile (fun c => !p c) with
    | nil =>
      rw [hd, List.append_nil] at hsplit
      rw [hsplit] at hhead
      rw [List.splitOnP_eq_singleton hhead, List.mem_singleton] at h
      rw [h]
      exact ⟨fun c hc => by simp [hhead c hc], List.infix_rfl⟩
    | cons c a =>
      have hc : p c := by simpa [hd] using List.head?_dropWhile_not (fun c => !p c) s
      rw [hd] at hsplit
      rw [← hsplit, List.splitOnP_append_cons_of_forall_mem hhead _ hc] at h
      rw [← hsplit]
      rcases List.mem_cons.1 h with rfl | h
      · exact ⟨fun d hd => by simp [hhead d hd], (List.prefix_append _ _).isInfix⟩
      · have hlen : a.length < n := by
          rw [← hn, ← hsplit, List.length_append, List.length_cons]
          omega
        obtain ⟨hno, hin⟩ := ih a.length hlen h rfl
        exact ⟨hno, hin.trans ((List.suffix_cons c a).trans (List.suffix_append _ _)).isInfix⟩

theorem not_mem_of_mem_splitOn {sep : Char} {s f : Str} (h : f ∈ s.splitOn sep) : sep ∉ f := by
  rw [List.splitOn_eq_splitOnP] at h
  exact fun hm => (mem_splitOnP h).1 sep hm (beq_self_eq_true sep)

theorem mem_splitOn_of_mem (sep : Char) {s : Str} {c : Char} (h : c ∈ s) :
    c = sep ∨ ∃ f ∈ s.splitOn sep, c ∈ f := by
  induction s with
  | nil => cases h
  | cons d s ih =>
    rw [List.splitOn_cons_eq_if_modifyHead]
    split
    · rename_i hd
      rcases List.mem_cons.1 h with rfl | h
      · exact .inl (by simpa using hd)
      · rcases ih h with h | ⟨f, hf, hc⟩
        exacts [.inl h, .inr ⟨f, List.mem_cons_of_mem _ hf, hc⟩]
    · rcases hs : s.splitOn sep with _ | ⟨g, gs⟩
      · exact absurd hs (List.splitOn_ne_nil _ _)
      rw [List.modifyHead_cons]
      rcases List.mem_cons.1 h with rfl | h
      · exact .inr ⟨_, List.mem_cons_self, List.mem_cons_self⟩
      rcases ih h with h | ⟨f, hf, hc⟩
      · exact .inl h
      rw [hs] at hf
      rcases List.mem_cons.1 hf with rfl | hf
      exacts [.inr ⟨_, List.mem_cons_self, List.mem_cons_of_mem _ hc⟩,
        .inr ⟨f, List.mem_cons_of_mem _ hf, hc⟩]

theorem intercalate_cons (sep : Char) (f : Str) (ts : List Str) :
    [sep].intercalate (f :: ts) = f ++ ts.flatMap (sep :: ·) := by
  induction ts generalizing f with
  | nil => simp
  | cons t ts ih => rw [List.intercalate_cons_cons, ih]; simp

/-! ### Decimal numbers -/

/-- `str(n)` of a natural number. -/
def natStr (n : Nat) : Str := Nat.toDigits 10 n

/-- `str(i)` of an integer. -/
def intStr : Int → Str
  | .ofNat n => natStr n
  | .negSucc n => '-' :: natStr (n + 1)

/-- `int(s)` for a nonempty string of ASCII digits. -/
def digitsVal (s : Str) : Nat := Nat.ofDigitChars 10 s 0

theorem natStr_ne_nil (n : Nat) : natStr n ≠ [] := Nat.toDigits_ne_nil

theorem isDigit_of_mem_natStr {n : Nat} {c : Char} (h : c ∈ natStr n) : c.isDigit :=
  Nat.isDigit_of_mem_toDigits (by decide) (by decide) h

@[simp] theorem digitsVal_natStr (n : Nat) : digitsVal (natStr n) = n := Nat.ofDigitChars_ten_toDigits

/-! ### Text files -/

/-- A text file as `read` returns it. -/
def universalNewlines : Str → Str
  | [] => []
  | c :: s =>
    if c = '\r' then
      match s with
      | [] => ['\n']
      | d :: t => if d = '\n' then '\n' :: universalNewlines t else '\n' :: universalNewlines (d :: t)
    else c :: universalNewlines s

theorem universalNewlines_of_not_mem {text : Str} (h : '\r' ∉ text) :
    universalNewlines text = text := by
  induction text with
  | nil => rfl
  | cons c text ih =>
    rw [List.mem_cons, not_or] at h
    unfold universalNewlines
    rw [if_neg (Ne.symm h.1), ih h.2]

end Py
end OpenBmc
