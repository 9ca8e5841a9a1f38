import OpenBmc.BitBake.Vercmp

/-!
# The order of versions

`vercmp` is a total preorder that holds two versions equal exactly when their pieces are. Text behind
a version does not make it smaller, unless it begins with `~` or turns the number zero at the end of
the version into zero again and goes on with `~`.
-/

namespace OpenBmc
namespace BitBake
open Py

/-- The decimal digits of Unicode: those below 128 are the ten of ASCII. -/
class UnicodeDecimals extends Decimals where
  isDigit_of_value : ∀ c, isAscii c → (value c).isSome → c.isDigit

/-! ### The pieces of a text -/

theorem length_dropWhile_le {p : Char → Bool} {c : Char} {s : Str} (h : p c) :
    ((c :: s).dropWhile p).length ≤ s.length := by
  rw [List.dropWhile_cons_of_pos h]
  exact (List.dropWhile_sublist p).length_le

section Pieces
variable [Decimals]

theorem isDecimal_of_isDigit {c : Char} (h : c.isDigit) : isDecimal c := by
  rw [isDecimal, Decimals.value_ascii c h]
  rfl

/-- More fuel than characters changes nothing. -/
theorem explodeFrom_eq {s : Str} {fuel : ℕ} (h : s.length ≤ fuel) :
    explodeFrom fuel s = explodeVersion s := by
  suffices ∀ (m : ℕ) (s : Str), s.length ≤ m → ∀ fuel, s.length ≤ fuel →
      explodeFrom fuel s = explodeFrom m s from this s.length s le_rfl fuel h
  intro m
  induction m with
  | zero =>
    intro s hs fuel _
    obtain rfl := List.length_eq_zero_iff.1 (Nat.le_zero.1 hs)
    cases fuel <;> rfl
  | succ m ih =>
    rintro (_ | ⟨c, s⟩) hs fuel hfuel
    · cases fuel <;> rfl
    obtain ⟨fuel, rfl⟩ := Nat.exists_eq_add_one_of_ne_zero (Nat.ne_of_gt (Nat.lt_of_lt_of_le
      (Nat.succ_pos _) hfuel))
    have hs : s.length ≤ m := Nat.le_of_succ_le_succ hs
    have hfuel : s.length ≤ fuel := Nat.le_of_succ_le_succ hfuel
    have hdrop : ∀ p : Char → Bool, p c → explodeFrom fuel ((c :: s).dropWhile p) =
        explodeFrom m ((c :: s).dropWhile p) := by
      intro p hp
      have hle := length_dropWhile_le (s := s) hp
      exact ih _ (hle.trans hs) fuel (hle.trans hfuel)
    rw [explodeFrom, explodeFrom]
    split_ifs with hd hl ht
    · rw [hdrop _ (isDecimal_of_isDigit hd)]
    · rw [hdrop _ hl]
    · rw [ih s hs fuel hfuel]
    · rw [ih s hs fuel hfuel]

@[simp] theorem explodeVersion_nil : explodeVersion [] = [] := rfl

theorem explodeVersion_cons (c : Char) (s : Str) : explodeVersion (c :: s) =
    if c.isDigit then
      .number (decimalVal ((c :: s).takeWhile isDecimal)) ::
        explodeVersion ((c :: s).dropWhile isDecimal)
    else if isAsciiLetter c then
      .letters ((c :: s).takeWhile isAsciiLetter) ::
        explodeVersion ((c :: s).dropWhile isAsciiLetter)
    else if c = '~' then .tilde :: explodeVersion s
    else .other c :: explodeVersion s := by
  rw [explodeVersion, List.length_cons, explodeFrom]
  split_ifs with hd hl
  · rw [explodeFrom_eq (length_dropWhile_le (isDecimal_of_isDigit hd))]
  · rw [explodeFrom_eq (length_dropWhile_le hl)]
  · rfl
  · rfl

theorem explodeVersion_digit {c : Char} (h : c.isDigit) (s : Str) : explodeVersion (c :: s) =
    .number (decimalVal ((c :: s).takeWhile isDecimal)) ::
      explodeVersion ((c :: s).dropWhile isDecimal) := by
  rw [explodeVersion_cons, if_pos h]

theorem explodeVersion_letter {c : Char} (hd : c.isDigit = false) (h : isAsciiLetter c) (s : Str) :
    explodeVersion (c :: s) = .letters ((c :: s).takeWhile isAsciiLetter) ::
      explodeVersion ((c :: s).dropWhile isAsciiLetter) := by
  rw [explodeVersion_cons, if_neg (by simp [hd]), if_pos h]

theorem explodeVersion_single {c : Char} (hd : c.isDigit = false) (h : isAsciiLetter c = false) :
    ∃ p : Piece, ∀ s, explodeVersion (c :: s) = p :: explodeVersion s := by
  refine ⟨if c = '~' then .tilde else .other c, fun s => ?_⟩
  rw [explodeVersion_cons, if_neg (by simp [hd]), if_neg (by simp [h])]
  split_ifs <;> rfl

end Pieces

/-! ### The preorder -/

theorem Piece.key_injective : Function.Injective Piece.key := by
  intro a b h
  cases a <;> cases b <;> simp_all [Piece.key]

theorem piecesKey_injective {a b : List Piece} : piecesKey a = piecesKey b ↔ a = b := by
  rw [piecesKey, piecesKey, List.append_cancel_right_eq]
  exact Piece.key_injective.list_map.eq_iff

section Order
variable [Decimals]

/-- Equal versions have equal pieces. -/
theorem vercmp_zero {a b : Version} : vercmp a b = 0 ↔ decimalVal a.pe = decimalVal b.pe ∧
    explodeVersion a.pv = explodeVersion b.pv ∧ explodeVersion a.pr = explodeVersion b.pr := by
  have hzero : ∀ s t : Str, vercmpPart s t = 0 ↔ explodeVersion s = explodeVersion t := by
    intro s t
    rw [vercmpPart, (comparePieces_spec _ _).2, piecesKey_injective]
  rw [← hzero, ← hzero]
  simp only [vercmp]
  by_cases he : (decimalVal a.pe : Int) - decimalVal b.pe = 0
  · have he' : decimalVal a.pe = decimalVal b.pe := by omega
    rw [if_pos he]
    split_ifs with hv
    · simp [he', hv]
    · simp [hv]
  · have he' : decimalVal a.pe ≠ decimalVal b.pe := by omega
    rw [if_neg he, if_neg he]
    simp [he, he']

theorem vercmp_eq_zero_iff_key {a b : Version} : vercmp a b = 0 ↔ versionKey a = versionKey b := by
  rw [vercmp_zero, versionKey, versionKey, toLex_inj, Prod.mk.injEq, toLex_inj, Prod.mk.injEq,
    piecesKey_injective, piecesKey_injective, Nat.cast_inj]

theorem vercmp_pos {a b : Version} : 0 < vercmp a b ↔ versionKey b < versionKey a := by
  rw [← not_le, le_iff_lt_or_eq, vercmp_neg, vercmp_eq_zero_iff_key, ← le_iff_lt_or_eq, not_le]

theorem vercmp_nonpos {a b : Version} : vercmp a b ≤ 0 ↔ versionKey a ≤ versionKey b := by
  rw [← not_lt, vercmp_pos, not_lt]

theorem vercmp_refl (a : Version) : vercmp a a = 0 := vercmp_eq_zero_iff_key.2 rfl

theorem sign_vercmp (a b : Version) : (vercmp a b).sign = - (vercmp b a).sign := by
  rcases lt_trichotomy (versionKey a) (versionKey b) with h | h | h
  · rw [Int.sign_eq_neg_one_of_neg (vercmp_neg.2 h), Int.sign_eq_one_of_pos (vercmp_pos.2 h)]
  · rw [vercmp_eq_zero_iff_key.2 h, vercmp_eq_zero_iff_key.2 h.symm]
    rfl
  · rw [Int.sign_eq_neg_one_of_neg (vercmp_neg.2 h), Int.sign_eq_one_of_pos (vercmp_pos.2 h)]
    rfl

theorem vercmp_trans {a b c : Version} (hab : vercmp a b ≤ 0) (hbc : vercmp b c ≤ 0) :
    vercmp a c ≤ 0 :=
  vercmp_nonpos.2 ((vercmp_nonpos.1 hab).trans (vercmp_nonpos.1 hbc))

end Order

/-! ### Longer texts -/

theorem isDigit_of_isAsciiLetter {c : Char} (hl : isAsciiLetter c) : c.isDigit = false := by
  simp only [isAsciiLetter, Bool.or_eq_true, Bool.and_eq_true, decide_eq_true_eq] at hl
  by_contra hd
  rw [Bool.not_eq_false, isDigit_iff] at hd
  rcases hl with h | h
  · have hle : 97 ≤ c.toNat := h.1
    omega
  · have hle : 65 ≤ c.toNat := h.1
    omega

/-- The digits that a text ends in. -/
def lastDigits (v : Str) : Str := v.reverse.takeWhile Char.isDigit

/-- The last piece is the number zero. -/
def EndsInZero (v : Str) : Prop := lastDigits v ≠ [] ∧ ∀ c ∈ lastDigits v, c = '0'

/-- Zeros, and then `~`. -/
def ZerosTilde (s : Str) : Prop :=
  s.takeWhile Char.isDigit ≠ [] ∧ (∀ c ∈ s.takeWhile Char.isDigit, c = '0') ∧
    (s.dropWhile Char.isDigit).head? = some '~'

theorem endsInZero_append {u w : Str} (h : ∃ c ∈ w, c.isDigit = false) :
    EndsInZero (u ++ w) ↔ EndsInZero w := by
  have hlast : lastDigits (u ++ w) = lastDigits w := by
    unfold lastDigits
    rw [List.reverse_append, List.takeWhile_append, if_neg]
    intro hlen
    obtain ⟨c, hc, hd⟩ := h
    have hall := List.takeWhile_eq_self_iff.1 ((List.takeWhile_prefix _).eq_of_length hlen)
    have hdig := hall c (List.mem_reverse.2 hc)
    rw [hd] at hdig
    cases hdig
  rw [EndsInZero, EndsInZero, hlast]

theorem endsInZero_behind {u : Str} (h : ∀ c ∈ u.getLast?, c.isDigit = false) (w : Str) :
    EndsInZero (u ++ w) ↔ EndsInZero w := by
  have hstop : u.reverse.takeWhile Char.isDigit = [] := by
    cases hr : u.reverse with
    | nil => rfl
    | cons c cs =>
      have hc := h c (by rw [← List.head?_reverse, hr]; rfl)
      rw [List.takeWhile_cons_of_neg (by simp [hc])]
  have hlast : lastDigits (u ++ w) = lastDigits w := by
    unfold lastDigits
    rw [List.reverse_append, List.takeWhile_append, hstop, List.append_nil]
    split_ifs with hlen
    · exact ((List.takeWhile_prefix _).eq_of_length hlen).symm
    · rfl
  rw [EndsInZero, EndsInZero, hlast]

theorem not_endsInZero {v : Str} (h : ∀ c ∈ v.getLast?, c.isDigit = false) : ¬ EndsInZero v := by
  rw [← List.append_nil v, endsInZero_behind h]
  exact fun h => h.1 rfl

theorem endsInZero_digits {v : Str} (hne : v ≠ []) (h : ∀ c ∈ v, c.isDigit) :
    EndsInZero v ↔ ∀ c ∈ v, c = '0' := by
  have hlast : lastDigits v = v.reverse :=
    List.takeWhile_eq_self_iff.2 fun c hc => h c (List.mem_reverse.1 hc)
  rw [EndsInZero, hlast]
  simp [hne]

theorem takeWhile_append_stop {p : Char → Bool} {c : Char} (hc : p c = false) (w s : Str) :
    (w ++ c :: s).takeWhile p = w.takeWhile p ∧
      (w ++ c :: s).dropWhile p = w.dropWhile p ++ c :: s := by
  induction w with
  | nil => simp [hc]
  | cons d w ih =>
    by_cases hd : p d
    · simp [hd, ih]
    · simp [hd]

theorem lt_append_self {d e : Str} (he : e ≠ []) : d < d ++ e := by
  induction d with
  | nil =>
    obtain ⟨c, cs, rfl⟩ := List.exists_cons_of_ne_nil he
    exact List.nil_lt_cons c cs
  | cons c d ih => exact List.cons_lt_cons_iff.2 (.inr ⟨rfl, ih⟩)

theorem comparePieces_same (p : Piece) (va vb : List Piece) :
    comparePieces (p :: va) (p :: vb) = comparePieces va vb := by
  rw [comparePieces_cons, if_neg (lt_irrefl _), if_neg (lt_irrefl _)]

theorem comparePieces_tilde (l m : List Piece) : comparePieces (l ++ .tilde :: m) l < 0 := by
  induction l with
  | nil =>
    rw [List.nil_append, comparePieces]
    decide
  | cons a l ih =>
    rw [List.cons_append, comparePieces_same]
    exact ih

theorem compare_letters {d e : Str} (l : List Piece) :
    comparePieces [.letters d] (.letters (d ++ e) :: l) =
      if e = [] then comparePieces [] l else -1 := by
  rw [comparePieces_cons]
  by_cases hn : e = []
  · rw [hn, List.append_nil, if_neg (lt_irrefl _), if_neg (lt_irrefl _), if_pos rfl]
  · have hlt : d < d ++ e := lt_append_self hn
    have hkey : (Piece.letters d).key < (Piece.letters (d ++ e)).key := by
      rw [Piece.key_lt]
      exact .inr ⟨lt_irrefl _, decide_eq_true hlt⟩
    rw [if_pos hkey, if_neg hn]

/-- What stops a run still stops it when text follows. -/
theorem span_append {p : Char → Bool} {w r : Str} {x : Char} (h : w.dropWhile p = x :: r) (s : Str) :
    (w ++ s).takeWhile p = w.takeWhile p ∧ (w ++ s).dropWhile p = x :: r ++ s := by
  induction w with
  | nil => cases h
  | cons d w ih =>
    by_cases hd : p d
    · rw [List.dropWhile_cons_of_pos hd] at h
      obtain ⟨h1, h2⟩ := ih h
      rw [List.cons_append, List.takeWhile_cons_of_pos hd, List.dropWhile_cons_of_pos hd,
        List.takeWhile_cons_of_pos hd, h1, h2]
      exact ⟨rfl, rfl⟩
    · rw [List.dropWhile_cons_of_neg hd] at h
      rw [List.cons_append, List.takeWhile_cons_of_neg hd, List.dropWhile_cons_of_neg hd,
        List.takeWhile_cons_of_neg hd, ← List.cons_append, h]
      exact ⟨rfl, rfl⟩

section Numbers
variable [UnicodeDecimals]

theorem isDecimal_ascii {c : Char} (h : isAscii c) : isDecimal c = c.isDigit := by
  rw [Bool.eq_iff_iff]
  exact ⟨UnicodeDecimals.isDigit_of_value c h, isDecimal_of_isDigit⟩

theorem decimalVal_append (v d : Str) :
    decimalVal (v ++ d) = decimalVal v * 10 ^ d.length + decimalVal d := by
  suffices ∀ (d : Str) (n : ℕ), d.foldl (fun n c => 10 * n + (Decimals.value c).getD 0) n =
      n * 10 ^ d.length + decimalVal d by
    rw [decimalVal, List.foldl_append, this]
    rfl
  intro d
  induction d with
  | nil => simp [decimalVal]
  | cons c d ih =>
    intro n
    have hc : decimalVal (c :: d) = (Decimals.value c).getD 0 * 10 ^ d.length + decimalVal d := by
      rw [decimalVal, List.foldl_cons, ih]
      simp
    rw [List.foldl_cons, ih, hc, List.length_cons, pow_succ]
    ring

theorem decimalVal_eq_zero {d : Str} (h : ∀ c ∈ d, c.isDigit) :
    decimalVal d = 0 ↔ ∀ c ∈ d, c = '0' := by
  induction d with
  | nil => simp [decimalVal]
  | cons c d ih =>
    obtain ⟨hc, hd⟩ := List.forall_mem_cons.1 h
    have hval : decimalVal [c] = c.toNat - 48 := by
      simp [decimalVal, Decimals.value_ascii c hc]
    have hzero : decimalVal [c] = 0 ↔ c = '0' := by
      rw [hval]
      have hrange := isDigit_iff.1 hc
      constructor
      · intro h0
        have hto : c.toNat = 48 := by omega
        rw [← Char.ofNat_toNat c, hto]
      · rintro rfl
        rfl
    rw [List.forall_mem_cons, ← ih hd, ← hzero, ← List.singleton_append, decimalVal_append]
    simp

/-! ### A tilde -/

theorem explodeVersion_tilde (v s : Str) :
    explodeVersion (v ++ '~' :: s) = explodeVersion v ++ .tilde :: explodeVersion s := by
  have hdec : isDecimal '~' = false := by rw [isDecimal_ascii (by decide)]; rfl
  have hlet : isAsciiLetter '~' = false := by decide
  induction hn : v.length using Nat.strong_induction_on generalizing v with
  | _ n ih =>
    subst hn
    cases v with
    | nil => rw [List.nil_append, explodeVersion_cons]; rfl
    | cons c v =>
      have hrest : ∀ p : Char → Bool, p c → p '~' = false →
          explodeVersion ((c :: v ++ '~' :: s).dropWhile p) =
            explodeVersion ((c :: v).dropWhile p) ++ .tilde :: explodeVersion s := by
        intro p hc hp
        rw [(takeWhile_append_stop hp _ _).2]
        exact ih _ (Nat.lt_succ_of_le (length_dropWhile_le hc)) _ rfl
      rw [List.cons_append, explodeVersion_cons, explodeVersion_cons c v, ← List.cons_append]
      split_ifs with hd hl ht
      · rw [hrest _ (isDecimal_of_isDigit hd) hdec, (takeWhile_append_stop hdec _ _).1,
          List.cons_append]
      · rw [hrest _ hl hlet, (takeWhile_append_stop hlet _ _).1, List.cons_append]
      · rw [ih _ (Nat.lt_succ_self _) v rfl, List.cons_append]
      · rw [ih _ (Nat.lt_succ_self _) v rfl, List.cons_append]

theorem vercmpPart_tilde (v s : Str) : vercmpPart (v ++ '~' :: s) v < 0 := by
  rw [vercmpPart, explodeVersion_tilde]
  exact comparePieces_tilde _ _

/-! ### Any other text -/

theorem comparePieces_nil {t : Str} (h : ∀ c ∈ t, isAscii c) :
    comparePieces [] (explodeVersion t) ≤ 0 ↔ t.head? ≠ some '~' := by
  cases t with
  | nil => simp [comparePieces]
  | cons c t =>
    rw [explodeVersion_cons]
    split_ifs with hd hl ht
    · have hne : c ≠ '~' := by
        rintro rfl
        cases hd
      rw [comparePieces_nil_cons]
      simp [endKey_lt, Piece.rank, hne]
    · have hne : c ≠ '~' := by
        rintro rfl
        cases hl
      rw [comparePieces_nil_cons]
      simp [endKey_lt, Piece.rank, hne]
    · rw [comparePieces_nil_cons]
      simp [endKey_lt, Piece.rank, ht]
    · rw [comparePieces_nil_cons]
      simp [endKey_lt, Piece.rank, ht]

theorem span_ascii {s : Str} (h : ∀ c ∈ s, isAscii c) :
    s.takeWhile isDecimal = s.takeWhile Char.isDigit ∧
      s.dropWhile isDecimal = s.dropWhile Char.isDigit := by
  induction s with
  | nil => exact ⟨rfl, rfl⟩
  | cons c s ih =>
    obtain ⟨hc, hs⟩ := List.forall_mem_cons.1 h
    obtain ⟨h1, h2⟩ := ih hs
    by_cases hd : c.isDigit
    · simp [isDecimal_ascii hc, hd, h1, h2]
    · simp [isDecimal_ascii hc, hd]

/-- Text that continues a number: it stays the same only if both parts are zeros. -/
theorem compare_number {d e : Str} (hd : ∀ c ∈ d, c.isDigit) (he : ∀ c ∈ e, c.isDigit)
    (l : List Piece) :
    comparePieces [.number (decimalVal d)] (.number (decimalVal (d ++ e)) :: l) =
      if e = [] ∨ (∀ c ∈ d, c = '0') ∧ (∀ c ∈ e, c = '0') then comparePieces [] l else -1 := by
  have hval := decimalVal_append d e
  rw [comparePieces_cons]
  by_cases hn : e = []
  · rw [hn, List.append_nil, if_neg (lt_irrefl _), if_neg (lt_irrefl _), if_pos (.inl rfl)]
  by_cases hz : (∀ c ∈ d, c = '0') ∧ ∀ c ∈ e, c = '0'
  · have hdv : decimalVal d = 0 := (decimalVal_eq_zero hd).2 hz.1
    have hev : decimalVal e = 0 := (decimalVal_eq_zero he).2 hz.2
    rw [hval, hdv, hev, Nat.zero_mul, if_neg (lt_irrefl _), if_neg (lt_irrefl _), if_pos (.inr hz)]
  · have hlt : decimalVal d < decimalVal (d ++ e) := by
      rw [← decimalVal_eq_zero hd, ← decimalVal_eq_zero he] at hz
      have hpow : 10 ≤ 10 ^ e.length := by
        have hlen : 1 ≤ e.length := List.length_pos_iff.2 hn
        calc 10 = 10 ^ 1 := rfl
          _ ≤ 10 ^ e.length := Nat.pow_le_pow_right (by omega) hlen
      have hmul : decimalVal d * 10 ≤ decimalVal d * 10 ^ e.length := Nat.mul_le_mul_left _ hpow
      rw [hval]
      generalize decimalVal d * 10 ^ e.length = m at hmul
      omega
    have hkey : (Piece.number (decimalVal d)).key < (Piece.number (decimalVal (d ++ e))).key := by
      rw [Piece.key_lt]
      exact .inr ⟨lt_irrefl _, decide_eq_true hlt⟩
    rw [if_pos hkey, if_neg (not_or.2 ⟨hn, hz⟩)]

theorem append_digits {v s : Str} (hne : v ≠ []) (hv : ∀ c ∈ v, c.isDigit)
    (hs : ∀ c ∈ s, isAscii c) (htilde : s.head? ≠ some '~') :
    comparePieces [.number (decimalVal v)] (.number (decimalVal (v ++ s.takeWhile Char.isDigit)) ::
      explodeVersion (s.dropWhile Char.isDigit)) ≤ 0 ↔ ¬ (EndsInZero v ∧ ZerosTilde s) := by
  have hdrop : ∀ d ∈ s.dropWhile Char.isDigit, isAscii d := fun d hd =>
    hs d ((List.dropWhile_sublist _).subset hd)
  have hsplit := List.takeWhile_append_dropWhile (p := Char.isDigit) (l := s)
  rw [compare_number hv (fun d hd => List.mem_takeWhile_imp hd), endsInZero_digits hne hv]
  unfold ZerosTilde
  by_cases he : s.takeWhile Char.isDigit = []
  · rw [he, List.nil_append] at hsplit
    rw [if_pos (.inl he), hsplit, comparePieces_nil hs]
    simp [he, htilde]
  by_cases hz : (∀ c ∈ v, c = '0') ∧ ∀ c ∈ s.takeWhile Char.isDigit, c = '0'
  · rw [if_pos (.inr hz), comparePieces_nil hdrop]
    constructor
    · rintro hne ⟨-, -, -, ht⟩
      exact hne ht
    · intro hno ht
      exact hno ⟨hz.1, he, hz.2, ht⟩
  · rw [if_neg (not_or.2 ⟨he, hz⟩)]
    refine iff_of_true (by decide) ?_
    rintro ⟨hzv, -, hzs, -⟩
    exact hz ⟨hzv, hzs⟩

theorem append_letters {v s : Str} (hv : ∀ c ∈ v, isAsciiLetter c)
    (hs : ∀ c ∈ s, isAscii c) (htilde : s.head? ≠ some '~') :
    comparePieces [.letters v] (.letters (v ++ s.takeWhile isAsciiLetter) ::
      explodeVersion (s.dropWhile isAsciiLetter)) ≤ 0 ↔ ¬ (EndsInZero v ∧ ZerosTilde s) := by
  have hends : ¬ EndsInZero v := by
    refine not_endsInZero fun c hc => ?_
    exact isDigit_of_isAsciiLetter (hv c (List.mem_of_getLast? hc))
  have hsplit := List.takeWhile_append_dropWhile (p := isAsciiLetter) (l := s)
  rw [compare_letters]
  by_cases he : s.takeWhile isAsciiLetter = []
  · rw [he, List.nil_append] at hsplit
    rw [if_pos he, hsplit, comparePieces_nil hs]
    simp [hends, htilde]
  · rw [if_neg he]
    simp [hends]

/-- A longer text compares as at least its beginning, but for zeros before a tilde. -/
theorem vercmpPart_append {v s : Str} (hv : ∀ c ∈ v, isAscii c) (hs : ∀ c ∈ s, isAscii c)
    (htilde : s.head? ≠ some '~') :
    vercmpPart v (v ++ s) ≤ 0 ↔ ¬ (EndsInZero v ∧ ZerosTilde s) := by
  unfold vercmpPart
  induction hn : v.length using Nat.strong_induction_on generalizing v with
  | _ n ih =>
    subst hn
    cases v with
    | nil =>
      have hno : ¬ EndsInZero [] := not_endsInZero (by simp)
      rw [List.nil_append, explodeVersion_nil, comparePieces_nil hs]
      simp [hno, htilde]
    | cons c v =>
      have hvs : ∀ d ∈ c :: v ++ s, isAscii d := List.forall_mem_append.2 ⟨hv, hs⟩
      -- The rest of the version behind its first piece, if there is one, is shorter.
      have hrest : ∀ (p : Char → Bool) (x : Char) (r : Str), (c :: v).dropWhile p = x :: r → p c →
          (comparePieces (explodeVersion (x :: r)) (explodeVersion (x :: r ++ s)) ≤ 0 ↔
            ¬ (EndsInZero (x :: r) ∧ ZerosTilde s)) := by
        intro p x r hr hp
        have hlen := length_dropWhile_le (s := v) hp
        rw [hr] at hlen
        refine ih _ (Nat.lt_succ_of_le hlen) (fun d hd => hv d ?_) rfl
        exact (List.dropWhile_sublist p).subset (hr ▸ hd)
      by_cases hd : c.isDigit
      · rw [List.cons_append, explodeVersion_digit hd, explodeVersion_digit hd, ← List.cons_append,
          (span_ascii hv).1, (span_ascii hv).2, (span_ascii hvs).1, (span_ascii hvs).2]
        rcases hr : (c :: v).dropWhile Char.isDigit with _ | ⟨x, r⟩
        · have hall : ∀ d ∈ c :: v, d.isDigit := List.dropWhile_eq_nil_iff.1 hr
          rw [List.takeWhile_eq_self_iff.2 hall, List.takeWhile_append_of_pos hall,
            List.dropWhile_append_of_pos hall, explodeVersion_nil]
          exact append_digits (List.cons_ne_nil _ _) hall hs htilde
        · have hx : x.isDigit = false := by
            simpa [hr] using List.head?_dropWhile_not Char.isDigit (c :: v)
          have hends : EndsInZero (c :: v) ↔ EndsInZero (x :: r) := by
            rw [← List.takeWhile_append_dropWhile (p := Char.isDigit) (l := c :: v), hr]
            exact endsInZero_append ⟨x, List.mem_cons_self, hx⟩
          rw [(span_append hr s).1, (span_append hr s).2, comparePieces_same, hends]
          exact hrest _ x r hr hd
      by_cases hl : isAsciiLetter c
      · rw [Bool.not_eq_true] at hd
        rw [List.cons_append, explodeVersion_letter hd hl, explodeVersion_letter hd hl,
          ← List.cons_append]
        rcases hr : (c :: v).dropWhile isAsciiLetter with _ | ⟨x, r⟩
        · have hall : ∀ d ∈ c :: v, isAsciiLetter d := List.dropWhile_eq_nil_iff.1 hr
          rw [List.takeWhile_eq_self_iff.2 hall, List.takeWhile_append_of_pos hall,
            List.dropWhile_append_of_pos hall, explodeVersion_nil]
          exact append_letters hall hs htilde
        · have hends : EndsInZero (c :: v) ↔ EndsInZero (x :: r) := by
            rw [← List.takeWhile_append_dropWhile (p := isAsciiLetter) (l := c :: v), hr]
            refine endsInZero_behind (fun d hm => ?_) _
            exact isDigit_of_isAsciiLetter (List.mem_takeWhile_imp (List.mem_of_getLast? hm))
          rw [(span_append hr s).1, (span_append hr s).2, comparePieces_same, hends]
          exact hrest _ x r hr hl
      · rw [Bool.not_eq_true] at hd hl
        obtain ⟨p, hp⟩ := explodeVersion_single hd hl
        have hends : EndsInZero (c :: v) ↔ EndsInZero v := endsInZero_behind (u := [c]) (by simp [hd]) v
        rw [List.cons_append, hp, hp, comparePieces_same, hends]
        exact ih _ (Nat.lt_succ_self _) (List.forall_mem_cons.1 hv).2 rfl

/-! ### All of it -/

theorem vercmp_preorder :
    ((∀ a : Version, vercmp a a = 0) ∧
      (∀ a b : Version, (vercmp a b).sign = - (vercmp b a).sign) ∧
      ∀ a b c : Version, vercmp a b ≤ 0 → vercmp b c ≤ 0 → vercmp a c ≤ 0) ∧
    (∀ a b : Version, vercmp a b = 0 ↔ decimalVal a.pe = decimalVal b.pe ∧
      explodeVersion a.pv = explodeVersion b.pv ∧ explodeVersion a.pr = explodeVersion b.pr) ∧
    (∀ (s : Str) (fuel : ℕ), s.length ≤ fuel → explodeFrom fuel s = explodeVersion s) ∧
    ∀ v s : Str, (∀ c ∈ v, isAscii c ∧ c ≠ '\n') → (∀ c ∈ s, isAscii c ∧ c ≠ '\n') →
      vercmpPart (v ++ '~' :: s) v < 0 ∧ (s.head? ≠ some '~' →
        (vercmpPart v (v ++ s) ≤ 0 ↔ ¬ (EndsInZero v ∧ ZerosTilde s))) :=
  ⟨⟨vercmp_refl, sign_vercmp, fun _ _ _ => vercmp_trans⟩, fun _ _ => vercmp_zero,
    fun _ _ => explodeFrom_eq, fun v s hv hs => ⟨vercmpPart_tilde v s,
      vercmpPart_append (fun c hc => (hv c hc).1) fun c hc => (hs c hc).1⟩⟩

end Numbers

/-! ### Zeros before a tilde -/

def asciiValue (c : Char) : Option ℕ := if c.isDigit then some (c.toNat - 48) else none

theorem asciiValue_digit (c : Char) (h : c.isDigit) : asciiValue c = some (c.toNat - 48) := if_pos h

theorem isDigit_of_asciiValue (c : Char) (_ : isAscii c) (h : (asciiValue c).isSome) : c.isDigit := by
  unfold asciiValue at h
  split_ifs at h with hd
  · exact hd
  · cases h

@[reducible] def asciiDigits : UnicodeDecimals := @UnicodeDecimals.mk ⟨asciiValue, asciiValue_digit⟩
  isDigit_of_asciiValue

attribute [local instance] asciiDigits

/-- `00~` is smaller than `0`. -/
theorem zeros_tilde_smaller : "0~".toList.head? ≠ some '~' ∧
    ¬ vercmpPart "0".toList ("0".toList ++ "0~".toList) ≤ 0 := by
  have hone : vercmpPart "0".toList ("0".toList ++ "0~".toList) = 1 := by decide +kernel
  rw [hone]
  decide

end BitBake
end OpenBmc
