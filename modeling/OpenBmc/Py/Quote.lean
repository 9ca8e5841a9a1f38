import OpenBmc.Py.Url

/-!
# Percent-encoding can be undone

`unquote (quote s) = s`: every byte of the UTF-8 form is a character of its own or two hexadecimal
digits, and the form of a character decodes to it whatever follows.
-/

namespace OpenBmc
namespace Py

/-! ### UTF-8 -/

theorem utf8Replace_one {a : Nat} (h : a < 0x80) (rest : List Nat) :
    utf8Replace (a :: rest) = Char.ofNat a :: utf8Replace rest := by
  match rest with
  | [] => simp [utf8Replace, h]
  | [b] => simp [utf8Replace, h]
  | [b, c] => simp [utf8Replace, h]
  | b :: c :: d :: rest => simp [utf8Replace, h]

theorem utf8Replace_two {a b : Nat} (ha : 0xC2 ≤ a ∧ a ≤ 0xDF) (hb : isCont b) (rest : List Nat) :
    utf8Replace (a :: b :: rest) =
      Char.ofNat ((a - 0xC0) * 64 + (b - 0x80)) :: utf8Replace rest := by
  have hna : ¬ a < 0x80 := by omega
  match rest with
  | [] => simp [utf8Replace, hna, ha, hb]
  | [c] => simp [utf8Replace, hna, ha, hb]
  | c :: d :: rest => simp [utf8Replace, hna, ha, hb]

theorem utf8Replace_three {a b c : Nat} (ha : 0xE0 ≤ a ∧ a ≤ 0xEF) (hb : isSecond a b)
    (hc : isCont c) (rest : List Nat) : utf8Replace (a :: b :: c :: rest) =
      Char.ofNat ((a - 0xE0) * 4096 + (b - 0x80) * 64 + (c - 0x80)) :: utf8Replace rest := by
  have hna : ¬ a < 0x80 := by omega
  have hna2 : ¬ a ≤ 0xDF := by omega
  have hna3 : a ≤ 0xF4 := by omega
  match rest with
  | [] => simp [utf8Replace, hna, hna2, hna3, ha, hb, hc]
  | d :: rest => simp [utf8Replace, hna, hna2, hna3, ha, hb, hc]

theorem utf8Replace_four {a b c d : Nat} (ha : 0xF0 ≤ a ∧ a ≤ 0xF4) (hb : isSecond a b)
    (hc : isCont c) (hd : isCont d) (rest : List Nat) : utf8Replace (a :: b :: c :: d :: rest) =
      Char.ofNat ((a - 0xF0) * 262144 + (b - 0x80) * 4096 + (c - 0x80) * 64 + (d - 0x80)) ::
        utf8Replace rest := by
  have hna : ¬ a < 0x80 := by omega
  have hna2 : ¬ a ≤ 0xDF := by omega
  have hna3 : ¬ a ≤ 0xEF := by omega
  have hna4 : 0xE0 ≤ a := by omega
  simp [utf8Replace, hna, hna2, hna3, hna4, ha, hb, hc, hd]

theorem toNat_ofNat_byte {n : Nat} (h : n < 256) : (UInt8.ofNat n).toNat = n := by
  rw [UInt8.toNat_ofNat', Nat.mod_eq_of_lt h]

/-- A surrogate is no character: what follows the lead byte `ED` stays below `A0`. -/
theorem toNat_range (c : Char) : c.toNat < 0xD800 ∨ (0xDFFF < c.toNat ∧ c.toNat < 0x110000) :=
  c.valid

theorem utf8Replace_char (c : Char) (rest : List Nat) :
    utf8Replace ((String.utf8EncodeChar c).map UInt8.toNat ++ rest) = c :: utf8Replace rest := by
  have hv := toNat_range c
  have hc : Char.ofNat c.toNat = c := Char.ofNat_toNat c
  have hcont : ∀ m : Nat, isCont (m % 64 + 128) := by
    intro m
    simp only [isCont, Bool.and_eq_true, decide_eq_true_eq]
    omega
  have hval : c.val.toNat = c.toNat := rfl
  unfold String.utf8EncodeChar
  rw [hval]
  generalize c.toNat = n at hv hc
  simp only
  split_ifs with h₁ h₂ h₃
  · rw [List.map_singleton, toNat_ofNat_byte (by omega), List.singleton_append,
      utf8Replace_one (by omega), hc]
  · have hn : (n / 64 % 32 + 192 - 192) * 64 + (n % 64 + 128 - 128) = n := by omega
    simp only [List.map_cons, List.map_nil, List.cons_append, List.nil_append]
    rw [toNat_ofNat_byte (by omega), toNat_ofNat_byte (by omega), utf8Replace_two (by omega)
      (hcont _), hn, hc]
  · have hn : (n / 4096 % 16 + 224 - 224) * 4096 + (n / 64 % 64 + 128 - 128) * 64 +
        (n % 64 + 128 - 128) = n := by omega
    have hsecond : isSecond (n / 4096 % 16 + 224) (n / 64 % 64 + 128) := by
      unfold isSecond isCont
      split_ifs <;> simp only [Bool.and_eq_true, decide_eq_true_eq] <;> omega
    simp only [List.map_cons, List.map_nil, List.cons_append, List.nil_append]
    rw [toNat_ofNat_byte (by omega), toNat_ofNat_byte (by omega), toNat_ofNat_byte (by omega),
      utf8Replace_three (by omega) hsecond (hcont _), hn, hc]
  · have hn : (n / 262144 % 8 + 240 - 240) * 262144 + (n / 4096 % 64 + 128 - 128) * 4096 +
        (n / 64 % 64 + 128 - 128) * 64 + (n % 64 + 128 - 128) = n := by omega
    have hsecond : isSecond (n / 262144 % 8 + 240) (n / 4096 % 64 + 128) := by
      unfold isSecond isCont
      split_ifs <;> simp only [Bool.and_eq_true, decide_eq_true_eq] <;> omega
    simp only [List.map_cons, List.map_nil, List.cons_append, List.nil_append]
    rw [toNat_ofNat_byte (by omega), toNat_ofNat_byte (by omega), toNat_ofNat_byte (by omega),
      toNat_ofNat_byte (by omega), utf8Replace_four (by omega) hsecond (hcont _) (hcont _), hn, hc]

theorem utf8Replace_utf8Encode (s : Str) : utf8Replace (utf8Encode s) = s := by
  induction s with
  | nil => rfl
  | cons c s ih => rw [utf8Encode, List.flatMap_cons, utf8Replace_char, ← utf8Encode, ih]

theorem lt_of_mem_utf8Encode {s : Str} {b : Nat} (h : b ∈ utf8Encode s) : b < 256 := by
  obtain ⟨c, -, hb⟩ := List.mem_flatMap.1 h
  obtain ⟨x, -, rfl⟩ := List.mem_map.1 hb
  exact x.toNat_lt

/-! ### Percent-encoding -/

/-- What `quote` makes of a byte: the character itself, or its two hexadecimal digits. -/
theorem quoteByte_cases : ∀ b < 256,
    (∃ c : Char, quoteByte b = [c] ∧ c ≠ '%' ∧ isAscii c ∧ c.toNat = b) ∨
      ∃ x y : Char, quoteByte b = ['%', x, y] ∧ isHexDigit x ∧ isHexDigit y ∧
        16 * hexVal x + hexVal y = b := by
  have hdigit : ∀ d < 16, isHexDigit (((Nat.toDigits 16 d).map Char.toUpper).headD '0') ∧
      hexVal (((Nat.toDigits 16 d).map Char.toUpper).headD '0') = d := by decide +kernel
  intro b hb
  by_cases hu : isUnreserved (Char.ofNat b) ∧ b < 128
  · have hto : (Char.ofNat b).toNat = b := by
      rw [Char.toNat_ofNat, if_pos (.inl (by omega))]
    refine .inl ⟨Char.ofNat b, by rw [quoteByte, if_pos hu], ?_, ?_, hto⟩
    · intro he
      rw [he] at hu
      exact absurd hu.1 (by decide)
    · simp only [isAscii, hto, decide_eq_true_eq]
      exact hu.2
  · have hx := hdigit (b / 16) (by omega)
    have hy := hdigit (b % 16) (by omega)
    refine .inr ⟨_, _, by rw [quoteByte, if_neg hu], hx.1, hy.1, ?_⟩
    rw [hx.2, hy.2]
    omega

theorem unquoteFrom_quoteByte {b : Nat} (hb : b < 256) (run : List Nat) (rest : Str) :
    unquoteFrom run (quoteByte b ++ rest) = unquoteFrom (run ++ [b]) rest := by
  rcases quoteByte_cases b hb with ⟨c, hq, hc, ha, rfl⟩ | ⟨x, y, hq, hx, hy, rfl⟩
  · rw [hq, List.singleton_append]
    match rest with
    | [] => simp [unquoteFrom, ha]
    | [a] => simp [unquoteFrom, ha]
    | a :: d :: rest => rw [unquoteFrom, if_neg (fun h => hc h.1), if_pos ha]
  · rw [hq]
    show unquoteFrom run ('%' :: x :: y :: rest) = _
    rw [unquoteFrom, if_pos ⟨rfl, hx, hy⟩]

/-- A form of single bytes that `unquote` reads, whatever follows, can be read byte by byte. -/
theorem unquoteFrom_flatMap {f : Nat → Str} (hf : ∀ b < 256, ∀ (run : List Nat) (rest : Str),
    unquoteFrom run (f b ++ rest) = unquoteFrom (run ++ [b]) rest) {bytes : List Nat}
    (h : ∀ b ∈ bytes, b < 256) (run : List Nat) :
    unquoteFrom run (bytes.flatMap f) = utf8Replace (run ++ bytes) := by
  induction bytes generalizing run with
  | nil => rw [List.flatMap_nil, List.append_nil]; rfl
  | cons b bytes ih =>
    rw [List.flatMap_cons, hf b (h b List.mem_cons_self), ih fun b hb => h b (List.mem_cons_of_mem _ hb)]
    simp

theorem unquote_flatMap {f : Nat → Str} (hf : ∀ b < 256, ∀ (run : List Nat) (rest : Str),
    unquoteFrom run (f b ++ rest) = unquoteFrom (run ++ [b]) rest) (s : Str) :
    unquote ((utf8Encode s).flatMap f) = s := by
  rw [unquote, unquoteFrom_flatMap hf fun b => lt_of_mem_utf8Encode, List.nil_append,
    utf8Replace_utf8Encode]

theorem unquote_quote (s : Str) : unquote (quote s) = s :=
  unquote_flatMap (fun _ hb run rest => unquoteFrom_quoteByte hb run rest) s

theorem mem_quoteByte {b : Nat} (hlt : b < 256) {c : Char} (hc : c ∈ quoteByte b) :
    isUnreserved c ∨ c = '%' := by
  have hupper : ∀ d < 16, isUnreserved (((Nat.toDigits 16 d).map Char.toUpper).headD '0') := by
    decide +kernel
  unfold quoteByte at hc
  split at hc
  · rename_i hu
    rw [List.mem_singleton.1 hc]
    exact .inl hu.1
  · simp only [List.mem_cons, List.not_mem_nil, or_false] at hc
    rcases hc with rfl | rfl | rfl
    · exact .inr rfl
    · exact .inl (hupper _ (by omega))
    · exact .inl (hupper _ (by omega))

/-- The characters of a quoted text. -/
theorem mem_quote {s : Str} {c : Char} (h : c ∈ quote s) : isUnreserved c ∨ c = '%' := by
  obtain ⟨b, hb, hc⟩ := List.mem_flatMap.1 h
  exact mem_quoteByte (lt_of_mem_utf8Encode hb) hc

theorem isAscii_of_isUnreserved {c : Char} (h : isUnreserved c) : isAscii c := by
  simp only [isUnreserved, Char.isAlphanum, Char.isAlpha, Bool.or_eq_true, isUpper_iff, isLower_iff,
    isDigit_iff, decide_eq_true_eq] at h
  simp only [isAscii, decide_eq_true_eq]
  rcases h with (((h | rfl) | rfl) | rfl) | rfl
  · omega
  all_goals decide

end Py
end OpenBmc
