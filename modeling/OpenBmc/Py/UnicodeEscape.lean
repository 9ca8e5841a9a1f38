import OpenBmc.Py.Quote

/-!
# The codec `unicode_escape`

The encoder writes printable ASCII only; the decoder reads the UTF-8 bytes of a text as Latin-1. What
was encoded is decoded to what it was.
-/

namespace OpenBmc
namespace Py

/-! ### Encoding -/

/-- The `w` lowest hexadecimal digits. -/
def hexDigits : ℕ → ℕ → Str
  | 0, _ => []
  | w + 1, n => Nat.digitChar (n / 16 ^ w % 16) :: hexDigits w n

def unicodeEscapeChar (c : Char) : Str :=
  if c = '\\' then ['\\', '\\']
  else if 32 ≤ c.toNat ∧ c.toNat < 127 then [c]
  else if c = '\t' then ['\\', 't']
  else if c = '\n' then ['\\', 'n']
  else if c = '\r' then ['\\', 'r']
  else if c.toNat < 0x100 then '\\' :: 'x' :: hexDigits 2 c.toNat
  else if c.toNat < 0x10000 then '\\' :: 'u' :: hexDigits 4 c.toNat
  else '\\' :: 'U' :: hexDigits 8 c.toNat

def unicodeEscapeEncode (s : Str) : Str := s.flatMap unicodeEscapeChar

/-! ### Decoding -/

/-- The names of the Unicode characters. -/
class UnicodeNames where
  lookup : Str → Option Char

def takeHex : ℕ → ℕ → Str → Option (ℕ × Str)
  | 0, n, s => some (n, s)
  | _ + 1, _, [] => none
  | w + 1, n, c :: s => if isHexDigit c then takeHex w (16 * n + hexVal c) s else none

/-- A character by its number; a surrogate is none here. -/
def charOf (n : ℕ) : Option Str := if n.isValidChar then some [Char.ofNat n] else none

def isOctal (c : Char) : Bool := '0' ≤ c && c ≤ '7'

/-- What a backslash stands for together with the text behind it, and the rest of that text. -/
def unescapeChar [UnicodeNames] : Str → Option (Str × Str)
  | [] => none
  | '\n' :: s => some ([], s)
  | 'b' :: s => some ([Char.ofNat 8], s)
  | 'f' :: s => some ([Char.ofNat 12], s)
  | 't' :: s => some (['\t'], s)
  | 'n' :: s => some (['\n'], s)
  | 'r' :: s => some (['\r'], s)
  | 'v' :: s => some ([Char.ofNat 11], s)
  | 'a' :: s => some ([Char.ofNat 7], s)
  | 'x' :: s => (takeHex 2 0 s).bind fun r => (charOf r.1).map fun t => (t, r.2)
  | 'u' :: s => (takeHex 4 0 s).bind fun r => (charOf r.1).map fun t => (t, r.2)
  | 'U' :: s => (takeHex 8 0 s).bind fun r => (charOf r.1).map fun t => (t, r.2)
  | 'N' :: s =>
    match s with
    | '\x7b' :: s =>
      match partition '\x7d' s with
      | (name, some rest) => (UnicodeNames.lookup name).map fun c => ([c], rest)
      | (_, none) => none
    | _ => none
  | c :: s =>
    if c = '\\' ∨ c = '\'' ∨ c = '"' then some ([c], s)
    else if isOctal c then
      let digits := ((c :: s).take 3).takeWhile isOctal
      some ([Char.ofNat (digits.foldl (fun n d => 8 * n + (d.toNat - 48)) 0)],
        (c :: s).drop digits.length)
    else some (['\\', c], s)

def unescapeFrom [UnicodeNames] : ℕ → Str → Option Str
  | 0, _ | _, [] => some []
  | fuel + 1, c :: s =>
    if c = '\\' then
      match unescapeChar s with
      | none => none
      | some (t, rest) => (unescapeFrom fuel rest).map fun u => t ++ u
    else (unescapeFrom fuel s).map fun u => c :: u

/-- The decoder, which fails at what is no escape. -/
def unicodeEscapeDecode [UnicodeNames] (s : Str) : Option Str :=
  let bytes := (utf8Encode s).map Char.ofNat
  unescapeFrom bytes.length bytes

/-! ### Back and forth -/

theorem hexVal_digitChar : ∀ d < 16, isHexDigit (Nat.digitChar d) ∧ hexVal (Nat.digitChar d) = d := by
  decide +kernel

theorem takeHex_hexDigits (w n m : ℕ) (rest : Str) :
    takeHex w m (hexDigits w n ++ rest) = some (m * 16 ^ w + n % 16 ^ w, rest) := by
  induction w generalizing m with
  | zero => simp [takeHex, hexDigits, Nat.mod_one]
  | succ w ih =>
    obtain ⟨hhex, hval⟩ := hexVal_digitChar (n / 16 ^ w % 16) (Nat.mod_lt _ (by decide))
    have hmod : n % 16 ^ (w + 1) = n / 16 ^ w % 16 * 16 ^ w + n % 16 ^ w := by
      rw [pow_succ, Nat.mod_mul, Nat.mul_comm (16 ^ w), Nat.add_comm]
    rw [hexDigits, List.cons_append, takeHex, if_pos hhex, hval, ih, hmod, pow_succ]
    congr 2
    ring

theorem charOf_toNat (c : Char) : charOf c.toNat = some [c] := by
  have hv : c.toNat.isValidChar := c.valid
  rw [charOf, if_pos hv, Char.ofNat_toNat]

theorem mem_hexDigits {w n : ℕ} {c : Char} (h : c ∈ hexDigits w n) :
    32 < c.toNat ∧ c.toNat < 127 := by
  have hall : ∀ d < 16, 32 < (Nat.digitChar d).toNat ∧ (Nat.digitChar d).toNat < 127 := by decide
  induction w with
  | zero => cases h
  | succ w ih =>
    rcases List.mem_cons.1 h with rfl | h
    · exact hall _ (Nat.mod_lt _ (by decide))
    · exact ih h

/-- The encoder writes blanks and printable characters. -/
theorem mem_unicodeEscapeChar {c d : Char} (h : d ∈ unicodeEscapeChar c) :
    (32 < d.toNat ∧ d.toNat < 127) ∨ c = ' ' ∧ d = ' ' := by
  unfold unicodeEscapeChar at h
  split_ifs at h with h1 h2 h3 h4 h5 h6 h7
  · simp only [List.mem_cons, List.not_mem_nil, or_false, or_self] at h
    rw [h]
    exact .inl (by decide)
  · rw [List.mem_singleton.1 h]
    by_cases hc : c.toNat = 32
    · have hsp : c = ' ' := by rw [← Char.ofNat_toNat c, hc]
      exact .inr ⟨hsp, hsp⟩
    · exact .inl ⟨by omega, h2.2⟩
  all_goals
    rcases List.mem_cons.1 h with rfl | h
    · exact .inl (by decide)
    rcases List.mem_cons.1 h with rfl | h
    · exact .inl (by decide)
    first
    | exact .inl (mem_hexDigits h)
    | cases h

theorem unescapeChar_hex {n w : ℕ} {c : Char} (hc : c.toNat = n) (hn : n < 16 ^ w) (rest : Str) :
    ((takeHex w 0 (hexDigits w n ++ rest)).bind fun r => (charOf r.1).map fun t => (t, r.2)) =
      some ([c], rest) := by
  rw [takeHex_hexDigits, Nat.mod_eq_of_lt hn, Nat.zero_mul, Nat.zero_add, ← hc]
  simp [charOf_toNat]

theorem unicodeEscapeChar_ne_nil (c : Char) : unicodeEscapeChar c ≠ [] := by
  unfold unicodeEscapeChar
  split_ifs <;> exact List.cons_ne_nil _ _

theorem length_le_unicodeEscapeEncode (s : Str) : s.length ≤ (unicodeEscapeEncode s).length := by
  induction s with
  | nil => exact Nat.zero_le _
  | cons c s ih =>
    have hpos := List.length_pos_iff.2 (unicodeEscapeChar_ne_nil c)
    rw [unicodeEscapeEncode, List.flatMap_cons, List.length_append, List.length_cons,
      ← unicodeEscapeEncode]
    omega

/-- A text of ASCII characters is what its bytes are in Latin-1. -/
theorem map_utf8Encode_ascii {s : Str} (h : ∀ c ∈ s, c.toNat < 128) :
    (utf8Encode s).map Char.ofNat = s := by
  induction s with
  | nil => rfl
  | cons c s ih =>
    have hc : c.toNat ≤ 0x7f := by have := h c (List.mem_cons_self ..); omega
    have hone : String.utf8EncodeChar c = [UInt8.ofNat c.toNat] := by
      unfold String.utf8EncodeChar
      exact if_pos hc
    rw [utf8Encode, List.flatMap_cons, List.map_append, ← utf8Encode,
      ih fun d hd => h d (List.mem_cons_of_mem _ hd), hone, List.map_singleton, List.map_singleton,
      toNat_ofNat_byte (by omega), Char.ofNat_toNat]
    rfl

theorem mem_unicodeEscapeEncode {s : Str} {d : Char} (h : d ∈ unicodeEscapeEncode s) :
    32 ≤ d.toNat ∧ d.toNat < 127 := by
  obtain ⟨c, -, hd⟩ := List.mem_flatMap.1 h
  rcases mem_unicodeEscapeChar hd with hd | ⟨-, rfl⟩
  · exact ⟨hd.1.le, hd.2⟩
  · decide

variable [UnicodeNames]

/-- One character is read back, whatever follows. -/
theorem unescapeFrom_char (fuel : ℕ) (c : Char) (rest : Str) :
    unescapeFrom (fuel + 1) (unicodeEscapeChar c ++ rest) =
      (unescapeFrom fuel rest).map fun u => c :: u := by
  have hlt : c.toNat < 0x110000 := by
    rcases c.valid with h | h
    · have : c.toNat < 0xD800 := h
      omega
    · exact h.2
  unfold unicodeEscapeChar
  split_ifs with h1 h2 h3 h4 h5 h6 h7
  · subst h1
    rfl
  · simp only [List.singleton_append, unescapeFrom, h1, if_false]
  · subst h3
    rfl
  · subst h4
    rfl
  · subst h5
    rfl
  · simp only [List.cons_append, unescapeFrom, if_true, unescapeChar]
    rw [unescapeChar_hex rfl h6]
    rfl
  · simp only [List.cons_append, unescapeFrom, if_true, unescapeChar]
    rw [unescapeChar_hex rfl h7]
    rfl
  · simp only [List.cons_append, unescapeFrom, if_true, unescapeChar]
    rw [unescapeChar_hex rfl (by omega)]
    rfl

theorem unescapeFrom_encode (s : Str) {fuel : ℕ} (h : s.length ≤ fuel) :
    unescapeFrom fuel (unicodeEscapeEncode s) = some s := by
  induction s generalizing fuel with
  | nil => cases fuel <;> rfl
  | cons c s ih =>
    obtain ⟨fuel, rfl⟩ : ∃ k, fuel = k + 1 := ⟨fuel - 1, by rw [List.length_cons] at h; omega⟩
    have hs : s.length ≤ fuel := by rw [List.length_cons] at h; omega
    rw [unicodeEscapeEncode, List.flatMap_cons, unescapeFrom_char, ← unicodeEscapeEncode, ih hs]
    rfl

theorem unicodeEscapeDecode_encode (s : Str) :
    unicodeEscapeDecode (unicodeEscapeEncode s) = some s := by
  have hbytes : (utf8Encode (unicodeEscapeEncode s)).map Char.ofNat = unicodeEscapeEncode s :=
    map_utf8Encode_ascii fun d hd => by have := mem_unicodeEscapeEncode hd; omega
  show unescapeFrom _ ((utf8Encode (unicodeEscapeEncode s)).map Char.ofNat) = some s
  rw [hbytes]
  exact unescapeFrom_encode s (length_le_unicodeEscapeEncode s)

end Py
end OpenBmc
