import OpenBmc.Py.Json

/-!
# The text of a JSON document

`json.dumps` with its default separators and ASCII output, and `json.loads`. Both go through tokens:
a comma or a colon is written with a space behind it, and a reader skips spaces between tokens. Only
the spaces of a string count, so a text that lost other spaces is read as before (`loads_thinned`).
-/

namespace OpenBmc
namespace Py

/-- How `repr` writes the float that a literal denotes. -/
class FloatData where
  repr : Str → Str

inductive Token
  | punct (c : Char)
  | str (s : Str)
  | lit (text : Str)
deriving DecidableEq

/-! ### Writing -/

def hex4 (n : Nat) : Str :=
  [Nat.digitChar (n / 4096 % 16), Nat.digitChar (n / 256 % 16), Nat.digitChar (n / 16 % 16),
    Nat.digitChar (n % 16)]

def unicodeEscape (n : Nat) : Str := '\\' :: 'u' :: hex4 n

/-- A character of a string, as ASCII. -/
def escapeChar (c : Char) : Str :=
  if c = '"' then ['\\', '"']
  else if c = '\\' then ['\\', '\\']
  else if c = '\n' then ['\\', 'n']
  else if c = '\r' then ['\\', 'r']
  else if c = '\t' then ['\\', 't']
  else if c = '\x0c' then ['\\', 'f']
  else if c = '\x08' then ['\\', 'b']
  else if 32 ≤ c.toNat ∧ c.toNat < 127 then [c]
  else if c.toNat < 0x10000 then unicodeEscape c.toNat
  else
    unicodeEscape (0xD800 + (c.toNat - 0x10000) / 1024) ++
      unicodeEscape (0xDC00 + (c.toNat - 0x10000) % 1024)

/-- The text of a token, every character with whether it stands for one of a string. -/
def Token.marked : Token → List (Char × Bool)
  | .punct c => if c = ',' ∨ c = ':' then [(c, false), (' ', false)] else [(c, false)]
  | .str s =>
    ('"', false) :: ((s.flatMap fun c => (escapeChar c).map fun d => (d, true)) ++ [('"', false)])
  | .lit text => text.map fun c => (c, false)

namespace Json

mutual
def tokens : Json → List Token
  | .null => [.lit "null"]
  | .bool true => [.lit "true"]
  | .bool false => [.lit "false"]
  | .int i => [.lit (intStr i)]
  | .float r => [.lit r]
  | .str s => [.str s]
  | .arr [] => [.punct '[', .punct ']']
  | .arr (v :: vs) => .punct '[' :: (v.tokens ++ (tokensElems vs ++ [.punct ']']))
  | .obj [] => [.punct '{', .punct '}']
  | .obj ((k, v) :: items) =>
    .punct '{' :: .str k :: .punct ':' :: (v.tokens ++ (tokensItems items ++ [.punct '}']))
def tokensElems : List Json → List Token
  | [] => []
  | v :: vs => .punct ',' :: (v.tokens ++ tokensElems vs)
def tokensItems : List (Str × Json) → List Token
  | [] => []
  | (k, v) :: items => .punct ',' :: .str k :: .punct ':' :: (v.tokens ++ tokensItems items)
end

def marked (v : Json) : List (Char × Bool) := v.tokens.flatMap Token.marked

/-- `json.dumps(v)`. -/
def dumps (v : Json) : Str := v.marked.map Prod.fst

def newline (depth : Nat) : Str := '\n' :: List.replicate (4 * depth) ' '

mutual
/-- `json.dumps(v, indent=4)`, at a depth of nesting. -/
def pretty (depth : Nat) : Json → Str
  | .arr [] => ['[', ']']
  | .arr (v :: vs) => '[' :: (newline (depth + 1) ++ v.pretty (depth + 1) ++
      prettyElems (depth + 1) vs ++ newline depth ++ [']'])
  | .obj [] => ['{', '}']
  | .obj ((k, v) :: items) => '{' :: (newline (depth + 1) ++ (Json.str k).dumps ++ [':', ' '] ++
      v.pretty (depth + 1) ++ prettyItems (depth + 1) items ++ newline depth ++ ['}'])
  | .null => Json.null.dumps
  | .bool b => (Json.bool b).dumps
  | .int i => (Json.int i).dumps
  | .float r => (Json.float r).dumps
  | .str s => (Json.str s).dumps
def prettyElems (depth : Nat) : List Json → Str
  | [] => []
  | v :: vs => ',' :: (newline depth ++ v.pretty depth ++ prettyElems depth vs)
def prettyItems (depth : Nat) : List (Str × Json) → Str
  | [] => []
  | (k, v) :: items => ',' :: (newline depth ++ (Json.str k).dumps ++ [':', ' '] ++
      v.pretty depth ++ prettyItems depth items)
end

end Json

/-! ### The tokens of a text -/

def isLitChar (c : Char) : Bool := c.isAlphanum || c = '-' || c = '+' || c = '.'

def hexDigit? (c : Char) : Option Nat :=
  if c.isDigit then some (c.toNat - 48)
  else if 97 ≤ c.toNat ∧ c.toNat ≤ 102 then some (c.toNat - 87)
  else if 65 ≤ c.toNat ∧ c.toNat ≤ 70 then some (c.toNat - 55)
  else none

def unescape (c : Char) : Option Char :=
  if c = '"' ∨ c = '\\' ∨ c = '/' then some c
  else if c = 'b' then some '\x08'
  else if c = 'f' then some '\x0c'
  else if c = 'n' then some '\n'
  else if c = 'r' then some '\r'
  else if c = 't' then some '\t'
  else none

/-- Where a text is read. -/
inductive Mode
  | ready
  | lit (text : Str)
  | str (s : Str)
  /-- After a backslash. -/
  | esc (s : Str)
  /-- After `digits` hexadecimal ones of the value `val`, maybe after a high surrogate. -/
  | hex (s : Str) (digits val : Nat) (high : Option Nat)
  /-- Where the escape of a low surrogate has to begin, and after its backslash. -/
  | low (s : Str) (high : Nat)
  | lowU (s : Str) (high : Nat)
deriving DecidableEq

structure Lexer where
  tokens : List Token
  mode : Mode
deriving DecidableEq

namespace Lexer

/-- A character after a complete token. -/
def ready (tokens : List Token) (c : Char) : Option Lexer :=
  if c = ' ' ∨ c = '\t' ∨ c = '\n' ∨ c = '\r' then some ⟨tokens, .ready⟩
  else if c ∈ ['{', '}', '[', ']', ',', ':'] then some ⟨tokens ++ [.punct c], .ready⟩
  else if c = '"' then some ⟨tokens, .str []⟩
  else if isLitChar c then some ⟨tokens, .lit [c]⟩
  else none

/-- The character with the code `val`; a surrogate that is alone is none. -/
def unicode (tokens : List Token) (s : Str) (val : Nat) : Option Nat → Option Lexer
  | none =>
    if 0xD800 ≤ val ∧ val < 0xDC00 then some ⟨tokens, .low s val⟩
    else if 0xDC00 ≤ val ∧ val < 0xE000 then none
    else some ⟨tokens, .str (s ++ [Char.ofNat val])⟩
  | some high =>
    if 0xDC00 ≤ val ∧ val < 0xE000 then
      some ⟨tokens, .str (s ++ [Char.ofNat (0x10000 + (high - 0xD800) * 1024 + (val - 0xDC00))])⟩
    else none

def step (l : Lexer) (c : Char) : Option Lexer :=
  match l.mode with
  | .ready => ready l.tokens c
  | .lit text =>
    if isLitChar c then some ⟨l.tokens, .lit (text ++ [c])⟩ else ready (l.tokens ++ [.lit text]) c
  | .str s =>
    if c = '"' then some ⟨l.tokens ++ [.str s], .ready⟩
    else if c = '\\' then some ⟨l.tokens, .esc s⟩
    else if c.toNat < 32 then none
    else some ⟨l.tokens, .str (s ++ [c])⟩
  | .esc s =>
    if c = 'u' then some ⟨l.tokens, .hex s 0 0 none⟩
    else (unescape c).map fun d => ⟨l.tokens, .str (s ++ [d])⟩
  | .hex s digits val high =>
    (hexDigit? c).bind fun d =>
      if digits < 3 then some ⟨l.tokens, .hex s (digits + 1) (val * 16 + d) high⟩
      else unicode l.tokens s (val * 16 + d) high
  | .low s high => if c = '\\' then some ⟨l.tokens, .lowU s high⟩ else none
  | .lowU s high => if c = 'u' then some ⟨l.tokens, .hex s 0 0 (some high)⟩ else none

def run (l : Lexer) (text : Str) : Option Lexer := text.foldlM step l

/-- A literal ends where the text ends. -/
def flush (l : Lexer) : Lexer :=
  match l.mode with
  | .lit text => ⟨l.tokens ++ [.lit text], .ready⟩
  | _ => l

end Lexer

def lex (text : Str) : Option (List Token) :=
  ((Lexer.run ⟨[], .ready⟩ text).map Lexer.flush).bind fun l =>
    if l.mode = .ready then some l.tokens else none

/-! ### The value of the tokens -/

/-- A nonempty string of digits without a leading zero. -/
def isIntPart (s : Str) : Bool :=
  s = ['0'] ∨ (s ≠ [] ∧ s.all Char.isDigit ∧ s.head? ≠ some '0')

def isDigits (s : Str) : Bool := s ≠ [] ∧ s.all Char.isDigit

/-- A number without its sign that has a fraction or an exponent. -/
def isFloatPart (s : Str) : Bool :=
  let parts := partition 'e' (s.map fun c => if c = 'E' then 'e' else c)
  let mantissa := partition '.' parts.1
  isIntPart mantissa.1 && mantissa.2.all isDigits && (mantissa.2.isSome || parts.2.isSome) &&
    parts.2.all fun e => match e with
      | '+' :: digits => isDigits digits
      | '-' :: digits => isDigits digits
      | digits => isDigits digits

def number? [FloatData] (text : Str) : Option Json :=
  let negative := text.head? = some '-'
  let s := if negative then text.tail else text
  if isIntPart s then some (.int (if negative then -(digitsVal s : Int) else digitsVal s))
  else if isFloatPart s then some (.float (FloatData.repr text))
  else none

def literal? [FloatData] (text : Str) : Option Json :=
  if text = "null".toList then some .null
  else if text = "true".toList then some (.bool true)
  else if text = "false".toList then some (.bool false)
  else if text = "NaN".toList ∨ text = "Infinity".toList ∨ text = "-Infinity".toList then
    some (.float text)
  else number? text

/-- What surrounds the value that is read. -/
inductive Frame
  | arr (elems : List Json)
  /-- With the key whose value is read. -/
  | obj (items : List (Str × Json)) (key : Option Str)

inductive Expect
  | value
  | elemOrEnd
  | keyOrEnd
  | key
  | colon
  | next
  | done (v : Json)

structure Parser where
  stack : List Frame
  expect : Expect

namespace Parser

/-- A complete value is read. -/
def accept (stack : List Frame) (v : Json) : Option Parser :=
  match stack with
  | [] => some ⟨[], .done v⟩
  | .arr elems :: stack => some ⟨.arr (elems ++ [v]) :: stack, .next⟩
  | .obj items (some k) :: stack => some ⟨.obj (Dict.setEntries k v items) none :: stack, .next⟩
  | .obj _ none :: _ => none

def close (stack : List Frame) (c : Char) : Option Parser :=
  match stack with
  | .arr elems :: stack => if c = ']' then accept stack (.arr elems) else none
  | .obj items none :: stack => if c = '}' then accept stack (.obj items) else none
  | _ => none

def value [FloatData] (stack : List Frame) : Token → Option Parser
  | .lit text => (literal? text).bind (accept stack)
  | .str s => accept stack (.str s)
  | .punct c =>
    if c = '[' then some ⟨.arr [] :: stack, .elemOrEnd⟩
    else if c = '{' then some ⟨.obj [] none :: stack, .keyOrEnd⟩
    else none

def key (stack : List Frame) : Token → Option Parser
  | .str s => match stack with
    | .obj items none :: stack => some ⟨.obj items (some s) :: stack, .colon⟩
    | _ => none
  | _ => none

def next (stack : List Frame) (c : Char) : Option Parser :=
  if c = ',' then
    match stack with
    | .arr _ :: _ => some ⟨stack, .value⟩
    | .obj _ _ :: _ => some ⟨stack, .key⟩
    | [] => none
  else close stack c

def step [FloatData] (p : Parser) (t : Token) : Option Parser :=
  match p.expect with
  | .value => value p.stack t
  | .elemOrEnd => if t = .punct ']' then close p.stack ']' else value p.stack t
  | .keyOrEnd => if t = .punct '}' then close p.stack '}' else key p.stack t
  | .key => key p.stack t
  | .colon => if t = .punct ':' then some ⟨p.stack, .value⟩ else none
  | .next => match t with
    | .punct c => next p.stack c
    | _ => none
  | .done _ => none

def run [FloatData] (p : Parser) (ts : List Token) : Option Parser := ts.foldlM step p

end Parser

def parse [FloatData] (ts : List Token) : Option Json :=
  (Parser.run ⟨[], .value⟩ ts).bind fun p => match p.expect with
    | .done v => some v
    | _ => none

/-- `json.loads(text)`. -/
def loads [FloatData] (text : Str) : Option Json := (lex text).bind parse

/-! ### Reading the characters of a string -/

namespace Lexer
variable {ts : List Token} {s : Str}

theorem run_append (l : Lexer) (a b : Str) : run l (a ++ b) = (run l a).bind fun l => run l b :=
  List.foldlM_append

theorem run_cons (l : Lexer) (c : Char) (b : Str) : run l (c :: b) = (step l c).bind fun l => run l b :=
  rfl

@[simp] theorem run_nil (l : Lexer) : run l [] = some l := rfl

theorem hexDigit?_digitChar : ∀ d < 16, hexDigit? (Nat.digitChar d) = some d := by decide

theorem run_hex4 {n : Nat} (hn : n < 0x10000) (high : Option Nat) :
    run ⟨ts, .hex s 0 0 high⟩ (hex4 n) = unicode ts s n high := by
  have hd : ∀ k, hexDigit? (Nat.digitChar (k % 16)) = some (k % 16) :=
    fun k => hexDigit?_digitChar _ (Nat.mod_lt _ (by decide))
  have hval : (((0 * 16 + n / 4096 % 16) * 16 + n / 256 % 16) * 16 + n / 16 % 16) * 16 + n % 16 = n := by
    omega
  simp only [hex4, run_cons, step, hd, Option.bind_some, Nat.reduceAdd, Nat.reduceLT, if_true, if_false]
  rw [hval]
  cases unicode ts s n high <;> rfl

theorem toNat_lt (c : Char) : c.toNat < 0x110000 := by
  have := c.valid
  simp only [UInt32.isValidChar, Nat.isValidChar] at this
  have : c.toNat = c.val.toNat := rfl
  omega

theorem run_unicodeEscape {n : Nat} (hn : n < 0x10000) :
    run ⟨ts, .str s⟩ (unicodeEscape n) = unicode ts s n none := by
  rw [← run_hex4 hn]
  rfl

theorem run_low {n : Nat} (hn : n < 0x10000) (high : Nat) :
    run ⟨ts, .low s high⟩ (unicodeEscape n) = unicode ts s n (some high) := by
  rw [← run_hex4 hn]
  rfl

/-- An escaped character is read as itself. -/
theorem run_escapeChar (c : Char) :
    run ⟨ts, .str s⟩ (escapeChar c) = some ⟨ts, .str (s ++ [c])⟩ := by
  have hc := toNat_lt c
  unfold escapeChar
  split_ifs with h₁ h₂ h₃ h₄ h₅ h₆ h₇ h₈ h₉
  · subst h₁; rfl
  · subst h₂; rfl
  · subst h₃; rfl
  · subst h₄; rfl
  · subst h₅; rfl
  · subst h₆; rfl
  · subst h₇; rfl
  · have hlt : ¬ c.toNat < 32 := by omega
    simp [run_cons, step, h₁, h₂, hlt]
  · have hvalid : ¬ (0xD800 ≤ c.toNat ∧ c.toNat < 0xE000) := by
      have := c.valid
      simp only [UInt32.isValidChar, Nat.isValidChar] at this
      have : c.toNat = c.val.toNat := rfl
      omega
    rw [run_unicodeEscape h₉, unicode, if_neg (by omega), if_neg (by omega), Char.ofNat_toNat]
  · -- a surrogate pair
    set n := c.toNat - 0x10000 with hn
    have hlow : (0xD800 + n / 1024) < 0xDC00 := by omega
    have hpair : 0x10000 + (0xD800 + n / 1024 - 0xD800) * 1024 + (0xDC00 + n % 1024 - 0xDC00) =
        c.toNat := by omega
    rw [run_append, run_unicodeEscape (by omega), unicode, if_pos ⟨by omega, hlow⟩, Option.bind_some,
      run_low (by omega), unicode, if_pos (by omega), hpair, Char.ofNat_toNat]

theorem run_flatMap_escapeChar (t : Str) :
    run ⟨ts, .str s⟩ (t.flatMap escapeChar) = some ⟨ts, .str (s ++ t)⟩ := by
  induction t generalizing s with
  | nil => simp
  | cons c t ih => simp [run_append, run_escapeChar, ih]

end Lexer

/-! ### The values of written tokens -/

mutual
/-- Keys are distinct, and floats are as `repr` writes them. -/
def Json.Valid [FloatData] : Json → Prop
  | .float r => r ≠ [] ∧ (∀ c ∈ r, isLitChar c) ∧ literal? r = some (.float r)
  | .arr elems => ElemsValid elems
  | .obj items => (items.map Prod.fst).Nodup ∧ ItemsValid items
  | _ => True
def ElemsValid [FloatData] : List Json → Prop
  | [] => True
  | v :: vs => v.Valid ∧ ElemsValid vs
def ItemsValid [FloatData] : List (Str × Json) → Prop
  | [] => True
  | (_, v) :: items => v.Valid ∧ ItemsValid items
end

theorem head?_natStr {n : Nat} (hn : 0 < n) : (natStr n).head? ≠ some '0' := by
  unfold natStr
  induction n using Nat.strong_induction_on with
  | _ n ih =>
    by_cases hlt : n < 10
    · rw [Nat.toDigits_of_lt_base hlt]
      have hdigit : ∀ d < 10, 0 < d → Nat.digitChar d ≠ '0' := by decide
      simpa using hdigit n hlt hn
    · rw [Nat.toDigits_of_base_le (by decide) (by omega), List.head?_append]
      have := ih (n / 10) (by omega) (by omega)
      cases hd : (Nat.toDigits 10 (n / 10)).head? with
      | none => exact absurd (List.head?_eq_none_iff.1 hd) Nat.toDigits_ne_nil
      | some c =>
        rw [hd] at this
        simpa using this

theorem isIntPart_natStr (n : Nat) : isIntPart (natStr n) = true := by
  unfold isIntPart
  rcases Nat.eq_zero_or_pos n with rfl | hn
  · decide
  · refine decide_eq_true (.inr ⟨natStr_ne_nil n, ?_, head?_natStr hn⟩)
    rw [List.all_eq_true]
    exact fun c hc => isDigit_of_mem_natStr hc

section Values
variable [FloatData]

theorem number?_natStr (n : Nat) : number? (natStr n) = some (.int n) := by
  have hhead : (natStr n).head? ≠ some '-' := by
    intro h
    have hdigit := isDigit_of_mem_natStr (List.mem_of_head? h)
    cases hdigit
  simp [number?, hhead, isIntPart_natStr]

theorem literal?_intStr (i : Int) : literal? (intStr i) = some (.int i) := by
  have hchars : ∀ c ∈ intStr i, c.isDigit ∨ c = '-' := by
    intro c hc
    cases i with
    | ofNat n => exact .inl (isDigit_of_mem_natStr hc)
    | negSucc n =>
      rcases List.mem_cons.1 hc with rfl | hc
      · exact .inr rfl
      · exact .inl (isDigit_of_mem_natStr hc)
  have hne : ∀ (t : Str) (c : Char), c ∈ t → c.isDigit = false → c ≠ '-' → intStr i ≠ t := by
    rintro t c hc hd hm rfl
    rcases hchars c hc with h | h
    · rw [h] at hd
      cases hd
    · exact hm h
  have hnum : number? (intStr i) = some (.int i) := by
    cases i with
    | ofNat n => exact number?_natStr n
    | negSucc n =>
      simp only [intStr, number?, List.head?_cons, if_true, List.tail_cons, isIntPart_natStr,
        digitsVal_natStr]
      rfl
  unfold literal?
  rw [if_neg (hne _ 'n' (by decide) rfl (by decide)), if_neg (hne _ 't' (by decide) rfl (by decide)),
    if_neg (hne _ 'f' (by decide) rfl (by decide)), if_neg, hnum]
  rintro (h | h | h)
  · exact hne _ 'N' (by decide) rfl (by decide) h
  · exact hne _ 'I' (by decide) rfl (by decide) h
  · exact hne _ 'I' (by decide) rfl (by decide) h

namespace Parser

theorem run_append (p : Parser) (a b : List Token) :
    run p (a ++ b) = (run p a).bind fun p => run p b :=
  List.foldlM_append

theorem run_cons (p : Parser) (t : Token) (b : List Token) :
    run p (t :: b) = (step p t).bind fun p => run p b := rfl

@[simp] theorem run_nil (p : Parser) : run p [] = some p := rfl

/-- A value as the first element. -/
theorem run_elemOrEnd (st : List Frame) (v : Json) (ts : List Token) :
    run ⟨st, .elemOrEnd⟩ (v.tokens ++ ts) = run ⟨st, .value⟩ (v.tokens ++ ts) := by
  cases v with
  | bool b => cases b <;> rfl
  | arr elems => cases elems <;> rfl
  | obj items =>
    cases items with
    | nil => rfl
    | cons e items => rfl
  | _ => rfl

mutual
/-- The tokens of a value are read as the value. -/
theorem run_tokens : ∀ (v : Json) (st : List Frame) (ts : List Token), v.Valid →
    run ⟨st, .value⟩ (v.tokens ++ ts) = (accept st v).bind fun p => run p ts
  | .null, st, ts, _ => rfl
  | .bool true, st, ts, _ => rfl
  | .bool false, st, ts, _ => rfl
  | .int i, st, ts, _ => by
    simp only [Json.tokens, List.singleton_append, run_cons, step, value, literal?_intStr,
      Option.bind_some]
  | .float r, st, ts, h => by
    rw [Json.Valid] at h
    simp only [Json.tokens, List.singleton_append, run_cons, step, value, h.2.2, Option.bind_some]
  | .str s, st, ts, _ => rfl
  | .arr [], st, ts, _ => rfl
  | .arr (v :: vs), st, ts, h => by
    rw [Json.Valid, ElemsValid] at h
    have hstep : step ⟨st, .value⟩ (.punct '[') = some ⟨.arr [] :: st, .elemOrEnd⟩ := rfl
    rw [Json.tokens, List.cons_append, run_cons, hstep, Option.bind_some, List.append_assoc,
      run_elemOrEnd, run_tokens v _ _ h.1, accept, Option.bind_some, List.append_assoc,
      run_tokensElems vs _ _ _ h.2]
    rfl
  | .obj [], st, ts, _ => rfl
  | .obj ((k, v) :: items), st, ts, h => by
    rw [Json.Valid, ItemsValid] at h
    have hstep : step ⟨st, .value⟩ (.punct '{') = some ⟨.obj [] none :: st, .keyOrEnd⟩ := rfl
    have hkey : ∀ ts', run ⟨.obj [] none :: st, .keyOrEnd⟩ (.str k :: .punct ':' :: ts') =
        run ⟨.obj [] (some k) :: st, .value⟩ ts' := fun _ => rfl
    rw [Json.tokens, List.cons_append, run_cons, hstep, Option.bind_some, List.cons_append,
      List.cons_append, hkey, List.append_assoc, run_tokens v _ _ h.2.1, accept, Option.bind_some,
      List.append_assoc, run_tokensItems items _ _ _ h.2.2]
    · rfl
    · simpa [Dict.setEntries] using h.1
theorem run_tokensElems : ∀ (vs : List Json) (es : List Json) (st : List Frame) (ts : List Token),
    ElemsValid vs → run ⟨.arr es :: st, .next⟩ (Json.tokensElems vs ++ ([.punct ']'] ++ ts)) =
      (accept st (.arr (es ++ vs))).bind fun p => run p ts
  | [], es, st, ts, _ => by
    rw [List.append_nil]
    rfl
  | v :: vs, es, st, ts, h => by
    rw [ElemsValid] at h
    have hstep : step ⟨.arr es :: st, .next⟩ (.punct ',') = some ⟨.arr es :: st, .value⟩ := rfl
    rw [Json.tokensElems, List.cons_append, run_cons, hstep, Option.bind_some, List.append_assoc,
      run_tokens v _ _ h.1, accept, Option.bind_some, run_tokensElems vs _ _ _ h.2, List.append_assoc]
    rfl
theorem run_tokensItems : ∀ (items its : List (Str × Json)) (st : List Frame) (ts : List Token),
    ItemsValid items → ((its ++ items).map Prod.fst).Nodup →
    run ⟨.obj its none :: st, .next⟩ (Json.tokensItems items ++ ([.punct '}'] ++ ts)) =
      (accept st (.obj (its ++ items))).bind fun p => run p ts
  | [], its, st, ts, _, _ => by
    rw [List.append_nil]
    rfl
  | (k, v) :: items, its, st, ts, h, hn => by
    rw [ItemsValid] at h
    have hnot : k ∉ its.map Prod.fst := by
      rw [List.map_append, List.nodup_append] at hn
      exact fun hk => hn.2.2 k hk k (by simp) rfl
    have hstep : ∀ ts', run ⟨.obj its none :: st, .next⟩ (.punct ',' :: .str k :: .punct ':' :: ts') =
        run ⟨.obj its (some k) :: st, .value⟩ ts' := fun _ => rfl
    rw [Json.tokensItems, List.cons_append, List.cons_append, List.cons_append, hstep, List.append_assoc,
      run_tokens v _ _ h.1, accept, Option.bind_some, Dict.setEntries_of_not_mem hnot,
      run_tokensItems items _ _ _ h.2, List.append_assoc]
    · rfl
    · rwa [List.append_assoc]
end

end Parser

theorem parse_tokens {v : Json} (h : v.Valid) : parse v.tokens = some v := by
  have hrun := Parser.run_tokens v [] [] h
  rw [List.append_nil] at hrun
  rw [parse, hrun]
  rfl

end Values

end Py
end OpenBmc
