import OpenBmc.Py.Str
import OpenBmc.Lib.Dict

/-!
# `str.format`

`format subs text` is `text.format(**subs)`. Fields of a plain name are looked up; what `str.format`
makes of a value with attributes, an index, a conversion or a format specification is
`PyFormat.render`. On a `Plain` text, whose braces all belong to fields of a plain name, it is the
substitution of the fields.
-/

namespace OpenBmc
namespace Py

inductive FormatError
  | keyError (key : Str)
  /-- A positional field, of which there are none. -/
  | indexError
  | valueError
  /-- An error of an attribute, an index, a conversion or a format specification. -/
  | other
  deriving DecidableEq

/-- The parts of `str.format` beyond names and values. -/
structure PyFormat where
  /-- The character is a decimal digit. -/
  isDecimal : Char → Bool
  /-- A value with the attributes and indices that follow its name, its conversion and its format
  specification, which may have fields itself. -/
  render : Dict Str Str → Str → Str → Option Char → Str → Except FormatError Str

section Format
variable (py : PyFormat) (subs : Dict Str Str)

/-- The text of a field. -/
def getField (name : Str) (conversion : Option Char) (spec : Str) : Except FormatError Str :=
  let first := name.takeWhile fun c => c ≠ '.' ∧ c ≠ '['
  let rest := name.dropWhile fun c => c ≠ '.' ∧ c ≠ '['
  if first.all py.isDecimal then .error .indexError
  else match subs.get? first with
    | none => .error (.keyError first)
    | some value =>
      if rest = [] ∧ conversion = none ∧ spec = [] then .ok value
      else py.render subs value rest conversion spec

/-- Where the parser stands. -/
inductive FormatMode
  | text
  | field (name : Str)
  /-- Between `[` and `]` of a field's name. -/
  | index (name : Str)
  | conversion (name : Str)
  /-- In a format specification, with the number of braces that are open. -/
  | spec (name : Str) (conversion : Option Char) (spec : Str) (count : Nat)

/-- The rest of a text, from a mode. -/
def formatFrom : FormatMode → Str → Except FormatError Str
  | .text, [] => .ok []
  | .text, c :: s =>
    if c = '{' then
      match s with
      | [] => .error .valueError
      | d :: t => if d = '{' then ('{' :: ·) <$> formatFrom .text t else formatFrom (.field []) (d :: t)
    else if c = '}' then
      match s with
      | [] => .error .valueError
      | d :: t => if d = '}' then ('}' :: ·) <$> formatFrom .text t else .error .valueError
    else (c :: ·) <$> formatFrom .text s
  | .field _, [] => .error .valueError
  | .field name, c :: s =>
    if c = '{' then .error .valueError
    else if c = '[' then formatFrom (.index (name ++ [c])) s
    else if c = '}' then do
      let value ← getField py subs name none []
      (value ++ ·) <$> formatFrom .text s
    else if c = ':' then formatFrom (.spec name none [] 1) s
    else if c = '!' then formatFrom (.conversion name) s
    else formatFrom (.field (name ++ [c])) s
  | .index _, [] => .error .valueError
  | .index name, c :: s =>
    if c = ']' then formatFrom (.field (name ++ [c])) s else formatFrom (.index (name ++ [c])) s
  | .conversion _, [] => .error .valueError
  | .conversion name, c :: s =>
    match s with
    | [] => .error .valueError
    | d :: t =>
      if d = '}' then do
        let value ← getField py subs name (some c) []
        (value ++ ·) <$> formatFrom .text t
      else if d = ':' then formatFrom (.spec name (some c) [] 1) t
      else .error .valueError
  | .spec .., [] => .error .valueError
  | .spec name conversion spec count, c :: s =>
    if c = '{' then formatFrom (.spec name conversion (spec ++ [c]) (count + 1)) s
    else if c = '}' then
      if count = 1 then do
        let value ← getField py subs name conversion spec
        (value ++ ·) <$> formatFrom .text s
      else formatFrom (.spec name conversion (spec ++ [c]) (count - 1)) s
    else formatFrom (.spec name conversion (spec ++ [c]) count) s

/-- `text.format(**subs)`. -/
def format (text : Str) : Except FormatError Str := formatFrom py subs .text text

end Format

/-! ### Fields of a name -/

/-- A text is made of characters and of fields `{name}`, whose names have no brace and no colon. -/
inductive Piece
  | char (c : Char)
  | field (name : Str)
  deriving DecidableEq

/-- The pieces of a text, behind an open brace and the letters after it or behind a piece. -/
def piecesFrom : Option Str → Str → List Piece
  | none, [] => []
  | none, c :: s => if c = '{' then piecesFrom (some []) s else .char c :: piecesFrom none s
  | some name, [] => (('{' :: name).map .char)
  | some name, c :: s =>
    if c = '}' then .field name :: piecesFrom none s
    else if c = '{' then (('{' :: name).map .char) ++ piecesFrom (some []) s
    else if c = ':' then (('{' :: name).map .char) ++ .char c :: piecesFrom none s
    else piecesFrom (some (name ++ [c])) s

def pieces (text : Str) : List Piece := piecesFrom none text

/-- The names of the fields of a text. -/
def fieldNames (text : Str) : List Str :=
  (pieces text).filterMap fun
    | .field name => some name
    | .char _ => none

/-- What a piece stands for. A field without a value stands for itself. -/
def Piece.fill (values : Str → Option Str) : Piece → Str
  | .char c => [c]
  | .field name => (values name).getD ('{' :: name ++ ['}'])

/-- The text with its fields replaced by their values. -/
def substitute (values : Str → Option Str) (text : Str) : Str :=
  (pieces text).flatMap (Piece.fill values)

/-- A name that `str.format` looks up as it stands. -/
structure PlainName (py : PyFormat) (name : Str) : Prop where
  chars : ∀ c ∈ name, c ≠ '.' ∧ c ≠ '[' ∧ c ≠ '!'
  notDecimal : ¬ name.all py.isDecimal

instance (py : PyFormat) (name : Str) : Decidable (PlainName py name) :=
  have := List.decidableBAll (fun c => c ≠ '.' ∧ c ≠ '[' ∧ c ≠ '!') name
  decidable_of_iff ((∀ c ∈ name, c ≠ '.' ∧ c ≠ '[' ∧ c ≠ '!') ∧ ¬ name.all py.isDecimal)
    ⟨fun h => ⟨h.1, h.2⟩, fun h => ⟨h.1, h.2⟩⟩

def Piece.Plain (py : PyFormat) : Piece → Prop
  | .char c => c ≠ '{' ∧ c ≠ '}'
  | .field name => PlainName py name

instance (py : PyFormat) : (p : Piece) → Decidable (p.Plain py)
  | .char _ => inferInstanceAs (Decidable (_ ∧ _))
  | .field name => inferInstanceAs (Decidable (PlainName py name))

/-- Every brace of the text belongs to a field of a plain name. -/
def Plain (py : PyFormat) (text : Str) : Prop := ∀ p ∈ pieces text, p.Plain py

instance (py : PyFormat) (text : Str) : Decidable (Plain py text) :=
  inferInstanceAs (Decidable (∀ p ∈ pieces text, p.Plain py))

/-- What `str.format` makes of a plain piece. -/
def Piece.value (subs : Dict Str Str) : Piece → Except FormatError Str
  | .char c => .ok [c]
  | .field name => (subs.get? name).elim (.error (.keyError name)) .ok

/-- The values of the pieces, one after the other. -/
def joinPieces (subs : Dict Str Str) : List Piece → Except FormatError Str
  | [] => .ok []
  | p :: ps => do
    let value ← p.value subs
    (value ++ ·) <$> joinPieces subs ps

section Plain
variable {py : PyFormat} {subs : Dict Str Str}

theorem getField_plain {name : Str} (h : PlainName py name) :
    getField py subs name none [] = (subs.get? name).elim (.error (.keyError name)) .ok := by
  have hfirst : name.takeWhile (fun c => decide (c ≠ '.' ∧ c ≠ '[')) = name :=
    List.takeWhile_eq_self_iff.2 fun c hc => by
      simpa using ⟨(h.chars c hc).1, (h.chars c hc).2.1⟩
  have hrest : name.dropWhile (fun c => decide (c ≠ '.' ∧ c ≠ '[')) = [] :=
    List.dropWhile_eq_nil_iff.2 fun c hc => by
      simpa using ⟨(h.chars c hc).1, (h.chars c hc).2.1⟩
  unfold getField
  simp only [hfirst, hrest, if_neg h.notDecimal]
  cases subs.get? name with
  | none => rfl
  | some v => simp

/-- Inside a plain field the letters so far belong to its name. -/
theorem plain_open {s name : Str} (h : ∀ p ∈ piecesFrom (some name) s, p.Plain py) :
    ∀ c ∈ name, c ≠ '.' ∧ c ≠ '[' ∧ c ≠ '!' := by
  have hbrace : ¬ (Piece.char '{').Plain py := fun hp => hp.1 rfl
  induction s generalizing name with
  | nil => exact absurd (h (.char '{') (by simp [piecesFrom])) hbrace
  | cons d s ih =>
    rw [piecesFrom] at h
    split at h
    · exact (h (.field name) List.mem_cons_self : PlainName py name).chars
    split at h
    · exact absurd (h (.char '{') (by simp)) hbrace
    split at h
    · exact absurd (h (.char '{') (by simp)) hbrace
    · exact fun c hc => ih h c (List.mem_append_left _ hc)

/-- On plain pieces the two readings of a text agree, outside of fields and inside. -/
theorem formatFrom_plain (s : Str) :
    ((∀ p ∈ piecesFrom none s, p.Plain py) →
      formatFrom py subs .text s = joinPieces subs (piecesFrom none s)) ∧
    ∀ name, (∀ p ∈ piecesFrom (some name) s, p.Plain py) →
      formatFrom py subs (.field name) s = joinPieces subs (piecesFrom (some name) s) := by
  have hbrace : ¬ (Piece.char '{').Plain py := fun hp => hp.1 rfl
  induction s with
  | nil =>
    refine ⟨fun _ => rfl, fun name h => ?_⟩
    exact absurd (h (.char '{') (by simp [piecesFrom])) hbrace
  | cons c s ih =>
    constructor
    · intro h
      rw [piecesFrom] at h ⊢
      unfold formatFrom
      split at h
      · rename_i hc
        rw [if_pos hc, if_pos hc]
        cases s with
        | nil => exact absurd (h (.char '{') (by simp [piecesFrom])) hbrace
        | cons d t =>
          have hd : d ≠ '{' := fun hd => hbrace (h _ (by simp [piecesFrom, hd]))
          show (if d = '{' then _ else _) = _
          rw [if_neg hd]
          exact ih.2 [] h
      · rename_i hc
        have hp : c ≠ '{' ∧ c ≠ '}' := h (.char c) List.mem_cons_self
        rw [if_neg hc, if_neg hc, if_neg hp.2, ih.1 fun p hp => h p (List.mem_cons_of_mem _ hp)]
        rfl
    · intro name h
      have hopen := plain_open h
      rw [piecesFrom] at h ⊢
      rw [formatFrom]
      by_cases hclose : c = '}'
      · rw [if_pos hclose] at h
        have hname : PlainName py name := h (.field name) List.mem_cons_self
        rw [if_neg (by rw [hclose]; decide), if_neg (by rw [hclose]; decide), if_pos hclose,
          if_pos hclose, getField_plain hname, ih.1 fun p hp => h p (List.mem_cons_of_mem _ hp)]
        rfl
      rw [if_neg hclose] at h
      split at h
      · exact absurd (h (.char '{') (by simp)) hbrace
      rename_i hc
      split at h
      · exact absurd (h (.char '{') (by simp)) hbrace
      · rename_i hcolon
        have hc' := plain_open h c (by simp)
        rw [if_neg hc, if_neg hc'.2.1, if_neg hclose, if_neg hcolon, if_neg hc'.2.2, if_neg hclose,
          if_neg hc, if_neg hcolon]
        exact ih.2 (name ++ [c]) h

theorem joinPieces_ok {ps : List Piece} (h : ∀ name, .field name ∈ ps → name ∈ subs) :
    joinPieces subs ps = .ok (ps.flatMap (Piece.fill subs.get?)) := by
  induction ps with
  | nil => rfl
  | cons p ps ih =>
    rw [joinPieces, ih fun name hn => h name (List.mem_cons_of_mem _ hn), List.flatMap_cons]
    cases p with
    | char c => rfl
    | field name =>
      obtain ⟨v, hv⟩ := Dict.mem_iff_get?_isSome.1 (h name List.mem_cons_self)
      simp only [Piece.value, Piece.fill, hv]
      rfl

theorem mem_fieldNames {text name : Str} : name ∈ fieldNames text ↔ .field name ∈ pieces text := by
  simp only [fieldNames, List.mem_filterMap]
  constructor
  · rintro ⟨p, hp, h⟩
    cases p with
    | char c => cases h
    | field name' =>
      cases h
      exact hp
  · exact fun h => ⟨_, h, rfl⟩

/-- A plain text whose fields all have values is filled in with them. -/
theorem format_plain {text : Str} (h : Plain py text) (hd : ∀ name ∈ fieldNames text, name ∈ subs) :
    format py subs text = .ok (substitute subs.get? text) := by
  rw [format, (formatFrom_plain text).1 h]
  exact joinPieces_ok fun name hn => hd name (mem_fieldNames.2 hn)

end Plain

end Py
end OpenBmc
