import OpenBmc.Py.Double
import Mathlib.Data.Prod.Lex
import Mathlib.Data.List.Lex

/-!
# Versions of products

`Version` reads a release, a part for patches and a part for pre-releases, and compares the keys of
`_cmpkey`. Behind a release without a letter the suffix `alphabetical` takes the first letter of a
pre-release for the letter: `fields` says what is read of a version that has the right form.
-/

namespace OpenBmc
namespace Cve
open Py

/-! ### Reading -/

/-- A character with its case ignored, as `re.IGNORECASE` has it for the letters of the
expressions. -/
def fold (c : Char) : Char :=
  if c.toNat = 0x130 ∨ c.toNat = 0x131 then 'i'
  else if c.toNat = 0x17F then 's'
  else if c.toNat = 0x212A then 'k'
  else c.toLower

/-- `str.upper` of one character that `[a-z]` matches. -/
def upperChar (c : Char) : Char :=
  if c.toNat = 0x131 then 'I' else if c.toNat = 0x17F then 'S' else c.toUpper

/-- The text behind the word `w` of an expression. -/
def lit (w s : Str) : Option Str :=
  if (s.take w.length).map fold = w then some (s.drop w.length) else none

/-- The text behind `[-_\.]?`. -/
def skipSep : Str → Str
  | [] => []
  | c :: s => if c = '-' ∨ c = '_' ∨ c = '.' then s else c :: s

/-- `(?:[-\.][0-9]+)*`, for a text of at most `fuel` characters: the components and the rest. -/
def components : ℕ → Str → List Str × Str
  | 0, s => ([], s)
  | _ + 1, [] => ([], [])
  | fuel + 1, c :: s =>
    if (c = '-' ∨ c = '.') ∧ s.takeWhile Char.isDigit ≠ [] then
      let r := components fuel (s.dropWhile Char.isDigit)
      (s.takeWhile Char.isDigit :: r.1, r.2)
    else ([], c :: s)

/-- Digits, and the text behind them. -/
def digits (s : Str) : Option (Str × Str) :=
  if s.takeWhile Char.isDigit = [] then none
  else some (s.takeWhile Char.isDigit, s.dropWhile Char.isDigit)

/-- The group `patch` of the expression for a suffix. -/
def patchGroup (suffix s : Str) : Option (Str × Str) :=
  if suffix = "alphabetical".toList then
    match skipSep s with
    | c :: r => if (fold c).isLower then some ([c], r) else none
    | [] => none
  else if suffix = "patch".toList then
    ((lit ['p'] (skipSep s)).bind digits).or ((lit "patch".toList (skipSep s)).bind digits)
  else none

def stages : List Str :=
  ["rc".toList, "alpha".toList, "beta".toList, "pre".toList, "preview".toList, "dev".toList]

/-- The group `pre`: the stage, the number if there is one, and the rest. -/
def preGroup (s : Str) : Option (Str × Option Str × Str) :=
  stages.findSome? fun stage => (lit stage (skipSep s)).map fun r =>
    match digits (skipSep r) with
    | some (n, rest) => ((skipSep s).take stage.length, some n, rest)
    | none => ((skipSep s).take stage.length, none, skipSep r)

/-- `(.*)?\s*$`. -/
def tailOk (s : Str) : Bool := (s.dropWhile (· ≠ '\n')).all isSpace

/-- `_Version`. -/
structure Fields where
  release : List ℕ
  patchL : Str
  preL : Option Str
  preV : Option Str
deriving DecidableEq

/-- The fields of a version, or none where it is invalid. -/
def readVersion (suffix version : Str) : Option Fields :=
  let s := version.dropWhile isSpace
  let s := (lit ['r'] s).getD s
  let s := (lit ['v'] s).getD s
  (digits s).bind fun first =>
    let release := components first.2.length first.2
    let patch := patchGroup suffix release.2
    let s := (patch.map Prod.snd).getD release.2
    let pre := preGroup s
    let s := (pre.map fun p => p.2.2).getD s
    if tailOk s then
      some ⟨(first.1 :: release.1).map digitsVal, (patch.map Prod.fst).getD [],
        pre.map Prod.fst, pre.bind fun p => p.2.1⟩
    else none

/-! ### Keys -/

/-- Of a double: a natural number or an infinity. -/
abbrev Number := WithBot (WithTop ℕ)

abbrev Key := List ℕ ×ₗ Str ×ₗ Number

def cmpkey (f : Fields) : Key :=
  let release := f.release.rdropWhile (· = 0)
  let patch := f.patchL.map upperChar
  let pre : Number :=
    if f.preL = none ∧ f.preV = none then some ⊤
    else
      match f.preV with
      | some v => some (toDouble (digitsVal v))
      | none => ⊥
  toLex (release, toLex (patch, pre))

/-- `self == other`, `self > other` and what `total_ordering` makes of them. -/
def eq (a b : Fields) : Bool := cmpkey a = cmpkey b

def gt (a b : Fields) : Bool := cmpkey b < cmpkey a

def lt (a b : Fields) : Bool := !gt a b && !eq a b

def ge (a b : Fields) : Bool := gt a b || eq a b

def le (a b : Fields) : Bool := !gt a b

/-! ### The forms -/

inductive Sep
  | dash
  | underscore
  | dot

def Sep.char : Sep → Char
  | dash => '-'
  | underscore => '_'
  | dot => '.'

def sepText : Option Sep → Str
  | none => []
  | some sep => [sep.char]

/-- What stands between two components of a release. -/
inductive Joint
  | dash
  | dot

def Joint.char : Joint → Char
  | dash => '-'
  | dot => '.'

abbrev Digits := { s : Str // s ≠ [] ∧ ∀ c ∈ s, c.isDigit }

inductive Stage
  | dev
  | alpha
  | beta
  | rc
deriving DecidableEq

def Stage.word : Stage → Str
  | dev => "dev".toList
  | alpha => "alpha".toList
  | beta => "beta".toList
  | rc => "rc".toList

/-- A pre-release: its stage, in any case, and a number. -/
structure Pre where
  sep : Option Sep
  stage : Stage
  word : Str
  word_eq : word.map fold = stage.word
  number : Option (Option Sep × Digits)

inductive Patch
  | letter (sep : Option Sep) (c : Char) (h : c.isAlpha)
  | number (sep : Option Sep) (word : Str)
    (h : word.map fold = ['p'] ∨ word.map fold = "patch".toList) (n : Digits)

def Patch.Fits (suffix : Str) : Patch → Prop
  | .letter .. => suffix = "alphabetical".toList
  | .number .. => suffix = "patch".toList

/-- A release, a part for patches of the kind that the suffix says, and a pre-release. -/
structure Form (suffix : Str) where
  first : Digits
  rest : List (Joint × Digits)
  patch : Option Patch
  pre : Option Pre
  fits : ∀ q ∈ patch, q.Fits suffix

def numberText : Option (Option Sep × Digits) → Str
  | none => []
  | some n => sepText n.1 ++ n.2.1

def Pre.text (p : Pre) : Str := sepText p.sep ++ (p.word ++ numberText p.number)

def preText : Option Pre → Str
  | none => []
  | some p => p.text

def Patch.text : Patch → Str
  | .letter sep c _ => sepText sep ++ [c]
  | .number sep word _ n => sepText sep ++ (word ++ n.1)

def patchText : Option Patch → Str
  | none => []
  | some q => q.text

/-- What `patch_l` is of a part for patches. -/
def Patch.value : Patch → Str
  | .letter _ c _ => [c]
  | .number _ _ _ n => n.1

namespace Form
variable {suffix : Str} (f : Form suffix)

def releaseText : Str := f.first.1 ++ f.rest.flatMap fun c => c.1.char :: c.2.1

def render : Str := f.releaseText ++ (patchText f.patch ++ preText f.pre)

def release : List ℕ := digitsVal f.first.1 :: f.rest.map fun c => digitsVal c.2.1

/-- A pre-release without a letter, which the suffix reads as a letter. -/
def Misread : Prop := suffix = "alphabetical".toList ∧ f.patch = none ∧ f.pre ≠ none

instance : Decidable f.Misread :=
  have : Decidable (f.patch = none) := decidable_of_iff _ Option.isNone_iff_eq_none
  have : Decidable (f.pre = none) := decidable_of_iff _ Option.isNone_iff_eq_none
  inferInstanceAs (Decidable (_ ∧ _ ∧ _))

/-- What is read of the version. -/
def fields : Fields :=
  if f.Misread then ⟨f.release, (f.pre.map fun p => p.word.take 1).getD [], none, none⟩
  else
    ⟨f.release, (f.patch.map Patch.value).getD [], f.pre.map Pre.word,
      f.pre.bind fun p => p.number.map fun n => n.2.1⟩

end Form

end Cve
end OpenBmc
