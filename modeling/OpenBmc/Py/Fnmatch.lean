import OpenBmc.Py.Str

/-!
# `fnmatch`

Shell patterns: `*`, `?` and sets `[seq]`, `[!seq]` with ranges. File names are compared as they are,
as on every POSIX system.
-/

namespace OpenBmc
namespace Py

inductive Glob
  | star
  | any
  | one (c : Char)
  | set (negated : Bool) (ranges : List (Char × Char))
deriving DecidableEq

/-- What stands behind a `[`: whether the set is negated, its text, and the text behind its `]`. A
`]` that comes first is of the set. -/
def closeSet (s : Str) : Option (Bool × Str × Str) :=
  let (negated, t) := match s with
    | '!' :: t => (true, t)
    | t => (false, t)
  let (first, u) := match t with
    | ']' :: u => ([']'], u)
    | u => ([], u)
  match partition ']' u with
  | (b, some a) => some (negated, first ++ b, a)
  | (_, none) => none

/-- A hyphen between two characters makes a range of them. -/
def setRanges : Str → List (Char × Char)
  | x :: '-' :: y :: rest => (x, y) :: setRanges rest
  | x :: rest => (x, x) :: setRanges rest
  | [] => []

/-- A pattern, with its length as fuel. A `[` that is not closed is a character. -/
def globTokens : Nat → Str → List Glob
  | 0, _ => []
  | _ + 1, [] => []
  | n + 1, '*' :: s => .star :: globTokens n s
  | n + 1, '?' :: s => .any :: globTokens n s
  | n + 1, '[' :: s =>
    match closeSet s with
    | some (negated, stuff, rest) => .set negated (setRanges stuff) :: globTokens n rest
    | none => .one '[' :: globTokens n s
  | n + 1, c :: s => .one c :: globTokens n s

def Glob.takes : Glob → Char → Bool
  | .star, _ => false
  | .any, _ => true
  | .one d, c => c = d
  | .set negated ranges, c =>
    negated != ranges.any fun r => decide (r.1.toNat ≤ c.toNat ∧ c.toNat ≤ r.2.toNat)

def globMatch : List Glob → Str → Bool
  | [], s => s.isEmpty
  | .star :: ps, s => s.tails.any (globMatch ps)
  | p :: ps, c :: cs => p.takes c && globMatch ps cs
  | _ :: _, [] => false

/-- `fnmatch.fnmatch(name, pat)`. -/
def fnmatch (name pat : Str) : Bool := globMatch (globTokens pat.length pat) name

end Py
end OpenBmc
