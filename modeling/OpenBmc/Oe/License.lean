import OpenBmc.Py.Ast
import OpenBmc.Py.Fnmatch
import OpenBmc.Py.Sorted

/-!
# License strings

`oe.license` reads a license string as a Python expression: names become string literals, names side
by side are joined by `&`. A visitor flattens the expression by selecting one side of each `|`.
-/

namespace OpenBmc
namespace Oe
open Py

/-- Return False if License exist in dont_want_licenses else True -/
def licenseOk (license : Str) (dontWantLicenses : List Str) : Bool :=
  !dontWantLicenses.any fun dwl => fnmatch license dwl

inductive LicenseError
  | licenseSyntaxError (licensestr : Str)
  | invalidLicense (license : Str)
deriving DecidableEq

def licenseOperatorChars : Str := "&|() ".toList

/-- A character of `license_pattern`. -/
def isLicenseChar (c : Char) : Bool := c.isAlphanum || ".+_-".toList.contains c

/-- `license_pattern.match(element)`: `$` also matches before a newline at the end. -/
def isLicense (element : Str) : Bool :=
  element.takeWhile isLicenseChar ≠ [] &&
    (element.dropWhile isLicenseChar == [] || element.dropWhile isLicenseChar == ['\n'])

/-- `license_operator.split(licensestr)`: the operators are pieces themselves. -/
def operatorSplit : Str → List Str
  | [] => [[]]
  | c :: s =>
    if c ∈ licenseOperatorChars then [] :: [c] :: operatorSplit s
    else match operatorSplit s with
      | p :: ps => (c :: p) :: ps
      | [] => [[c]]

/-- The pieces of a license string that are not blank. -/
def licensePieces (licensestr : Str) : List Str :=
  (operatorSplit licensestr).filter fun x => strip x ≠ []

/-- An element that is an operator, as Python reads it. -/
def operatorToken : Str → Option Ast.Token
  | ['&'] => some .amp
  | ['|'] => some .bar
  | ['('] => some .lpar
  | [')'] => some .rpar
  | _ => none

/-- The loop body of `get_elements`: what is appended for `element`; `prev` is the element before. -/
def newElements (prev : Option Str) (element : Str) : Except LicenseError (List Ast.Token) :=
  if isLicense element then
    .ok ((if prev.any isLicense then [.amp] else []) ++ [.string element])
  else match operatorToken element with
    | some t => .ok [t]
    | none => .error (.invalidLicense element)

def elementsFrom : Option Str → List Str → Except LicenseError (List Ast.Token)
  | _, [] => .ok []
  | prev, element :: elements => do
    let new ← newElements prev element
    let rest ← elementsFrom (some element) elements
    .ok (new ++ rest)

/-- Get elements based on OpenEmbedded license strings -/
def getElements (licensestr : Str) : Except LicenseError (List Ast.Token) :=
  elementsFrom none (licensePieces licensestr)

/-- `FlattenVisitor.visit`: `generic_visit` goes through the fields of a node in their order. -/
def flattenVisitor (chooseLicenses : List Str → List Str → List Str) : Ast.Node → List Str
  | .constant value => [value]
  | .binOp left .bitOr right =>
    chooseLicenses (flattenVisitor chooseLicenses left) (flattenVisitor chooseLicenses right)
  | .binOp left .bitAnd right =>
    flattenVisitor chooseLicenses left ++ flattenVisitor chooseLicenses right
  | .call func => flattenVisitor chooseLicenses func
  | .callArg func arg => flattenVisitor chooseLicenses func ++ flattenVisitor chooseLicenses arg
  | .subscript value slice =>
    flattenVisitor chooseLicenses value ++ flattenVisitor chooseLicenses slice
  | .emptyTuple => []
  | .emptyList => []
  | .list elt => flattenVisitor chooseLicenses elt

/-- Given a license string and choose_licenses function, return a flat list of licenses -/
def flattenedLicenses (licensestr : Str) (chooseLicenses : List Str → List Str → List Str) :
    Except LicenseError (List Str) := do
  let elements ← getElements licensestr
  match Ast.parse elements with
  | none => .error (.licenseSyntaxError licensestr)
  | some none => .ok []
  | some (some n) => .ok (flattenVisitor chooseLicenses n)

/-! ### `is_included` -/

/-- `any(fnmatch(license, pattern) for pattern in patterns)`. -/
def matchesAny (patterns : List Str) (license : Str) : Bool :=
  patterns.any fun pattern => fnmatch license pattern

/-- The weight of an option: its included licenses, and 1000 less for one with excluded licenses. -/
def optionWeight (includeLicenses excludeLicenses : List Str) (option : List Str) : Int :=
  ((option.filter (matchesAny includeLicenses)).length : Int) -
    1000 * if 0 < (option.filter (matchesAny excludeLicenses)).length then 1 else 0

/-- Select the option in an OR which is the 'best' (has the most included licenses and no excluded
licenses). -/
def chooseLicenses (includeLicenses excludeLicenses : List Str) (alpha beta : List Str) :
    List Str :=
  if optionWeight includeLicenses excludeLicenses alpha ≥
      optionWeight includeLicenses excludeLicenses beta then alpha else beta

/-- The list of licenses to include; `None` and the empty list stand for all. -/
def includesOrAll (includeLicenses : List Str) : List Str :=
  if includeLicenses = [] then [['*']] else includeLicenses

/-- Whether the license string matches the include list and does not match the exclude list, and the
licenses that were included, or those that were excluded. -/
def isIncluded (licensestr : Str) (includeLicenses excludeLicenses : List Str) :
    Except LicenseError (Bool × List Str) := do
  let includeLicenses := includesOrAll includeLicenses
  let licenses ← flattenedLicenses licensestr (chooseLicenses includeLicenses excludeLicenses)
  let excluded := licenses.filter (matchesAny excludeLicenses)
  let included := licenses.filter (matchesAny includeLicenses)
  if excluded ≠ [] then .ok (false, excluded) else .ok (true, included)

/-! ### `incompatible_pkg_license` -/

/-- Return the canonical (SPDX) form of the license if available (so GPLv3 becomes GPL-3.0-only) or
the passed license if there is no canonical form. `spdx` is `d.getVarFlag('SPDXLICENSEMAP', _)`. -/
def canonicalLicense (spdx : Str → Option Str) (license : Str) : Str :=
  match spdx license with
  | some l => if l = [] then license else l
  | none => license

/-- Handles an "or" or two license sets provided by flattened_licenses(), pick one that works if
possible. -/
def chooseLicSet (spdx : Str → Option Str) (dontWantLicenses : List Str) (a b : List Str) :
    List Str :=
  if a.all fun lic => licenseOk (canonicalLicense spdx lic) dontWantLicenses then a else b

/-- The licenses that a package cannot do without and that are not wanted. An error is given to
`bb.fatal`. -/
def incompatiblePkgLicense (spdx : Str → Option Str) (dontWantLicenses : List Str)
    (license : Str) : Except LicenseError (List Str) := do
  let licenses ← flattenedLicenses license (chooseLicSet spdx dontWantLicenses)
  .ok (sortedBy id
    ((licenses.map (canonicalLicense spdx)).filter fun l => !licenseOk l dontWantLicenses))

end Oe
end OpenBmc
