import OpenBmc.Oe.License

/-!
# License manifests

`manifest_licenses` writes a license string without the unwanted licenses. Groups are lists for
Python here. The visitor writes in the order of the walk: a license as it is met, with the operators
and opening brackets that were met since the last one that was written, and a closing bracket at
once.
-/

namespace OpenBmc
namespace Oe
open Py

/-- An entry of `self._operators`: a `[`, or an operator. A `]` is written at once and is never one. -/
inductive Pending
  | opening
  | op (o : Ast.BinOperator)
deriving DecidableEq

/-- The fields of a `ManifestVisitor`. -/
structure ManifestVisitor where
  operators : List Pending
  licenses : List Str
  licensestr : Str
deriving DecidableEq

def operatorChar : Ast.BinOperator → Char
  | .bitAnd => '&'
  | .bitOr => '|'

/-- The loop over `self._operators`: of operators in a row the last one stays. -/
def squashOperator (ops : List Pending) : Pending → List Pending
  | .opening => ops ++ [.opening]
  | .op o =>
    match ops.getLast? with
    | some (.op _) => ops.dropLast ++ [.op o]
    | _ => ops ++ [.op o]

def squash (operators : List Pending) : List Pending := operators.foldl squashOperator []

/-- The loop over `ops`: no operator before the first license. -/
def writeOperator (licenses : List Str) (licensestr : Str) : Pending → Str
  | .opening => licensestr ++ ['[']
  | .op o => if licenses ≠ [] then licensestr ++ [' ', operatorChar o, ' '] else licensestr

namespace ManifestVisitor

/-- `visit` on a license. -/
def visitStr (wanted : Str → Bool) (lic : Str) (v : ManifestVisitor) : ManifestVisitor :=
  if wanted lic then
    { operators := []
      licenses := v.licenses ++ [lic]
      licensestr := (squash v.operators).foldl (writeOperator v.licenses) v.licensestr ++ lic }
  else v

/-- `visit` on a `BitAnd`, a `BitOr` or, before its elements, a `List`. -/
def visitOperator (op : Pending) (v : ManifestVisitor) : ManifestVisitor :=
  { v with operators := v.operators ++ [op] }

/-- `visit` on the `Load` that is the last field of lists, tuples and subscripts. -/
def visitLoad (v : ManifestVisitor) : ManifestVisitor :=
  { v with licensestr := v.licensestr ++ [']'] }

/-- `visit`: a node, then its fields. -/
def visit (wanted : Str → Bool) : Ast.Node → ManifestVisitor → ManifestVisitor
  | .constant lic, v => v.visitStr wanted lic
  | .binOp left op right, v => ((v.visit wanted left).visitOperator (.op op)).visit wanted right
  | .call func, v => v.visit wanted func
  | .callArg func arg, v => (v.visit wanted func).visit wanted arg
  | .subscript value slice, v => ((v.visit wanted value).visit wanted slice).visitLoad
  | .emptyTuple, v => v.visitLoad
  | .emptyList, v => (v.visitOperator .opening).visitLoad
  | .list elt, v => ((v.visitOperator .opening).visit wanted elt).visitLoad

end ManifestVisitor

/-- Replace '()' to '[]' for handle in ast as List and Load types. -/
def squareToken : Ast.Token → Ast.Token
  | .lpar => .lsqb
  | .rpar => .rsqb
  | t => t

/-- Replace '[]' to '()' for output correct license. -/
def roundChar (c : Char) : Char := if c = '[' then '(' else if c = ']' then ')' else c

/-- Given a license string and dont_want_licenses list, return license string filtered and a list of
licenses -/
def manifestLicenses (licensestr : Str) (dontWantLicenses : List Str)
    (canonicalLicense : Str → Str) : Except LicenseError (Str × List Str) := do
  let wanted := fun lic => licenseOk (canonicalLicense lic) dontWantLicenses
  let elements ← getElements licensestr
  match Ast.parse (elements.map squareToken) with
  | none => .error (.licenseSyntaxError licensestr)
  | some none => .ok ([], [])
  | some (some n) =>
    let manifest := ManifestVisitor.visit wanted n ⟨[], [], []⟩
    .ok (manifest.licensestr.map roundChar, manifest.licenses)

end Oe
end OpenBmc
