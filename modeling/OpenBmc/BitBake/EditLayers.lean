import OpenBmc.BitBake.EditMetadata
import OpenBmc.Py.Fnmatch

/-!
# Editing `bblayers.conf`

`edit_bblayers_conf` goes over the file twice: the first pass collects the layers and the operators,
the second removes and adds. What is still to be added then gets lines of its own. The file is given
by its lines.
-/

namespace OpenBmc
namespace BitBake
open Py

/-! ### Paths -/

/-- The environment, as far as paths depend on it. -/
structure LayerEnv where
  /-- `HOME` is one of the approved variables. -/
  homeApproved : Bool
  /-- The home directory of the user. -/
  home : Option Str
  homeOf : Str → Option Str

/-- `os.path.expanduser`. -/
def LayerEnv.expanduser (env : LayerEnv) (path : Str) : Str :=
  match path with
  | '~' :: t =>
    let user := t.takeWhile (· ≠ '/')
    match if user = [] then env.home else env.homeOf user with
    | none => path
    | some userhome =>
      let p := userhome.rdropWhile (· = '/') ++ t.dropWhile (· ≠ '/')
      if p = [] then ['/'] else p
  | _ => path

def removeTrailingSep (pth : Str) : Str := if pth.getLast? = some '/' then pth.dropLast else pth

def LayerEnv.canonicalisePath (env : LayerEnv) (pth : Str) : Str :=
  let pth := removeTrailingSep pth
  if env.homeApproved && pth.contains '~' then env.expanduser pth else pth

/-! ### Arguments -/

inductive LayerArg
  | none
  | one (s : Str)
  | many (l : List Str)

def layerlistParam : LayerArg → List Str
  | .none => []
  | .one s => if s = [] then [] else [removeTrailingSep s]
  | .many l => l.map removeTrailingSep

/-! ### The passes -/

def bblayersName : Str := "BBLAYERS".toList

section Passes
variable (env : LayerEnv)

/-- `handle_bblayers_firstpass`, which keeps `bblayercalls` and `orig_bblayers`. -/
def handleFirstpass : VarFunc (List Str × List Str) := fun _ origvalue op newlines s =>
  let orig := if op = ['='] then [] else s.2
  (⟨some (.text origvalue), none, .spaces 2, false⟩, newlines,
    (s.1 ++ [op], orig ++ (words origvalue).map env.canonicalisePath))

/-- The layer matches the entry of `removelayers`. -/
def LayerEnv.layerMatches (removelayer layer : Str) : Bool :=
  fnmatch (env.canonicalisePath layer) (env.canonicalisePath removelayer)

structure LayerPass where
  bblayers : List Str
  removed : List Str
  updated : Bool

/-- One entry of `removelayers` takes the first layer that it matches. -/
def LayerPass.remove (p : LayerPass) (removelayer : Str) : LayerPass :=
  match p.bblayers.find? (env.layerMatches removelayer) with
  | some layer => ⟨p.bblayers.erase layer, p.removed ++ [removelayer], true⟩
  | none => p

def LayerPass.add (p : LayerPass) (addlayer : Str) : LayerPass :=
  if addlayer ∈ p.bblayers then p
  else { p with bblayers := p.bblayers ++ [addlayer], updated := true }

/-- The entries behind `edit_cb`. -/
def LayerPass.editCb (editCb : Option (Str → Str → Str)) (p : LayerPass) : LayerPass :=
  match editCb with
  | none => p
  | some cb =>
    let newlist := p.bblayers.map fun layer => cb layer (env.canonicalisePath layer)
    { p with bblayers := newlist, updated := p.updated || newlist ≠ p.bblayers }

/-- `handle_bblayers`, which keeps `removed` and `addlayers`. -/
def handleBblayers (removelayers : List Str) (plusequals : Bool)
    (editCb : Option (Str → Str → Str)) : VarFunc (List Str × List Str) :=
  fun _ origvalue op newlines s =>
    let p : LayerPass := ⟨(words origvalue).map removeTrailingSep, s.1, false⟩
    let p := removelayers.foldl (LayerPass.remove env) p
    let (p, addlayers) :=
      if s.2 ≠ [] && !plusequals then (s.2.foldl LayerPass.add p, []) else (p, s.2)
    let p := p.editCb env editCb
    let newvalue :=
      if p.updated then
        if op = "+=".toList ∧ p.bblayers = [] then none else some (.items p.bblayers)
      else some (.text origvalue)
    (⟨newvalue, none, .spaces 2, false⟩, newlines, (p.removed, addlayers))

end Passes

/-! ### The edit -/

/-- `'BBLAYERS += "%s"\n' % addlayer`. -/
def addLine (addlayer : Str) : Str := "BBLAYERS += \"".toList ++ addlayer ++ "\"\n".toList

structure LayersEdit where
  /-- The file afterwards. -/
  lines : List Str
  notadded : List Str
  notremoved : Finset Str
deriving DecidableEq

/-- `edit_bblayers_conf`; nothing when `BBLAYERS` is not found, which is an error. -/
def editBblayersConf (env : LayerEnv) (conf : List Str) (add remove : LayerArg)
    (editCb : Option (Str → Str → Str)) : Option LayersEdit :=
  let addlayers := layerlistParam add
  let removelayers := layerlistParam remove
  let first := editMetadata (handleFirstpass env) conf [bblayersName] false ([], [])
  let newlines := first.1.2
  let bblayercalls := first.2.1
  let origBblayers := first.2.2
  if bblayercalls = [] then none
  else
    let plusequals := decide (bblayercalls.count "+=".toList > 1)
    let removelayersCanon := removelayers.map env.canonicalisePath
    let notadded := addlayers.filter fun layer =>
      env.canonicalisePath layer ∈ origBblayers ∧ env.canonicalisePath layer ∉ removelayersCanon
    let notaddedCanon := notadded.map env.canonicalisePath
    let addlayers := addlayers.filter fun layer => env.canonicalisePath layer ∉ notaddedCanon
    let second := editMetadata (handleBblayers env removelayers plusequals editCb) newlines
      [bblayersName] false ([], addlayers)
    let newlines := second.1.2 ++ second.2.2.map addLine
    let updated := second.1.1 || second.2.2 ≠ []
    some ⟨if updated then newlines else conf, notadded,
      removelayers.toFinset \ second.2.1.toFinset⟩

end BitBake
end OpenBmc
