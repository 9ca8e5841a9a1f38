import OpenBmc.BitBake.EditMetadata

/-!
# What a metadata file holds

A file is a list of items: lines that set nothing, and the assignments and function bodies of the
variables in question, each with its lines and its value as written. What stands behind the last one
that is never closed is the file's tail. Editing goes over the items: an assignment is put back or
replaced as a whole.
-/

namespace OpenBmc
namespace BitBake
open Py

/-! ### Assignments -/

/-- An assignment or a function body, as far as it was read. -/
structure Setting where
  opening : Opening
  first : Str
  more : List Str
deriving DecidableEq

/-- A piece without the backslash that continues it on the next line. -/
def dropContinuation (p : Str) : Str := if ['\\'].isSuffixOf p then p.dropLast else p

namespace Setting

def name (s : Setting) : Str := s.opening.inVar

def op (s : Setting) : Str := strip (s.opening.varsetStart.drop s.name.length)

def lines (s : Setting) : List Str := s.first :: s.more

def isFunc (s : Setting) : Bool := isFuncName s.name

def add (s : Setting) (l : Str) : Setting := { s with more := s.more ++ [l] }

/-- The end of the last line, without white space behind it. -/
def lastPiece (s : Setting) : Str := rstrip (s.more.getLast?.getD s.opening.rest)

/-- The value and the delimiter that closes it: the lines of a function, and for a variable the
continued lines joined. -/
def text (s : Setting) : Str :=
  if s.isFunc then rstrip s.opening.rest ++ s.more.flatMap fun l => '\n' :: rstrip l
  else dropContinuation (rstrip s.opening.rest) ++ s.more.flatMap fun l => dropContinuation (rstrip l)

/-- The value as written. -/
def value (s : Setting) : Str := s.text.dropLast

/-- The closing quote stands at the end of the last line; for a function, the brace that is one more
than those opened. -/
def closed (s : Setting) : Bool :=
  s.opening.varEnd.isSuffixOf s.lastPiece &&
    (!s.isFunc || s.text.count '{' < s.text.count '}')

end Setting

/-! ### Items -/

inductive Item
  | line (l : Str)
  | setting (s : Setting)
deriving DecidableEq

def Item.lines : Item → List Str
  | .line l => [l]
  | .setting s => s.lines

structure MetaFile where
  items : List Item
  /-- The lines of an assignment that is never closed. -/
  tail : List Str
deriving DecidableEq

def MetaFile.cons (i : Item) (f : MetaFile) : MetaFile := ⟨i :: f.items, f.tail⟩

def MetaFile.lines (f : MetaFile) : List Str := f.items.flatMap Item.lines ++ f.tail

/-- The file of some lines, behind an assignment that is still open. -/
def readFrom (opens : Str → Option Opening) : Option Setting → List Str → MetaFile
  | none, [] => ⟨[], []⟩
  | some s, [] => ⟨[], s.lines⟩
  | none, l :: ls =>
    match opens l with
    | none => (readFrom opens none ls).cons (.line l)
    | some o =>
      let s : Setting := ⟨o, l, []⟩
      if s.closed then (readFrom opens none ls).cons (.setting s) else readFrom opens (some s) ls
  | some s, l :: ls =>
    let s := s.add l
    if s.closed then (readFrom opens none ls).cons (.setting s) else readFrom opens (some s) ls

/-- The file's lines, read for some plain names. -/
def readMetaFile (vars lines : List Str) : MetaFile := readFrom (findOpening false vars) none lines

section Read
variable {opens : Str → Option Opening} {l : Str} {ls : List Str}

theorem readFrom_line (ho : opens l = none) :
    readFrom opens none (l :: ls) = (readFrom opens none ls).cons (.line l) := by
  simp only [readFrom, ho]

theorem readFrom_setting {o : Opening} (ho : opens l = some o)
    (hc : (⟨o, l, []⟩ : Setting).closed) :
    readFrom opens none (l :: ls) = (readFrom opens none ls).cons (.setting ⟨o, l, []⟩) := by
  simp only [readFrom, ho, hc, if_true]

theorem readFrom_open {o : Opening} (ho : opens l = some o)
    (hc : ¬ (⟨o, l, []⟩ : Setting).closed) :
    readFrom opens none (l :: ls) = readFrom opens (some ⟨o, l, []⟩) ls := by
  simp only [readFrom, ho, if_neg hc]

theorem readFrom_close {s : Setting} (hc : (s.add l).closed) :
    readFrom opens (some s) (l :: ls) = (readFrom opens none ls).cons (.setting (s.add l)) := by
  simp only [readFrom, hc, if_true]

theorem readFrom_more {s : Setting} (hc : ¬ (s.add l).closed) :
    readFrom opens (some s) (l :: ls) = readFrom opens (some (s.add l)) ls := by
  simp only [readFrom, if_neg hc]

end Read

@[simp] theorem MetaFile.lines_cons (i : Item) (f : MetaFile) :
    (f.cons i).lines = i.lines ++ f.lines := by
  simp [MetaFile.cons, MetaFile.lines]

theorem Setting.lines_add (s : Setting) (l : Str) : (s.add l).lines = s.lines ++ [l] := rfl

theorem lines_readFrom (opens : Str → Option Opening) : ∀ (p : Option Setting) (ls : List Str),
    (readFrom opens p ls).lines = (p.elim [] Setting.lines) ++ ls
  | none, [] => rfl
  | some s, [] => by simp [readFrom, MetaFile.lines]
  | none, l :: ls => by
    cases ho : opens l with
    | none => rw [readFrom_line ho, MetaFile.lines_cons, lines_readFrom opens none ls]; rfl
    | some o =>
      by_cases hc : (⟨o, l, []⟩ : Setting).closed
      · rw [readFrom_setting ho hc, MetaFile.lines_cons, lines_readFrom opens none ls]; rfl
      · rw [readFrom_open ho hc, lines_readFrom opens _ ls]; rfl
  | some s, l :: ls => by
    have hadd : (s.add l).lines ++ ls = s.lines ++ l :: ls := by simp [Setting.lines_add]
    by_cases hc : (s.add l).closed
    · rw [readFrom_close hc, MetaFile.lines_cons, lines_readFrom opens none ls]
      exact hadd
    · rw [readFrom_more hc, lines_readFrom opens _ ls]
      exact hadd

/-- A file is nothing but its lines, in order. -/
theorem lines_readMetaFile (vars ls : List Str) : (readMetaFile vars ls).lines = ls :=
  lines_readFrom _ none ls

/-! ### Editing -/

abbrev Call := Str × Str × Str

/-- The calls for the assignments: the name, the value as written and the operator. -/
def MetaFile.calls (f : MetaFile) : List Call :=
  f.items.filterMap fun
    | .line _ => none
    | .setting s => some (s.name, s.value, s.op)

structure Edited (σ : Type) where
  updated : Bool
  newlines : List Str
  /-- An assignment was changed, and no other line has come since. -/
  afterChange : Bool
  env : σ

section Edit
variable {σ : Type} (varfunc : VarFunc σ)

/-- A line of no assignment is kept. A blank one is not where the one before is blank as well, after
a change. -/
def Edited.line (e : Edited σ) (l : Str) : Edited σ :=
  if e.afterChange ∧ e.newlines.getLast? = some ['\n'] ∧ l = ['\n'] then
    { e with afterChange := false }
  else { e with afterChange := false, newlines := e.newlines ++ [l] }

/-- The lines `ls` of an assignment, or what the callback has in their place. -/
def Edited.put (e : Edited σ) (name start value : Str) (ls : List Str) : Edited σ :=
  let op := strip (start.drop name.length)
  let (a, _, env) := varfunc name value op e.newlines e.env
  match a.replacement name start op value with
  | some new => ⟨true, e.newlines ++ new, true, env⟩
  | none => { e with newlines := e.newlines ++ ls, env := env }

def Edited.item (e : Edited σ) : Item → Edited σ
  | .line l => e.line l
  | .setting s => e.put varfunc s.name s.opening.varsetStart s.value s.lines

def MetaFile.edit (f : MetaFile) (s : σ) : Edited σ :=
  f.items.foldl (Edited.item varfunc) ⟨false, [], false, s⟩

/-- The callback never changes the list of lines it is given. -/
def KeepsLines : Prop :=
  ∀ name value op newlines s, (varfunc name value op newlines s).2.1 = newlines

/-- The callback that writes down what it is called with. -/
def traced : VarFunc (σ × List Call) := fun name value op newlines s =>
  let (a, newlines, env) := varfunc name value op newlines s.1
  (a, newlines, (env, s.2 ++ [(name, value, op)]))

/-- The callback that changes nothing. -/
def identity : VarFunc Unit := fun _ value _ newlines s =>
  (⟨some (.text value), none, .spaces 0, true⟩, newlines, s)

/-- Metadata edits touch only what they edit. -/
structure EditsOnly (vars lines : List Str) (s : σ) : Prop where
  calls : (editMetadata (traced varfunc) lines vars false (s, [])).2.2 =
    (readMetaFile vars lines).calls
  frame : (editMetadata varfunc lines vars false s).1.2 =
    ((readMetaFile vars lines).edit varfunc s).newlines ++ (readMetaFile vars lines).tail
  identity : (editMetadata identity lines vars false ()).1 = (false, lines)

end Edit

end BitBake
end OpenBmc
