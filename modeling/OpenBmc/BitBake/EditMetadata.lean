import OpenBmc.Py.Words

/-!
# Editing metadata files

`edit_metadata` reads a recipe or configuration file line by line and hands every assignment of the
variables it looks for, and every body of the functions, to a callback. The names are taken
literally: they are plain ones.
-/

namespace OpenBmc
namespace BitBake
open Py

/-! ### The patterns -/

/-- `[ \\t]` in a raw string: a space, a backslash or the letter `t`, no tab. -/
def isBlankClass (c : Char) : Bool := c == ' ' || c == '\\' || c == 't'

/-- `[a-zA-Z0-9-_$(){}]`. -/
def isOverrideChar (c : Char) : Bool := c.isAlphanum || "-_$()\x7b\x7d".toList.contains c

/-- Characters that are not themselves in a regular expression. -/
def isMeta (c : Char) : Bool := ".^$*+?\x7b\x7d[]\\|()".toList.contains c

/-- How much of `s` the optional group `_[...]+` takes, in the order the engine tries it. -/
def overrideLengths (s : Str) : List Nat :=
  match s with
  | '_' :: t => (List.range (t.takeWhile isOverrideChar).length).reverse.map (· + 2) ++ [0]
  | _ => [0]

/-- `[ \\t]*[?+:.]*=[+.]*[ \\t]*(["\'])`: the quote. No class meets what may follow it, so that the
engine never takes a choice back. -/
def matchOperator (s : Str) : Option Char :=
  match (s.dropWhile isBlankClass).dropWhile fun c => "?+:.".toList.contains c with
  | '=' :: t =>
    match (t.dropWhile fun c => "+.".toList.contains c).dropWhile isBlankClass with
    | c :: _ => if c = '"' ∨ c = '\'' then some c else none
    | [] => none
  | _ => none

/-- `[ \\t]*\([ \\t]*\)[ \\t]*{`: the brace. -/
def matchBrace (s : Str) : Option Char :=
  match s.dropWhile isBlankClass with
  | '(' :: t =>
    match t.dropWhile isBlankClass with
    | ')' :: u =>
      match u.dropWhile isBlankClass with
      | '{' :: _ => some '{'
      | _ => none
    | _ => none
  | _ => none

/-- `name.endswith('()')`. -/
def isFuncName (name : Str) : Bool := "()".toList.isSuffixOf name

/-- `var[:-2].rstrip()`. -/
def funcName (var : Str) : Str := rstrip (var.take (var.length - 2))

/-- A variable or function name that is a regular expression for itself. -/
def PlainName (var : Str) : Prop :=
  let name := if isFuncName var then funcName var else var
  name ≠ [] ∧ ∀ c ∈ name, ¬ isMeta c

/-- `var_re.match(line)`: the first group, and the character the value starts after. -/
def matchVar (matchOverrides : Bool) (line var : Str) : Option (Str × Char) :=
  let name := if isFuncName var then funcName var else var
  if name.isPrefixOf line then
    let rest := line.drop name.length
    (if matchOverrides then overrideLengths rest else [0]).findSome? fun n =>
      (if isFuncName var then matchBrace (rest.drop n) else matchOperator (rest.drop n)).map
        fun c => (name ++ rest.take n, c)
  else none

/-- What the first line of an assignment says. -/
structure Opening where
  /-- `in_var`: a function ends in `()`. -/
  inVar : Str
  varEnd : Str
  varsetStart : Str
  /-- The line behind the quote or brace. -/
  rest : Str
deriving DecidableEq

def openingOf (matchOverrides : Bool) (line var : Str) : Option Opening :=
  (matchVar matchOverrides line var).map fun (group, c) =>
    let (start, rest) := partition c line
    if isFuncName var then ⟨group ++ "()".toList, ['}'], rstrip start, rest.getD []⟩
    else ⟨group, [c], rstrip start, rest.getD []⟩

/-- The first of the variables whose pattern matches. A name that is listed twice has one pattern,
where it is listed first. -/
def findOpening (matchOverrides : Bool) (vars : List Str) (line : Str) : Option Opening :=
  vars.findSome? (openingOf matchOverrides line)

example : (findOpening false ["A".toList] "At = \"x\"\n".toList).map Opening.inVar = some "A".toList ∧
    findOpening false ["A".toList] "A\t= \"x\"\n".toList = none := ⟨rfl, rfl⟩

/-! ### Callbacks -/

inductive NewValue
  | text (s : Str)
  | items (l : List Str)
deriving DecidableEq

inductive Indent
  | spaces (n : Int)
  | text (s : Str)
deriving DecidableEq

/-- What the callback returns. -/
structure Answer where
  newvalue : Option NewValue
  newop : Option Str
  indent : Indent
  minbreak : Bool
deriving DecidableEq

/-- `varfunc(varname, origvalue, op, newlines)`, which may keep a state of its own and may change
`newlines`. -/
abbrev VarFunc (σ : Type) := Str → Str → Str → List Str → σ → Answer × List Str × σ

/-! ### Writing a value -/

/-- `newop not in [None, op]`. -/
def Answer.changesOp (a : Answer) (op : Str) : Bool :=
  match a.newop with
  | none => false
  | some o => o ≠ op

def Answer.varsetNew (a : Answer) (inVar varsetStart op : Str) : Str :=
  match a.newop with
  | none => varsetStart
  | some o => if o ≠ op then inVar ++ ' ' :: o else varsetStart

def Indent.space (varsetNew : Str) : Indent → Str
  | .spaces n => List.replicate (if n = -1 then varsetNew.length + 2 else n.toNat) ' '
  | .text s => s

/-- `'\n' + s` and `s + '\n'`, unless the newline is there. -/
def wrapNewlines (s : Str) : Str :=
  let s := if ['\n'].isPrefixOf s then s else '\n' :: s
  if ['\n'].isSuffixOf s then s else s ++ ['\n']

/-- `'%s%s \\\n' % (indentspc, item)`. -/
def itemLine (indentspc item : Str) : Str := indentspc ++ item ++ " \\\n".toList

/-- What is appended to `newlines` for a function. -/
def functionLines (varsetNew indentspc : Str) : NewValue → List Str
  | .items l => [varsetNew ++ " \x7b\n".toList ++ indentspc ++
      (('\n' :: indentspc).intercalate l) ++ "\n\x7d\n".toList]
  | .text s => [varsetNew ++ " \x7b".toList ++ wrapNewlines s ++ "\x7d\n".toList]

/-- What is appended to `newlines` for a variable. -/
def variableLines (varsetNew indentspc : Str) (minbreak : Bool) : NewValue → List Str
  | .items [] => [varsetNew ++ " \"\"\n".toList]
  | .items (v :: vs) =>
    let last := indentspc ++ "\"\n".toList
    if minbreak then
      if vs = [] then [varsetNew ++ " \"".toList ++ v ++ "\"\n".toList]
      else (varsetNew ++ " \"".toList ++ v ++ " \\\n".toList) ::
        (vs.map (itemLine indentspc) ++ [last])
    else (varsetNew ++ " \" \\\n".toList) :: ((v :: vs).map (itemLine indentspc) ++ [last])
  | .text s => [varsetNew ++ " \"".toList ++ s ++ "\"\n".toList]

def Answer.render (a : Answer) (inVar varsetStart op : Str) (newvalue : NewValue) : List Str :=
  let varsetNew := a.varsetNew inVar varsetStart op
  let indentspc := a.indent.space varsetNew
  if isFuncName inVar then functionLines varsetNew indentspc newvalue
  else variableLines varsetNew indentspc a.minbreak newvalue

/-- The lines that take the place of an assignment, if the answer is not to leave it as it is. -/
def Answer.replacement (a : Answer) (inVar varsetStart op fullValue : Str) : Option (List Str) :=
  match a.newvalue with
  | none => some []
  | some v =>
    if v ≠ .text fullValue ∨ a.changesOp op then some (a.render inVar varsetStart op v) else none

/-! ### The loop -/

structure EditState (σ : Type) where
  updated : Bool
  varsetStart : Str
  varlines : List Str
  newlines : List Str
  inVar : Option Str
  fullValue : Str
  varEnd : Str
  checkspc : Bool
  /-- The callback's own. -/
  env : σ

section Loop
variable {σ : Type} (varfunc : VarFunc σ)

/-- `handle_var_end`, with what it returns. -/
def handleVarEnd (inVar : Str) (st : EditState σ) : EditState σ × Bool :=
  let op := strip (st.varsetStart.drop inVar.length)
  let (a, newlines, env) := varfunc inVar st.fullValue op st.newlines st.env
  match a.replacement inVar st.varsetStart op st.fullValue with
  | some ls => ({ st with newlines := newlines ++ ls, env := env }, true)
  | none => ({ st with newlines := newlines ++ st.varlines, env := env }, st.newlines ≠ newlines)

/-- The end of an assignment. -/
def finishVar (inVar : Str) (st : EditState σ) : EditState σ :=
  match handleVarEnd varfunc inVar st with
  | (st, true) => { st with updated := true, checkspc := true, inVar := none }
  | (st, false) => { st with inVar := none }

/-- A line behind the first one of an assignment. -/
def stepInVar (inVar : Str) (st : EditState σ) (line : Str) : EditState σ :=
  let value := rstrip line
  let st := { st with
    varlines := st.varlines ++ [line]
    fullValue := st.fullValue ++ if isFuncName inVar then '\n' :: value else value.dropLast }
  if st.varEnd.isSuffixOf value then
    if isFuncName inVar then
      if st.fullValue.count '{' ≥ st.fullValue.count '}' then st
      else finishVar varfunc inVar { st with fullValue := st.fullValue.dropLast }
    else finishVar varfunc inVar st
  else st

/-- The first line of an assignment. -/
def openVar (st : EditState σ) (line : Str) (o : Opening) : EditState σ :=
  let value := rstrip o.rest
  let value := if !isFuncName o.inVar && ['\\'].isSuffixOf value then value.dropLast else value
  let st := { st with
    varEnd := o.varEnd, varsetStart := o.varsetStart, fullValue := value, varlines := [line],
    inVar := some o.inVar }
  if o.varEnd.isSuffixOf value then
    finishVar varfunc o.inVar { st with fullValue := value.dropLast }
  else st

/-- A line of no assignment. -/
def plainLine (st : EditState σ) (line : Str) : EditState σ :=
  if st.checkspc then
    if st.newlines.getLast? = some ['\n'] ∧ line = ['\n'] then { st with checkspc := false }
    else { st with checkspc := false, newlines := st.newlines ++ [line] }
  else { st with newlines := st.newlines ++ [line] }

def stepOutside (matchOverrides : Bool) (vars : List Str) (st : EditState σ) (line : Str) :
    EditState σ :=
  match findOpening matchOverrides vars line with
  | some o => openVar varfunc st line o
  | none => plainLine st line

/-- The loop's body; an empty `in_var` is false. -/
def editStep (matchOverrides : Bool) (vars : List Str) (st : EditState σ) (line : Str) :
    EditState σ :=
  match st.inVar with
  | some (c :: cs) => stepInVar varfunc (c :: cs) st line
  | _ => stepOutside varfunc matchOverrides vars st line

def startEdit (s : σ) : EditState σ := ⟨false, [], [], [], none, [], [], false, s⟩

/-- `edit_metadata`: whether anything was changed, and the lines; the callback's state is left as
the last call left it. -/
def editMetadata (metaLines vars : List Str) (matchOverrides : Bool) (s : σ) :
    (Bool × List Str) × σ :=
  let st := metaLines.foldl (editStep varfunc matchOverrides vars) (startEdit s)
  ((st.updated, st.newlines), st.env)

/-- `edit_metadata_file`, for the lines of the file: those it has afterwards, and the answer. -/
def editMetadataFile (metaFile vars : List Str) (s : σ) : List Str × Bool :=
  let (updated, newlines) := (editMetadata varfunc metaFile vars false s).1
  if updated then (newlines, true) else (metaFile, false)

end Loop

end BitBake
end OpenBmc
