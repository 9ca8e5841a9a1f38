import OpenBmc.Lib.Delete
import OpenBmc.Lib.Dict
import OpenBmc.Py.Words

/-!
# The data store

Variables with their override definitions, appends, prepends and removes, as a parsed file sets them
and as `getVar` reads them. `OVERRIDES` is given as the list that `need_overrides` computes, and a
read is one with an empty `expand_cache`, as every assignment leaves it.
-/

namespace OpenBmc
namespace BitBake
open Py

/-- The flags of a variable that `getVar` reads. An append, a prepend or a remove has its override,
if there is one. -/
structure VarFlags where
  content : Option Str := none
  defaultval : Option Str := none
  appends : List (Str × Option Str) := []
  prepends : List (Str × Option Str) := []
  removes : List (Str × Option Str) := []

structure DataSmart where
  dict : Dict Str VarFlags
  /-- For a variable its override definitions, each with the part of its name that is an override. -/
  overridedata : Dict Str (List (Str × Str))
  overrides : List Str

/-! ### Assignments -/

inductive Keyword
  | append
  | prepend
  | remove
  deriving DecidableEq

def Keyword.text : Keyword → Str
  | .append => ":append".toList
  | .prepend => ":prepend".toList
  | .remove => ":remove".toList

/-- The end of a name from a keyword on, by `(:append|:prepend|:remove)(:(?P<add>[^A-Z]*))?$`. -/
def keywordAt (s : Str) : Option (Keyword × Option Str) :=
  [Keyword.append, .prepend, .remove].findSome? fun k =>
    if k.text.isPrefixOf s then
      match s.drop k.text.length with
      | [] => some (k, none)
      | c :: add => if c = ':' ∧ add.all (!·.isUpper) then some (k, some add) else none
    else none

/-- The match of `__setvar_regexp__`: the shortest base in front of a keyword. -/
def setvarMatch : Str → Option (Str × Keyword × Option Str)
  | [] => none
  | c :: s =>
    match keywordAt (c :: s) with
    | some (k, add) => some ([], k, add)
    | none => (setvarMatch s).map fun m => (c :: m.1, m.2)

/-- `__override_regexp__.match`: only the first character of the text counts. -/
def overrideMatch (s : Str) : Bool := s.head?.any fun c => c.isLower || c.isDigit

namespace DataSmart

/-- An override definition is registered, the name of its variable and the override apart. -/
def register (data : Dict Str (List (Str × Str))) (shortvar var override : Str) :
    Dict Str (List (Str × Str)) :=
  let old := (data.get? shortvar).getD []
  data.set shortvar (if (var, override) ∈ old then old else old ++ [(var, override)])

/-- The loop of `_setvar_update_overrides`. Each round has a shorter name of the variable. -/
def updateOverrides (var : Str) :
    ℕ → Str → Str → Dict Str (List (Str × Str)) → Dict Str (List (Str × Str))
  | 0, _, _, data => data
  | fuel + 1, shortvar, override, data =>
    if overrideMatch override then
      let data := register data shortvar var override
      match rpartition ':' shortvar with
      | (none, _) => data
      | (some short, rest) =>
        if short = [] then data
        else updateOverrides var fuel short (rest ++ ':' :: override) data
    else data

/-- `_setvar_update_overrides`; a name without a colon loses its last character, as
`var[:var.rfind(':')]` does. -/
def setvarUpdateOverrides (d : DataSmart) (var : Str) : DataSmart :=
  match rpartition ':' var with
  | (some short, override) =>
    { d with overridedata := updateOverrides var var.length short override d.overridedata }
  | (none, _) =>
    { d with overridedata := updateOverrides var var.length var.dropLast var d.overridedata }

def addKeyword (k : Keyword) (value : Str) (add : Option Str) (v : VarFlags) : VarFlags :=
  match k with
  | .append => { v with appends := v.appends ++ [(value, add)] }
  | .prepend => { v with prepends := v.prepends ++ [(value, add)] }
  | .remove => { v with removes := v.removes ++ [(value, add)] }

/-- `setVar` while a file is parsed, of a name that is not in the old syntax. -/
def setVar (d : DataSmart) (var value : Str) : DataSmart :=
  match setvarMatch var with
  | some (base, keyword, add) =>
    let flags := (d.dict.get? base).getD {}
    { d with dict := d.dict.set base (addKeyword keyword value add flags) }.setvarUpdateOverrides base
  | none =>
    let d := if ':' ∈ var then d.setvarUpdateOverrides var else d
    { d with dict := d.dict.set var { (d.dict.get? var).getD {} with content := some value } }

end DataSmart

/-! ### Override resolution -/

/-- The table of the loop: what is left of each active override, with its definition. -/
structure Resolution where
  active : Dict Str Str
  found : Option Str := none
  mod : Bool := false

namespace DataSmart
variable (d : DataSmart)

/-- All parts of the override are in `OVERRIDES`. -/
def isActive (o : Str) : Bool := (o.splitOn ':').all (· ∈ d.overrides)

def activeOverrides (overridedata : List (Str × Str)) : Dict Str Str :=
  overridedata.foldl (fun active e =>
    if e.2 ∈ d.overrides then active.set e.2 e.1
    else if ':' ∈ e.2 then if d.isActive e.2 then active.set e.2 e.1 else active
    else active) .empty

end DataSmart

namespace Resolution

/-- One key `a` of the table against the override `o`. -/
def key (o : Str) (s : Resolution) (a : Str) : Resolution :=
  match s.active.get? a with
  | none => s
  | some t =>
    if (':' :: o).isSuffixOf a then
      { s with active := (s.active.erase a).set (delete (':' :: o) a) t, mod := true }
    else if a = o then { s with found := some t, active := s.active.erase a }
    else s

/-- The keys that are in the table at the start, against one override. -/
def override (s : Resolution) (o : Str) : Resolution := s.active.keys.foldl (key o) s

def pass (overrides : List Str) (s : Resolution) : Resolution :=
  overrides.foldl override { s with mod := false }

/-- `while mod`; no result while it still runs. -/
def run (overrides : List Str) : ℕ → Resolution → Option Resolution
  | 0, _ => none
  | fuel + 1, s =>
    let t := pass overrides s
    if t.mod then run overrides fuel t else some t

/-- The letters of the keys bound the passes of the loop. -/
def size (s : Resolution) : ℕ := (s.active.keys.map List.length).sum

end Resolution

namespace DataSmart
variable (d : DataSmart)

/-- The definition that is read for the variable, if an override of it is active. -/
def selected (var : Str) : Option Str :=
  match d.overridedata.get? var with
  | none => none
  | some overridedata =>
    let start : Resolution := { active := d.activeOverrides overridedata }
    (start.run d.overrides (start.size + 1)).bind (·.found)

/-! ### Reading -/

/-- An append, a prepend or a remove with this override applies. -/
def applies (override : Option Str) : Bool :=
  match override with
  | none => true
  | some o => o = [] || d.isActive o

def flags (var : Str) : VarFlags := (d.dict.get? var).getD {}

/-- The variable's own value, a weak default included. -/
def ownValue (var : Str) : Option Str := (d.flags var).content.or (d.flags var).defaultval

def addAppends (var : Str) (value : Option Str) : Option Str :=
  ((d.flags var).appends.filter (d.applies ·.2)).foldl (fun value r =>
    some (value.getD [] ++ r.1)) value

def addPrepends (var : Str) (value : Option Str) : Option Str :=
  ((d.flags var).prepends.filter (d.applies ·.2)).foldl (fun value r =>
    some (r.1 ++ value.getD [])) value

def activeRemoves (var : Str) : List Str :=
  ((d.flags var).removes.filter (d.applies ·.2)).map Prod.fst

end DataSmart

inductive DataError
  /-- The limit of the recursion is reached. -/
  | recursion
  | referencesItself (varname : Str)
  /-- An exception of an inline Python expression. -/
  | python (message : Str)

/-- What `expandWithRefs` makes of a text, under the name of the variable that is read. -/
structure Expansion where
  text : Option Str → Str → Except DataError Str
  text_nil : ∀ varname, text varname [] = .ok []

structure VariableParse where
  value : Option Str
  /-- Set once removes have been applied. -/
  removes : Option (List Str) := none

/-- `__whitespace_split__.split`: words, empty ones as well, and the spaces between them. -/
def whitespaceSplit : Str → List Str
  | [] => [[]]
  | c :: s =>
    if isSpace c then [] :: [c] :: whitespaceSplit s
    else match whitespaceSplit s with
      | [] => [[c]]
      | w :: rest => (c :: w) :: rest

namespace DataSmart
variable (E : Expansion) (d : DataSmart)

/-- `expandWithRefs` of a value, which may be missing. -/
def expandWithRefs (varname : Str) (value : Option Str) : Except DataError VariableParse :=
  match value with
  | none => .ok { value := none }
  | some s => do return { value := some (← E.text (some varname) s) }

/-- The value without the words of the removes, and the removes that had a word there. -/
def removeWords (removes : List Str) (parser : VariableParse) : Except DataError VariableParse := do
  let expanded ← removes.mapM fun r => do return (r, words (← E.text none r))
  let tokens := whitespaceSplit (parser.value.getD [])
  return {
    value := some (tokens.filter fun v => expanded.all fun e => v ∉ e.2).flatten
    removes := some ((expanded.filter fun e => tokens.any (· ∈ e.2)).map Prod.fst) }

/-- The value of the variable before it is expanded, when its override has the given one. -/
def rawValue (var : Str) (value : Option Str) : Option Str :=
  d.addPrepends var (d.addAppends var (value.or (d.ownValue var)))

/-- `getVarFlag` after the override's value is read, with the removes that come with it. -/
def readValue (var : Str) (expand retparser : Bool) (value : Option Str) (carried : List Str) :
    Except DataError (Option Str × Option VariableParse) :=
  let value := d.rawValue var value
  if expand || retparser then do
    let parser ← expandWithRefs E var value
    let result := fun p : VariableParse => (if expand then p.value else value, some p)
    if (result parser).1.getD [] = [] then return result parser
    else
      let removes := carried ++ d.activeRemoves var
      if removes = [] then return result parser
      else return result (← removeWords E removes parser)
  else .ok (value, none)

/-- `getVarFlag` of `_content`. The number bounds the definitions read for one another. -/
def getVarFlag : ℕ → Str → (expand retparser : Bool) →
    Except DataError (Option Str × Option VariableParse)
  | 0, _, _, _ => .error .recursion
  | n + 1, var, expand, retparser =>
    match d.selected var with
    | none => readValue E d var expand retparser none []
    | some name => do
      let (value, subparser) ← getVarFlag n name false true
      readValue E d var expand retparser value ((subparser.bind (·.removes)).getD [])

end DataSmart

/-! ### What a read does -/

namespace DataSmart
variable {E : Expansion} {d : DataSmart}

/-- The value that the variable has from its override, if one is selected, and the removes that come
with it. -/
def Overridden (E : Expansion) (d : DataSmart) (n : ℕ) (var : Str) (value : Option Str)
    (carried : List Str) : Prop :=
  d.selected var = none ∧ value = none ∧ carried = [] ∨
  ∃ name sub, d.selected var = some name ∧ getVarFlag E d n name false true = .ok (value, sub) ∧
    carried = (sub.bind (·.removes)).getD []

theorem expandWithRefs_ok {var : Str} {value : Option Str} {parser : VariableParse}
    (h : expandWithRefs E var value = .ok parser) : parser.removes = none ∧
      value.elim (parser.value = none) fun s =>
        ∃ x, parser.value = some x ∧ E.text (some var) s = .ok x := by
  cases value with
  | none =>
    cases h
    exact ⟨rfl, rfl⟩
  | some s =>
    simp only [expandWithRefs, bind, Except.bind] at h
    cases ht : E.text (some var) s with
    | error e =>
      rw [ht] at h
      cases h
    | ok x =>
      rw [ht] at h
      cases h
      exact ⟨rfl, x, rfl, ht⟩

theorem getVarFlag_ok {n : ℕ} {var : Str} {expand retparser : Bool}
    {t : Option Str} {p : Option VariableParse} (hb : (expand || retparser) = true)
    (h : getVarFlag E d (n + 1) var expand retparser = .ok (t, p)) :
    ∃ value carried parser q, Overridden E d n var value carried ∧
      expandWithRefs E var (d.rawValue var value) = .ok parser ∧ p = some q ∧
      t = (if expand then q.value else d.rawValue var value) ∧
      (q = parser ∧ ((if expand then parser.value else d.rawValue var value).getD [] = [] ∨
          carried ++ d.activeRemoves var = []) ∨
        (if expand then parser.value else d.rawValue var value).getD [] ≠ [] ∧
          carried ++ d.activeRemoves var ≠ [] ∧
          removeWords E (carried ++ d.activeRemoves var) parser = .ok q) := by
  obtain ⟨value, carried, hvalue, h⟩ : ∃ value carried, Overridden E d n var value carried ∧
      readValue E d var expand retparser value carried = .ok (t, p) := by
    rw [getVarFlag] at h
    cases hsel : d.selected var with
    | none =>
      simp only [hsel] at h
      exact ⟨none, [], .inl ⟨hsel, rfl, rfl⟩, h⟩
    | some name =>
      simp only [hsel, bind, Except.bind] at h
      cases hsub : getVarFlag E d n name false true with
      | error e =>
        rw [hsub] at h
        cases h
      | ok r =>
        rw [hsub] at h
        exact ⟨r.1, _, .inr ⟨name, r.2, hsel, hsub, rfl⟩, h⟩
  simp only [readValue, if_pos hb, bind, Except.bind] at h
  cases hparse : expandWithRefs E var (d.rawValue var value) with
  | error e =>
    rw [hparse] at h
    cases h
  | ok parser =>
    simp only [hparse] at h
    by_cases hempty : (if expand then parser.value else d.rawValue var value).getD [] = []
    · rw [if_pos hempty] at h
      cases h
      exact ⟨value, carried, parser, parser, hvalue, hparse, rfl, rfl, .inl ⟨rfl, .inl hempty⟩⟩
    · rw [if_neg hempty] at h
      by_cases hnone : carried ++ d.activeRemoves var = []
      · rw [if_pos hnone] at h
        cases h
        exact ⟨value, carried, parser, parser, hvalue, hparse, rfl, rfl, .inl ⟨rfl, .inr hnone⟩⟩
      · rw [if_neg hnone] at h
        cases hremove : removeWords E (carried ++ d.activeRemoves var) parser with
        | error e =>
          rw [hremove] at h
          cases h
        | ok q =>
          rw [hremove] at h
          cases h
          exact ⟨value, carried, parser, q, hvalue, hparse, rfl, rfl,
            .inr ⟨hempty, hnone, hremove⟩⟩

end DataSmart

/-! ### Expansion -/

/-- `[a-zA-Z0-9\-_+./~:]`. -/
def isReferenceChar (c : Char) : Bool := c.isAlphanum || c ∈ "-_+./~:".toList

/-- The name in a reference `${name}` at the start of the text. -/
def reference : Str → Option Str
  | '$' :: '{' :: s =>
    let name := s.takeWhile isReferenceChar
    if name ≠ [] ∧ (s.drop name.length).head? = some '}' then some name else none
  | _ => none

/-- `var_sub` at each reference, after the letters of the last one are skipped. -/
def varSub (get : Str → Except DataError (Option Str)) (varname : Option Str) :
    ℕ → Str → Except DataError Str
  | _, [] => .ok []
  | n + 1, _ :: s => varSub get varname n s
  | 0, c :: s =>
    match reference (c :: s) with
    | some key => do
      if varname = some key then throw (.referencesItself key)
      let value ← get key
      let rest ← varSub get varname (key.length + 2) s
      return value.getD ("$\x7b".toList ++ key ++ ['}']) ++ rest
    | none => do return c :: (← varSub get varname 0 s)

/-- The loop of `expandWithRefs`, until there is nothing to expand or nothing changes. -/
def expandLoop (vars python : Str → Except DataError Str) : ℕ → Str → Except DataError Str
  | 0, _ => .error .recursion
  | n + 1, s =>
    if contains "$\x7b".toList s then do
      let t ← python (← vars s)
      if t = s then return s else expandLoop vars python n t
    else .ok s

theorem expandLoop_nil (vars python : Str → Except DataError Str) (n : ℕ) :
    expandLoop vars python (n + 1) [] = .ok [] := by
  rw [expandLoop, if_neg]
  decide

/-- The expansion of texts in a store, with what the inline Python expressions of a text come to.
The number is the limit of the recursion. -/
def expansion (d : DataSmart) (python : Option Str → Str → Except DataError Str) : ℕ → Expansion
  | 0 => ⟨fun _ s => if s = [] then .ok [] else .error .recursion, fun _ => rfl⟩
  | n + 1 =>
    ⟨fun varname => expandLoop
        (varSub (fun key => Prod.fst <$> d.getVarFlag (expansion d python n) n key true false)
          varname 0)
        (python varname) (n + 1),
      fun _ => expandLoop_nil _ _ n⟩

end BitBake
end OpenBmc
