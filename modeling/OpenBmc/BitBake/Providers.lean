import OpenBmc.BitBake.Vercmp
import OpenBmc.Py.Sorted

/-!
# Providers

For an item that several recipe files provide, `_filterProviders` chooses one file of each recipe: one
of the preferred or required version, or else the latest of the highest priority.
-/

namespace OpenBmc
namespace BitBake
namespace Providers
open Py

/-- What the cache knows of a recipe file. -/
structure Cache (α : Type) [Decimals] where
  pkgFn : α → Str
  bbfilePriority : α → Int
  pkgDp : α → Int
  pkgPepvpr : α → Version

/-- A version setting, taken apart. -/
structure Preferred where
  e : Option Str
  v : Str
  r : Option Str

section settings
variable [Decimals]

/-- `ver`, unless `not ver`. -/
def orVar (ver next : Option Str) : Option Str :=
  match ver with
  | none | some [] => next
  | some v => some v

def versionVariableMatch (getVar : Str → Option Str) (keyword pn : Str) : Option Str :=
  orVar (getVar (keyword ++ "_VERSION:pn-".toList ++ pn))
    (orVar (getVar (keyword ++ "_VERSION_".toList ++ pn)) (getVar (keyword ++ "_VERSION".toList)))

/-- The last match of `(\d+:)*`, without its colon, and what follows. -/
def splitEpoch : Nat → Option Str → Str → Option Str × Str
  | 0, e, s => (e, s)
  | fuel + 1, e, s =>
    match s.takeWhile isDecimal, s.dropWhile isDecimal with
    | d :: ds, ':' :: rest => splitEpoch fuel (some (d :: ds)) rest
    | _, _ => (e, s)

/-- The match of `(\d+:)*(.*)(_.*)*`: the second group takes the rest of the line, so that nothing is
left for the third. -/
def parsePreferred (s : Str) : Preferred :=
  let (e, rest) := splitEpoch s.length none s
  ⟨e, rest.takeWhile (· ≠ '\n'), none⟩

def preferredVersionMatch (version : Version) (p : Preferred) : Bool :=
  (p.r = some version.pr || p.r = none) && (p.e = some version.pe || p.e = none) &&
    (p.v = version.pv || (p.v.getLast? = some '%' && p.v.dropLast.isPrefixOf version.pv))

end settings

variable {α : Type} [Decimals] (c : Cache α)

/-- The files in lists of one priority, the highest first, each sorted by default preference. -/
def sortPriorities (files : List α) : List (List α) :=
  (sorted (files.map c.bbfilePriority).toFinset).reverse.map fun pri =>
    (sorted ((files.filter fun f => c.bbfilePriority f = pri).map c.pkgDp).toFinset).flatMap
      fun pref => files.filter fun f => c.bbfilePriority f = pri ∧ c.pkgDp f = pref

variable (getVar : Str → Option Str)

/-- The setting that applies to a recipe: a required version takes precedence. -/
def versionSetting (pn : Str) : Option Str :=
  match versionVariableMatch getVar "REQUIRED".toList pn with
  | some v => some v
  | none => versionVariableMatch getVar "PREFERRED".toList pn

def isRequired (pn : Str) : Bool := (versionVariableMatch getVar "REQUIRED".toList pn).isSome

/-- The file is of the version that is set for the recipe. -/
def matchesSetting (pn : Str) (f : α) : Bool :=
  match versionSetting getVar pn with
  | none | some [] => false
  | some v => preferredVersionMatch (c.pkgPepvpr f) (parsePreferred v)

/-- The file found, its version, and whether one is required. -/
def findPreferredProvider (pn : Str) (pkgPn : List (List α)) :
    Option Version × Option α × Bool :=
  let file := pkgPn.findSome? fun fileSet => fileSet.find? (matchesSetting c getVar pn)
  (file.map c.pkgPepvpr, file, isRequired getVar pn)

/-- The body of the loop over the files: `latest` is the file found so far. -/
def later (latest : Option α) (f : α) : Option α :=
  match latest with
  | none => some f
  | some l =>
    if (c.pkgDp l = c.pkgDp f ∧ vercmp (c.pkgPepvpr l) (c.pkgPepvpr f) < 0) ∨
        c.pkgDp l < c.pkgDp f then some f
    else some l

def findLatestProvider (fileSet : List α) : Option Version × Option α :=
  let latest := fileSet.foldl (later c) none
  (latest.map c.pkgPepvpr, latest)

/-- What the two passes over the recipes build up. -/
structure Pass (α : Type) [Decimals] where
  eligible : List α
  preferredVersions : Str → Option Version × Option α

/-- `preferred_versions[pn]` is set, and its file, if there is one, is eligible. -/
def Pass.put (pass : Pass α) (pn : Str) (entry : Option Version × Option α) : Pass α where
  eligible := pass.eligible ++ entry.2.toList
  preferredVersions := Function.update pass.preferredVersions pn entry

/-- The files of a recipe, from `pkg_pn`. -/
def pkgFiles (providers : List α) (pn : Str) : List α := providers.filter fun p => c.pkgFn p = pn

/-- The first pass; a required version that no file has ends the whole function. -/
def firstPass (providers : List α) : List Str → Pass α → Except (List α) (Pass α)
  | [], pass => .ok pass
  | pn :: pns, pass =>
    let (ver, file, required) :=
      findPreferredProvider c getVar pn (sortPriorities c (pkgFiles c providers pn))
    if required ∧ file = none then .error pass.eligible
    else firstPass providers pns (pass.put pn (ver, file))

/-- The second pass, for the recipes without a file so far. -/
def secondPass (providers : List α) (pass : Pass α) (pn : Str) : Pass α :=
  if (pass.preferredVersions pn).2 ≠ none then pass
  else
    pass.put pn (findLatestProvider c ((sortPriorities c (pkgFiles c providers pn)).head?.getD []))

/-- The last loop: the file of the recipe `item` moves to the front. -/
def ownFirst [DecidableEq α] (item : Str) (preferredVersions : Str → Option Version × Option α)
    (eligible : List α) (p : α) : List α :=
  if c.pkgFn p ≠ item then eligible
  else
    match (preferredVersions (c.pkgFn p)).2 with
    | none => eligible
    | some fn => if fn ∈ eligible then fn :: eligible.erase fn else eligible

/-- The names of the recipes, `sorted(pkg_pn)`. -/
def fileNames (providers : List α) : List Str := sorted (providers.map c.pkgFn).toFinset

/-- `_filterProviders` once the files are sorted. -/
def filterSorted [DecidableEq α] (providers : List α) (item : Str) : List α :=
  match firstPass c getVar providers (fileNames c providers) ⟨[], fun _ => (none, none)⟩ with
  | .error eligible => eligible
  | .ok pass =>
    let pass := (fileNames c providers).foldl (secondPass c providers) pass
    providers.foldl (ownFirst c item pass.preferredVersions) pass.eligible

def filterProviders [LinearOrder α] (providers : List α) (item : Str) : List α :=
  filterSorted c getVar (sortedBy id providers) item

end Providers
end BitBake
end OpenBmc
