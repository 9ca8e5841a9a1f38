import OpenBmc.BitBake.Names
import OpenBmc.Lib.Dict
import OpenBmc.Py.Str

/-!
# The recipe cache

There is a cache file for each class of the caches: two versions and then, for each recipe, its name and
the info of that class. `load_cachefile` appends what it reads to a list for each name, so the place of
an info in the list depends on which files had a record for the name. A file that was cut off yields
the objects that are whole and then raises.
-/

namespace OpenBmc
namespace BitBake
namespace RecipeCache
open Py Names

/-- `(st_mtime_ns, st_size, st_ino)`. -/
abbrev Stamp := ℕ × ℕ × ℕ

structure Core where
  timestamp : Stamp
  /-- The 0 of a file that does not exist is `none` here. -/
  fileDepends : Option (List (Str × Option Stamp))
  variants : List Str
  appends : List Str
  /-- A skipped recipe does not have this attribute. -/
  fileChecksums : Option (Dict Str Str)
  deriving DecidableEq

def coreName : Str := "CoreRecipeInfo".toList

/-- A `CoreRecipeInfo`, or an info of another class. -/
inductive Info where
  | core (c : Core)
  | extra (className : {name : Str // name ≠ coreName})
  deriving DecidableEq

def Info.className : Info → Str
  | .core _ => coreName
  | .extra className => className

/-- `caches_array`: the class of the core first, and no class twice. -/
structure Caches where
  extra : List Str
  nodup : (coreName :: extra).Nodup

def Caches.array (caches : Caches) : List Str := coreName :: caches.extra

/-- What one `load` of a pickle returns. -/
inductive Obj where
  | str (s : Str)
  | info (i : Info)
  deriving DecidableEq

structure Env where
  /-- `cached_mtime_noerror`, `none` for 0. -/
  mtime : Str → Option Stamp
  pathExists : Str → Bool
  /-- `bb.__version__`. -/
  version : Str

inductive Error where
  | fileNotFound
  | attribute
  | index
  | value
  | key

def cacheVersion : Str := "156".toList

/-! ### Writing -/

/-- What `sync` writes to the file of the class `name`. -/
def syncFile (version : Str) (dependsCache : Dict Str (List Info)) (name : Str) : List Obj :=
  .str cacheVersion :: .str version :: dependsCache.entries.flatMap fun e =>
    (e.2.filter fun info => info.className = name).flatMap fun info => [.str e.1, .info info]

/-! ### Loading -/

def addRecord (dependsCache : Dict Str (List Info)) (key : Str) (value : Info) :
    Dict Str (List Info) :=
  match dependsCache.get? key with
  | some infoArray => dependsCache.set key (infoArray ++ [value])
  | none => dependsCache.set key [value]

/-- The loop over a file: it ends at the first object that is not what it should be, or not there. -/
def loadRecords (dependsCache : Dict Str (List Info)) : List Obj → Dict Str (List Info)
  | .str key :: .info value :: objs => loadRecords (addRecord dependsCache key value) objs
  | _ => dependsCache

/-- `load_cachefile`, where `files` are the objects that can be loaded from each file. -/
def loadCachefile (env : Env) (files : Str → Option (List Obj)) (dependsCache : Dict Str (List Info)) :
    List Str → Except Error (Dict Str (List Info))
  | [] => .ok dependsCache
  | name :: names =>
    match files name with
    | none => .error .fileNotFound
    | some (cacheVer :: bitbakeVer :: objs) =>
      if cacheVer ≠ .str cacheVersion then .ok dependsCache
      else if bitbakeVer ≠ .str env.version then .ok dependsCache
      else loadCachefile env files (loadRecords dependsCache objs) names
    | some _ => .ok dependsCache

structure Cache where
  dependsCache : Dict Str (List Info)
  checked : Finset Str
  clean : Finset Str

/-- `prepare_cache`: nothing is loaded when a file is missing. -/
def prepareCache (env : Env) (caches : Caches) (files : Str → Option (List Obj)) :
    Except Error Cache :=
  if ∀ name ∈ caches.array, (files name).isSome then
    (loadCachefile env files Dict.empty caches.array).map fun dependsCache => ⟨dependsCache, ∅, ∅⟩
  else .ok ⟨Dict.empty, ∅, ∅⟩

/-! ### Checking -/

/-- `re.split` at white space behind `:True` or `:False`; `skip` while the white space lasts. -/
def filelistSplit (skip : Bool) (piece : Str) : Str → List Str
  | [] => [piece]
  | c :: cs =>
    if isSpace c && skip then filelistSplit true [] cs
    else if isSpace c && (":True".toList.isSuffixOf piece || ":False".toList.isSuffixOf piece) then
      piece :: filelistSplit true [] cs
    else filelistSplit false (piece ++ [c]) cs

/-- The files of `file_checksums` that are looked at, as `name:True` or `name:False`. -/
def Core.checksumFiles (core : Core) : List Str :=
  ((core.fileChecksums.map Dict.values).getD []).flatMap fun fl =>
    if strip fl = [] then [] else (filelistSplit false [] (strip fl)).filter (· ≠ [])

def existChanged (env : Env) (f exist : Str) : Bool :=
  (exist = "True".toList ∧ ¬ env.pathExists f) ∨ (exist = "False".toList ∧ env.pathExists f)

def checksumChanged (env : Env) : List Str → Except Error Bool
  | [] => .ok false
  | f :: fs =>
    match rpartition ':' f with
    | (none, _) => .error .value
    | (some f, exist) => if existChanged env f exist then .ok true else checksumChanged env fs

def dependChanged (env : Env) : Str × Option Stamp → Bool
  | (f, oldMtime) => (oldMtime ≠ none ∧ env.mtime f = none) ∨ env.mtime f ≠ oldMtime

/-- Whether a check of `cacheValidUpdate` before the one of the variants removes the recipe. -/
def changed (env : Env) (mtime : Stamp) (appends : List Str) (core : Core) : Except Error Bool :=
  if mtime ≠ core.timestamp then .ok true
  else if (core.fileDepends.getD []).any (dependChanged env) then .ok true
  else
    match checksumChanged env core.checksumFiles with
    | .error e => .error e
    | .ok true => .ok true
    | .ok false => .ok (appends ≠ core.appends)

/-- `info_array[0]`, of which attributes are read that only a `CoreRecipeInfo` has. -/
def coreOf : List Info → Except Error Core
  | [] => .error .index
  | .core core :: _ => .ok core
  | .extra _ :: _ => .error .attribute

namespace Cache

def remove (s : Cache) (fn : Str) : Cache :=
  { s with dependsCache := s.dependsCache.erase fn, clean := s.clean.erase fn }

/-- A variant that is not cached or does not have an info of every class. -/
def extraMissing (s : Cache) (caches : Caches) (virtualfn : Str) : Bool :=
  match s.dependsCache.get? virtualfn with
  | none => true
  | some infoArray => infoArray.length ≠ caches.array.length

def cacheValidUpdate (env : Env) (caches : Caches) (s : Cache) (fn : Str) (appends : List Str) :
    Except Error (Bool × Cache) :=
  let s := { s with checked := insert fn s.checked }
  match s.dependsCache.get? fn with
  | none => .ok (false, s)
  | some infoArray =>
    match env.mtime fn with
    | none => .ok (false, s.remove fn)
    | some mtime => do
      let core ← coreOf infoArray
      if ← changed env mtime appends core then
        return (false, s.remove fn)
      let virtualfns := core.variants.map (variant2virtual fn)
      let clean := s.clean ∪ virtualfns.toFinset
      if virtualfns.any (s.extraMissing caches) then
        return (false, { s with clean := (clean \ virtualfns.toFinset).erase fn })
      return (true, { s with clean := insert fn clean })

def cacheValid (env : Env) (caches : Caches) (s : Cache) (fn : Str) (appends : List Str) :
    Except Error (Bool × Cache) := do
  let s ← if fn ∈ s.checked then pure s else Prod.snd <$> s.cacheValidUpdate env caches fn appends
  return (fn ∈ s.clean, s)

def loadCached (s : Cache) (fn : Str) : Except Error (List (Str × List Info)) := do
  let infoArray ← (s.dependsCache.get? fn).elim (.error .key) .ok
  let core ← coreOf infoArray
  core.variants.mapM fun variant =>
    let virtualfn := variant2virtual fn variant
    match s.dependsCache.get? virtualfn with
    | none => .error .key
    | some infoArray => .ok (virtualfn, infoArray)

end Cache

/-- The name of a recipe file, which is none of a virtual file. -/
abbrev RecipeFile := {fn : Str // ¬ "virtual:".toList <+: fn ∧ ¬ "mc:".toList <+: fn}

/-- The loop of `CookerParser.__init__`: which recipes need not be parsed. -/
def fromCache (env : Env) (caches : Caches) (s : Cache) :
    List (RecipeFile × List Str) → Except Error (List RecipeFile × Cache)
  | [] => .ok ([], s)
  | (fn, appends) :: recipes => do
    let (valid, s) ← s.cacheValid env caches fn appends
    let (fns, s) ← fromCache env caches s recipes
    return (if valid then fn :: fns else fns, s)

end RecipeCache
end BitBake
end OpenBmc
