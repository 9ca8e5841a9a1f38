import OpenBmc.Lib.Dict
import OpenBmc.Lib.Loop
import OpenBmc.Py.Str

/-!
# Resolving the providers of targets

`TaskData` finds the recipe files that provide the requested targets and all that these files depend
on, and removes what cannot be built: a target that lost its last provider fails the files that depend
on it, and a failed file is taken out of the provider lists. The definitions follow the source with
`halt` and `allowincomplete` off.
-/

namespace OpenBmc
namespace BitBake

/-- Build targets and runtime targets are kept apart, and treated alike. -/
inductive Kind
  | build
  | run
  deriving DecidableEq

/-- The inter-task dependencies of a task: `idepends` and `irdepends`, with the task each names. -/
structure TaskEntry (Item : Type) where
  idepends : Kind → List (Item × Str)

/-- `dataCache`, what the parsed recipes say: the dependencies of each file, and the files that provide an item, as
the provider filters leave them. -/
structure ProviderCache (Fn Item : Type) where
  files : List Fn
  /-- `task_deps` of a file. -/
  tasks : Fn → Dict Str (TaskEntry Item)
  /-- `deps`, and the runtime dependencies and recommendations. -/
  deps : Kind → Fn → List Item
  /-- `item in dataCache.providers`, and whether the item has runtime providers. -/
  provided : Kind → Item → Bool
  /-- `filterProviders` and `filterProvidersRunTime`. -/
  filtered : Kind → Item → List Fn
  numberPreferred : Item → Nat
  /-- The item matches one of the `ignored_dependencies`. -/
  ignored : Item → Bool
  filtered_mem : ∀ k item, ∀ fn ∈ filtered k item, fn ∈ files
  filtered_provided : ∀ k item, provided k item = false → filtered k item = []

structure TaskData (Fn Item : Type) where
  /-- `build_targets` and `run_targets`. -/
  targets : Kind → Dict Item (List Fn)
  externalTargets : List Item
  seenfns : List Fn
  taskentries : Dict (Fn × Str) (TaskEntry Item)
  /-- `depids` and `rdepids`. -/
  depids : Kind → Dict Fn (List Item)
  /-- `failed_deps` and `failed_rdeps`. -/
  failedDeps : Kind → List Item
  failedFns : List Fn

inductive Fatal
  /-- The recursion was deeper, or the loop longer, than was allowed. -/
  | rounds
  /-- "Trying to re-add a failed file? Something is broken..." -/
  | reAdded

namespace TaskData
variable {Fn Item : Type} [DecidableEq Fn] [DecidableEq Item]

/-- The providers listed for a target, none if the target was not seen. -/
def providers (s : TaskData Fn Item) (k : Kind) (target : Item) : List Fn :=
  ((s.targets k).get? target).getD []

def setProviders (s : TaskData Fn Item) (k : Kind) (target : Item) (l : List Fn) : TaskData Fn Item :=
  { s with targets := Function.update s.targets k ((s.targets k).set target l) }

/-- `have_build_target` and `have_runtime_target`. -/
def haveTarget (s : TaskData Fn Item) (k : Kind) (target : Item) : Bool := s.providers k target ≠ []

/-- `seen_build_target` and `seen_run_target`. -/
def seenTarget (s : TaskData Fn Item) (k : Kind) (name : Item) : TaskData Fn Item :=
  if name ∈ s.targets k then s else s.setProviders k name []

/-- `add_build_target` and `add_runtime_target`. -/
def addTarget (s : TaskData Fn Item) (k : Kind) (fn : Fn) (item : Item) : TaskData Fn Item :=
  if fn ∈ s.providers k item then s else s.setProviders k item (s.providers k item ++ [fn])

/-- `get_dependees` and `get_rdependees`. -/
def getDependees (s : TaskData Fn Item) (k : Kind) (item : Item) : List Fn :=
  ((s.depids k).entries.filter fun e => item ∈ e.2).map Prod.fst

/-- `get_unresolved_build_targets` and `get_unresolved_run_targets`. -/
def getUnresolved (dc : ProviderCache Fn Item) (s : TaskData Fn Item) (k : Kind) : List Item :=
  (s.targets k).keys.filter fun target =>
    !dc.ignored target ∧ target ∉ s.failedDeps k ∧ s.providers k target = []

/-- The file of each task and the items its inter-task dependencies name. -/
def idependsList (s : TaskData Fn Item) (k : Kind) : List (Fn × Item) :=
  s.taskentries.entries.flatMap fun e => (e.2.idepends k).map fun d => (e.1.1, d.1)

/-! ### Failures -/

/-- `remove_buildtarget` and `remove_runtarget`, with `fail_fn` as `fail`. -/
def removeTarget (fail : TaskData Fn Item → Fn → Except Fatal (TaskData Fn Item)) (k : Kind)
    (target : Item) (s : TaskData Fn Item) : Except Fatal (TaskData Fn Item) := do
  let s := { s with
    failedDeps := Function.update s.failedDeps k (s.failedDeps k ++ [target]) }
  let s ← (s.getDependees k target).foldlM fail s
  (s.idependsList k).foldlM (fun s d => if d.2 = target then fail s d.1 else .ok s) s

/-- The body of the loops of `fail_fn`. -/
def removeProvider (fail : TaskData Fn Item → Fn → Except Fatal (TaskData Fn Item)) (k : Kind) (fn : Fn)
    (s : TaskData Fn Item) (target : Item) : Except Fatal (TaskData Fn Item) :=
  if fn ∈ s.providers k target then
    let l := (s.providers k target).erase fn
    let s := s.setProviders k target l
    if l = [] then removeTarget fail k target s else .ok s
  else .ok s

/-- `fail_fn`, with at most `n` calls inside each other. -/
def failFn : Nat → TaskData Fn Item → Fn → Except Fatal (TaskData Fn Item)
  | 0, _, _ => .error .rounds
  | n + 1, s, fn =>
    if fn ∈ s.failedFns then .ok s
    else do
      let s := { s with failedFns := s.failedFns ++ [fn] }
      let s ← (s.targets .build).keys.foldlM (removeProvider (failFn n) .build fn) s
      (s.targets .run).keys.foldlM (removeProvider (failFn n) .run fn) s

variable (dc : ProviderCache Fn Item)

/-- A file for each call of `fail_fn` that another waits for, and one more. -/
def fail : TaskData Fn Item → Fn → Except Fatal (TaskData Fn Item) := failFn (dc.files.length + 1)

def removeBuildtarget := removeTarget (fail dc) .build
def removeRuntarget := removeTarget (fail dc) .run

/-! ### Files -/

/-- The body of the loop over the tasks of a file. -/
def addTask (fn : Fn) (s : TaskData Fn Item) (task : Str × TaskEntry Item) : TaskData Fn Item :=
  let s := { s with taskentries := s.taskentries.set (fn, task.1) task.2 }
  let s := (task.2.idepends .build).foldl (fun s d => s.seenTarget .build d.1) s
  (task.2.idepends .run).foldl (fun s d => s.seenTarget .run d.1) s

/-- A loop over the dependencies of a file, and whether it fails the file and returns. -/
def seeDeps (k : Kind) (fn : Fn) : List Item → TaskData Fn Item → Except Fatal (TaskData Fn Item × Bool)
  | [], s => .ok (s, false)
  | dep :: deps, s =>
    let s := s.seenTarget k dep
    if dep ∈ s.failedDeps k then (fail dc s fn).map fun s => (s, true) else seeDeps k fn deps s

def setDepids (s : TaskData Fn Item) (k : Kind) (fn : Fn) : TaskData Fn Item :=
  if fn ∈ s.depids k then s
  else { s with depids := Function.update s.depids k ((s.depids k).set fn (dc.deps k fn)) }

/-- `add_tasks`. -/
def addTasks (fn : Fn) (s : TaskData Fn Item) : Except Fatal (TaskData Fn Item) :=
  if fn ∈ s.failedFns then .error .reAdded
  else if fn ∈ s.seenfns then .ok s
  else do
    let s := { s with seenfns := s.seenfns ++ [fn] }
    let s := (dc.tasks fn).entries.foldl (addTask fn) s
    let s := setDepids dc (setDepids dc s .build fn) .run fn
    let done ← seeDeps dc .build fn (((s.depids .build).get? fn).getD []) s
    if done.2 then .ok done.1
    else
      let done ← seeDeps dc .run fn (((done.1.depids .run).get? fn).getD []) done.1
      .ok done.1

/-! ### Providers -/

/-- The loop over the eligible providers of an item. -/
def addProviders (k : Kind) (item : Item) :
    List Fn → TaskData Fn Item → Except Fatal (TaskData Fn Item)
  | [], s => .ok s
  | fn :: fns, s =>
    if fn ∈ s.failedFns then addProviders k item fns s
    else do
      let s ← addTasks dc fn (s.addTarget k fn item)
      addProviders k item fns s

def eligible (s : TaskData Fn Item) (k : Kind) (item : Item) : List Fn :=
  (dc.filtered k item).filter fun fn => fn ∉ s.failedFns

/-- `add_provider_internal`: nothing where `NoProvider` is raised. -/
def addProviderInternal (item : Item) (s : TaskData Fn Item) :
    Except Fatal (Option (TaskData Fn Item)) :=
  if dc.ignored item then .ok (some s)
  else if !dc.provided .build item then .ok none
  else if s.haveTarget .build item then .ok (some s)
  else if eligible dc s .build item = [] then .ok none
  else (addProviders dc .build item (eligible dc s .build item) s).map some

/-- `add_rprovider`: nothing where `NoRProvider` or `MultipleRProvider` is raised. -/
def addRprovider (item : Item) (s : TaskData Fn Item) : Except Fatal (Option (TaskData Fn Item)) :=
  if dc.ignored item then .ok (some s)
  else if s.haveTarget .run item then .ok (some s)
  else if !dc.provided .run item then .ok none
  else if eligible dc s .run item = [] then .ok none
  else if 1 < dc.numberPreferred item then .ok none
  else (addProviders dc .run item (eligible dc s .run item) s).map some

def addProviderOf : Kind → Item → TaskData Fn Item → Except Fatal (Option (TaskData Fn Item))
  | .build => addProviderInternal dc
  | .run => addRprovider dc

def markExternalTarget (s : TaskData Fn Item) (target : Item) : TaskData Fn Item :=
  if target ∈ s.externalTargets then s
  else { s with externalTargets := s.externalTargets ++ [target] }

/-- `add_provider`. -/
def addProvider (s : TaskData Fn Item) (item : Item) : Except Fatal (TaskData Fn Item) := do
  let added ← addProviderInternal dc item s
  let s ← added.elim (removeBuildtarget dc item s) .ok
  .ok (s.markExternalTarget item)

/-- The body of the loops of `add_unresolved`, which counts the targets that were added. -/
def resolveTarget (k : Kind) (s : TaskData Fn Item × Nat) (target : Item) :
    Except Fatal (TaskData Fn Item × Nat) := do
  let added ← addProviderOf dc k target s.1
  added.elim ((removeTarget (fail dc) k target s.1).map fun s' => (s', s.2))
    fun s' => .ok (s', s.2 + 1)

/-- `add_unresolved`, with at most `n` rounds. -/
def addUnresolved : Nat → TaskData Fn Item → Except Fatal (TaskData Fn Item)
  | 0, _ => .error .rounds
  | n + 1, s => do
    let s ← (getUnresolved dc s .build).foldlM (resolveTarget dc .build) (s, 0)
    let s ← (getUnresolved dc s.1 .run).foldlM (resolveTarget dc .run) s
    if s.2 = 0 then .ok s.1 else addUnresolved n s.1

def empty : TaskData Fn Item where
  targets _ := .empty
  externalTargets := []
  seenfns := []
  taskentries := .empty
  depids _ := .empty
  failedDeps _ := []
  failedFns := []

/-- `add_provider` for each requested target, then `add_unresolved`. -/
def resolve (n : Nat) (requested : List Item) : Except Fatal (TaskData Fn Item) := do
  let s ← requested.foldlM (addProvider dc) empty
  addUnresolved dc n s

end TaskData
end BitBake
end OpenBmc
