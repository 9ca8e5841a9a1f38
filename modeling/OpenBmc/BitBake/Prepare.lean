import OpenBmc.BitBake.TaskData
import OpenBmc.Py.Words

/-!
# The dependencies of each task

`add_tasks` records what the tasks of a file declare, and the first loop of `RunQueueData.prepare`
resolves it through the providers of each multiconfig. `prepareTask_depends` is the result of the
loop for one task: what it declares, and, where it has an `mcdepends` flag, what the `mcdepends` of
all the tasks of its multiconfig name. A file of a multiconfig has the multiconfig in its name; here
the two are kept apart.
-/

namespace OpenBmc
namespace BitBake
namespace Prepare
open Py

structure Tid (Fn : Type) where
  mc : Str
  fn : Fn
  task : Str
deriving DecidableEq

/-- `task_deps` of a file: its tasks, and the flags of each. -/
structure TaskDeps where
  tasks : List Str
  parents : Str → List Str
  /-- `depends` and `rdepends`. -/
  depends : Kind → Str → Option Str
  /-- `deptask` and `rdeptask`. -/
  deptask : Kind → Str → Option Str
  recrdeptask : Str → Option Str
  mcdepends : Str → Option Str

/-- `dataCache`. -/
structure Recipes (Fn : Type) where
  taskDeps : Fn → TaskDeps
  /-- `deps`, and the packages of `rundeps` and `runrecs`. -/
  deps : Kind → Fn → List Str

structure Entry (Fn : Type) where
  tdepends : List (Tid Fn)
  /-- `idepends` and `irdepends`. -/
  idepends : Kind → List (Str × Str)

/-- What `add_tasks` records in a `TaskData`. -/
structure Records (Fn : Type) where
  seenfns : List Fn
  taskentries : Dict (Fn × Str) (Entry Fn)
  depids : Kind → Dict Fn (List Str)
  mcdepends : List Str

inductive Fatal
  /-- "dependency %s in '%s' does not contain exactly one ':' character." -/
  | notOneColon (dep : Str)
  /-- "multiconfig dependency %s does not contain exactly four  ':' characters." -/
  | notFourColons (dep : Str)
  /-- "Multiconfig '%s' is referenced in multiconfig dependency '%s' but not enabled in BBMULTICONFIG?" -/
  | notEnabled (mcdep dep : Str)
  /-- `build_targets[pn][0]` raises. -/
  | noProvider (pn : Str)
  /-- "Task mcdepends on non-existent task %s" -/
  | mcNonExistent (pn deptask : Str)
  /-- "Task %s in %s depends upon non-existent task %s in %s", or "rdepends". -/
  | nonExistent (k : Kind) (depname idependtask : Str)
deriving DecidableEq

variable {Fn : Type} [DecidableEq Fn]

/-! ### `add_tasks` -/

def Records.empty : Records Fn where
  seenfns := []
  taskentries := .empty
  depids _ := .empty
  mcdepends := []

/-- One dependency of `handle_deps`. -/
def handleDep (dep : Str) : Except Fatal (Str × Str) :=
  match dep.splitOn ':' with
  | [depname, task] => .ok (depname, task)
  | _ => .error (.notOneColon dep)

def handleDeps (flag : Option Str) : Except Fatal (List (Str × Str)) :=
  ((flag.map words).getD []).mapM handleDep

/-- The body of the loop of `add_mcdepends`. -/
def addMcdepend (mcdepends : List Str) (dep : Str) : Except Fatal (List Str) :=
  if (dep.splitOn ':').length ≠ 5 then .error (.notFourColons dep)
  else .ok (if dep ∈ mcdepends then mcdepends else mcdepends ++ [dep])

/-- The body of the loop over the tasks of a file. -/
def addTask (mc : Str) (taskDeps : TaskDeps) (fn : Fn) (r : Records Fn) (task : Str) :
    Except Fatal (Records Fn) := do
  let parentids := ((taskDeps.parents task).filter (· ∈ taskDeps.tasks)).map (Tid.mk mc fn)
  let idepends ← handleDeps (taskDeps.depends .build task)
  let irdepends ← handleDeps (taskDeps.depends .run task)
  let mcdepends ← (((taskDeps.mcdepends task).map words).getD []).foldlM addMcdepend r.mcdepends
  return { r with
    taskentries := r.taskentries.set (fn, task)
      { tdepends := parentids, idepends := fun k => if k = .build then idepends else irdepends }
    mcdepends }

/-- `add_tasks`, what it records; for the failed dependencies see `TaskData.addTasks`. -/
def addTasks (mc : Str) (recipes : Recipes Fn) (r : Records Fn) (fn : Fn) :
    Except Fatal (Records Fn) :=
  if fn ∈ r.seenfns then .ok r
  else do
    let r := { r with seenfns := r.seenfns ++ [fn] }
    let r ← (recipes.taskDeps fn).tasks.foldlM (addTask mc (recipes.taskDeps fn) fn) r
    return { r with depids := fun k => (r.depids k).set fn (recipes.deps k fn) }

/-- The `TaskData` of a multiconfig, with the providers that were found. A target that failed has
none where no file failed. -/
structure McTaskData (Fn : Type) [DecidableEq Fn] (mc : Str) where
  recipes : Recipes Fn
  files : List Fn
  records : Records Fn
  recorded : files.foldlM (addTasks mc recipes) .empty = .ok records
  /-- `build_targets` and `run_targets`. -/
  targets : Kind → Dict Str (List Fn)
  failedDeps : List Str
  failedFns : List Fn
  failed_targets : failedFns = [] →
    ∀ item ∈ failedDeps, ((targets .build).get? item).getD [] = []

/-- The provider that is chosen for a target. -/
def McTaskData.provider {mc : Str} (td : McTaskData Fn mc) (k : Kind) (item : Str) : Option Fn :=
  (((td.targets k).get? item).getD []).head?

/-! ### The first loop of `prepare` -/

/-- The `tdepends` of each task entry, which the loop adds to, and `runtaskentries`. -/
structure Queue (Fn : Type) where
  tdepends : Tid Fn → List (Tid Fn)
  runtaskentries : Dict (Tid Fn) (Finset (Tid Fn))

/-- A multiconfig, and its `TaskData`. -/
abbrev Multiconfig (Fn : Type) [DecidableEq Fn] := (mc : Str) × McTaskData Fn mc

/-- `taskData[mc]`. -/
def lookup (taskData : List (Multiconfig Fn)) (mc : Str) : Option (Multiconfig Fn) :=
  taskData.find? fun m => m.1 = mc

/-- `add_build_dependencies` and `add_runtime_dependencies`. -/
def addDependencies (m : Multiconfig Fn) (k : Kind) (depids tasknames : List Str)
    (depends : Finset (Tid Fn)) : Finset (Tid Fn) :=
  depids.foldl (fun depends depname =>
    match m.2.provider k depname with
    | none => depends
    | some depdata =>
      tasknames.foldl (fun depends taskname =>
        if (depdata, taskname) ∈ m.2.records.taskentries then
          insert ⟨m.1, depdata, taskname⟩ depends
        else depends) depends) depends

/-- The body of the loop of `add_mc_dependencies`. -/
def addMcDependency (taskData : List (Multiconfig Fn)) (mc : Str) (tid : Tid Fn) (q : Queue Fn)
    (dep : Str) : Except Fatal (Queue Fn) :=
  let mcdependency := dep.splitOn ':'
  let pn := mcdependency.getD 3 []
  let frommc := mcdependency.getD 1 []
  let mcdep := mcdependency.getD 2 []
  let deptask := mcdependency.getD 4 []
  match lookup taskData mcdep with
  | none => .error (.notEnabled mcdep dep)
  | some m =>
    if mc = frommc then
      match m.2.provider .build pn with
      | none => .error (.noProvider pn)
      | some fn =>
        if (fn, deptask) ∉ m.2.records.taskentries then .error (.mcNonExistent pn deptask)
        else .ok { q with
          tdepends := Function.update q.tdepends tid (q.tdepends tid ++ [⟨mcdep, fn, deptask⟩]) }
    else .ok q

/-- The body of the loops over `idepends` and `irdepends`. -/
def addIdepend (m : Multiconfig Fn) (k : Kind) (depends : Finset (Tid Fn)) (d : Str × Str) :
    Except Fatal (Finset (Tid Fn)) :=
  match m.2.provider k d.1 with
  | none => .ok depends
  | some depdata =>
    if k = .build ∧ d.1 ∈ m.2.failedDeps then .ok depends
    else if (depdata, d.2) ∉ m.2.records.taskentries then .error (.nonExistent k d.1 d.2)
    else .ok (insert ⟨m.1, depdata, d.2⟩ depends)

/-- `add_build_dependencies` or `add_runtime_dependencies`, where the flag is set. -/
def addFlag (m : Multiconfig Fn) (k : Kind) (fn : Fn) (flag : Option Str)
    (depends : Finset (Tid Fn)) : Finset (Tid Fn) :=
  match flag with
  | none => depends
  | some tasknames =>
    addDependencies m k (((m.2.records.depids k).get? fn).getD []) (words tasknames) depends

/-- `add_mc_dependencies`, where the task has the flag. -/
def addMcDependencies (taskData : List (Multiconfig Fn)) (m : Multiconfig Fn) (tid : Tid Fn)
    (flag : Option Str) (q : Queue Fn) : Except Fatal (Queue Fn) :=
  if flag.isSome then m.2.records.mcdepends.foldlM (addMcDependency taskData m.1 tid) q else .ok q

/-- The dependencies of a task, up to the recursive ones of part B. -/
def resolve (m : Multiconfig Fn) (key : Fn × Str) (tdepends : List (Tid Fn)) :
    Except Fatal (Finset (Tid Fn)) := do
  let fn := key.1
  let taskname := key.2
  let taskDeps := m.2.recipes.taskDeps fn
  let entry := m.2.records.taskentries.get? key
  let depends := tdepends.toFinset
  let depends := addFlag m .build fn (taskDeps.deptask .build taskname) depends
  let depends := addFlag m .run fn (taskDeps.deptask .run taskname) depends
  let depends ← ((entry.map fun e => e.idepends .build).getD []).foldlM (addIdepend m .build) depends
  let depends ← ((entry.map fun e => e.idepends .run).getD []).foldlM (addIdepend m .run) depends
  let depends := addFlag m .build fn (taskDeps.recrdeptask taskname) depends
  return addFlag m .run fn (taskDeps.recrdeptask taskname) depends

/-- The body of the loop. -/
def prepareTask (taskData : List (Multiconfig Fn)) (m : Multiconfig Fn) (q : Queue Fn)
    (key : Fn × Str) : Except Fatal (Queue Fn) :=
  let tid : Tid Fn := ⟨m.1, key.1, key.2⟩
  let q := { q with runtaskentries := q.runtaskentries.set tid ∅ }
  if key.1 ∈ m.2.failedFns then .ok q
  else do
    -- the multiconfig dependencies come before the internal ones (`tdepends`)
    let q ← addMcDependencies taskData m tid ((m.2.recipes.taskDeps key.1).mcdepends key.2) q
    let depends ← resolve m key (q.tdepends tid)
    return { q with runtaskentries := q.runtaskentries.set tid (depends.erase tid) }

/-- The `tdepends` that `add_tasks` recorded. -/
def start (taskData : List (Multiconfig Fn)) : Queue Fn where
  tdepends := fun tid =>
    (((lookup taskData tid.mc).bind fun m => m.2.records.taskentries.get? (tid.fn, tid.task)).map
      Entry.tdepends).getD []
  runtaskentries := .empty

/-- The first loop of `prepare`. -/
def firstLoop (taskData : List (Multiconfig Fn)) : Except Fatal (Queue Fn) :=
  taskData.foldlM (fun q m => m.2.records.taskentries.keys.foldlM (prepareTask taskData m) q)
    (start taskData)

end Prepare
end BitBake
end OpenBmc
