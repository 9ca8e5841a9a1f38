import OpenBmc.BitBake.Names
import OpenBmc.Lib.Dict
import OpenBmc.Py.Sorted

/-!
# Schedulers

A scheduler has a `prio_map`, and takes from the tasks that can run now the one that stands first in
it. The speed scheduler orders the tasks by weight, and the completion scheduler groups them by name.
The basic one wraps the view of the keys in a list: its `prio_map` holds one thing, which is no task.
A set is gone through in an order that `Orders` gives.
-/

namespace OpenBmc
namespace BitBake
namespace Scheduler
open Py Names

/-- The name of a task, which `rsplit(':', 1)` cuts in two. -/
abbrev Tid := {tid : Str // ':' ∈ tid}

def fn (tid : Tid) : Str := fnFromTid tid.1

def taskname (tid : Tid) : Str := (tasknameFromTid tid.1).getD []

/-- What a scheduler reads of the run queue's data. -/
structure RunQueueData where
  /-- The keys of `runtaskentries`. -/
  tids : List Tid
  nodup : tids.Nodup
  weight : Tid → ℕ
  stampfile : Tid → Str
  /-- The flag `number_threads` of a task name, where it is set and not empty. -/
  numberThreads : Str → Option Int

inductive Kind
  | basic
  | speed
  | completion
  deriving DecidableEq

/-! ### The orders -/

/-- `d.setdefault(k, []).append(v)`. -/
def push {κ β : Type} [DecidableEq κ] (d : Dict κ (List β)) (k : κ) (v : β) : Dict κ (List β) :=
  d.set k ((d.get? k).getD [] ++ [v])

/-- `RunQueueSchedulerSpeed.__init__`. -/
def speedOrder (d : RunQueueData) : List Tid :=
  let weights := d.tids.foldl (fun weights tid => push weights (d.weight tid) tid) Dict.empty
  ((sorted weights.keys.toFinset).flatMap fun weight => (weights.get? weight).getD []).reverse

def taskLists (prioMap : List Tid) : Dict Str (List Str) :=
  prioMap.foldl (fun taskLists tid => push taskLists (fn tid) (taskname tid)) Dict.empty

/-- The variables of the merge. -/
structure Merge where
  allTasks : List Str
  index : ℕ
  oldTask : Option Str

def mergeTask (s : Merge) (newTask : Str) : Merge :=
  if s.oldTask = some newTask then
    { s with index := s.index + 1, oldTask := s.allTasks[s.index + 1]? }
  else
    match s.allTasks.idxOf? newTask with
    | some i => { s with index := i + 1, oldTask := s.allTasks[i + 1]? }
    | none => { s with allTasks := s.allTasks.insertIdx s.index newTask, index := s.index + 1 }

def mergeRecipe (allTasks newTasks : List Str) : List Str :=
  (newTasks.foldl mergeTask { allTasks, index := 0, oldTask := allTasks[0]? }).allTasks

def mergedTasks (prioMap : List Tid) : List Str := (taskLists prioMap).values.foldl mergeRecipe []

/-- The body of the loop over the places: `prio_map` and `task_index`. -/
def groupAt (task : Str) (s : List Tid × ℕ) (index : ℕ) : List Tid × ℕ :=
  match s.1[index]? with
  | some taskid =>
    if taskname taskid = task then ((s.1.eraseIdx index).insertIdx s.2 taskid, s.2 + 1) else s
  | none => s

/-- The loop over `range(task_index, numTasks)`. -/
def groupTask (numTasks : ℕ) (s : List Tid × ℕ) (task : Str) : List Tid × ℕ :=
  (List.range' s.2 (numTasks - s.2)).foldl (groupAt task) s

/-- What `RunQueueSchedulerCompletion.__init__` makes of the order of the speed scheduler. -/
def completionOrder (prioMap : List Tid) : List Tid :=
  ((mergedTasks prioMap).reverse.foldl (groupTask prioMap.length) (prioMap, 0)).1

/-! ### Choosing a task -/

/-- An element of a `prio_map`. -/
inductive Item
  | tid (tid : Tid)
  /-- A view of the keys. -/
  | keys (tids : List Tid)
  deriving DecidableEq

def prioMap (d : RunQueueData) : Kind → List Item
  | .basic => [.keys d.tids]
  | .speed => (speedOrder d).map .tid
  | .completion => (completionOrder (speedOrder d)).map .tid

structure RunQueueScheduler where
  buildable : Finset Tid
  skipMaxthread : Dict Str (Option Int)
  /-- `{}` before it is built. -/
  revPrioMap : Dict Tid ℕ

/-- What `next_buildable_task` reads of the run queue. -/
structure RunQueue where
  runqBuildable : Finset Tid
  runqRunning : Finset Tid
  runqComplete : Finset Tid
  holdoffTasks : Finset Tid
  tasksCovered : Finset Tid
  tasksNotcovered : Finset Tid
  /-- `build_stamps.values()`. -/
  buildStamps : List Str

/-- The order in which Python goes through a set. -/
structure Orders where
  list : Finset Tid → List Tid
  nodup : ∀ s, (list s).Nodup
  mem : ∀ s tid, tid ∈ list s ↔ tid ∈ s

inductive Raise
  | valueError
  | keyError
  deriving DecidableEq

def init (d : RunQueueData) (rq : RunQueue) : RunQueueScheduler where
  buildable := d.tids.toFinset.filter (· ∈ rq.runqBuildable)
  skipMaxthread := .empty
  revPrioMap := .empty

/-- `skip_maxthread` and `skip_buildable`. -/
abbrev Skips := Dict Str (Option Int) × Dict Str ℕ

/-- The body of the loop over the tasks that run. -/
def countRunning (d : RunQueueData) (s : Skips) (running : Tid) : Skips :=
  let rtaskname := taskname running
  let skipMaxthread :=
    if rtaskname ∈ s.1 then s.1 else s.1.set rtaskname (d.numberThreads rtaskname)
  match (skipMaxthread.get? rtaskname).getD none with
  | none => (skipMaxthread, s.2)
  | some _ => (skipMaxthread, s.2.set rtaskname ((s.2.get? rtaskname).getD 0 + 1))

/-- `skip_buildable[taskname] >= int(skip_maxthread[taskname])`, for a name that is in it. -/
def threadsExceeded (s : Skips) (taskname : Str) : Bool :=
  match s.2.get? taskname, (s.1.get? taskname).getD none with
  | some count, some limit => limit ≤ (count : Int)
  | _, _ => false

/-- `rev_prio_map[tid] = prio_map.index(tid)` for each task. -/
def invert (prioMap : List Item) : List Tid → Dict Tid ℕ → Except Raise Unit × Dict Tid ℕ
  | [], rev => (.ok (), rev)
  | tid :: tids, rev =>
    match prioMap.idxOf? (.tid tid) with
    | none => (.error .valueError, rev)
    | some i => invert prioMap tids (rev.set tid i)

/-- The body of the loop over the candidates: `best` with `bestprio`. -/
def consider (d : RunQueueData) (rq : RunQueue) (skips : Skips) (rev : Dict Tid ℕ)
    (best : Option (Tid × ℕ)) (tid : Tid) : Except Raise (Option (Tid × ℕ)) :=
  match rev.get? tid with
  | none => .error .keyError
  | some prio =>
    if (best.map Prod.snd).all (prio < ·) then
      if threadsExceeded skips (taskname tid) then .ok best
      else if d.stampfile tid ∈ rq.buildStamps then .ok best
      else .ok (some (tid, prio))
    else .ok best

/-- The part of `next_buildable_task` behind the special case of one candidate. -/
def nextBest (d : RunQueueData) (k : Kind) (rq : RunQueue) (skips : Skips) (buildable : List Tid)
    (rev : Dict Tid ℕ) : Except Raise (Option Tid) × Dict Tid ℕ :=
  let (built, rev) := if rev.entries = [] then invert (prioMap d k) d.tids .empty else (.ok (), rev)
  match built with
  | .error e => (.error e, rev)
  | .ok _ => ((buildable.foldlM (consider d rq skips rev) none).map (Option.map Prod.fst), rev)

/-- `next_buildable_task`, where no pressure is monitored. -/
def nextBuildableTask (d : RunQueueData) (k : Kind) (o : Orders) (rq : RunQueue) (s : RunQueueScheduler) :
    Except Raise (Option Tid) × RunQueueScheduler :=
  let s := { s with buildable := s.buildable \ rq.runqRunning }
  let buildable := (s.buildable \ rq.holdoffTasks) ∩ (rq.tasksCovered ∪ rq.tasksNotcovered)
  if buildable = ∅ then (.ok none, s)
  else
    let skips := (o.list (rq.runqRunning \ rq.runqComplete)).foldl (countRunning d)
      (s.skipMaxthread, .empty)
    let s := { s with skipMaxthread := skips.1 }
    match o.list buildable with
    | [tid] =>
      if threadsExceeded skips (taskname tid) then (.ok none, s)
      else if d.stampfile tid ∉ rq.buildStamps then (.ok (some tid), s)
      else
        -- `buildable.pop()` has emptied the set
        let r := nextBest d k rq skips [] s.revPrioMap
        (r.1, { s with revPrioMap := r.2 })
    | tids =>
      let r := nextBest d k rq skips tids s.revPrioMap
      (r.1, { s with revPrioMap := r.2 })

end Scheduler
end BitBake
end OpenBmc
