import OpenBmc.BitBake.Rehash
import OpenBmc.Py.Sorted

/-!
# The run queue

`RunQueueExecute` runs two queues. Every setscene task gets a verdict: it was covered, or it was not.
A real task is built when its dependencies are complete and the verdicts of the setscene tasks
that could spare it are known.
-/

namespace OpenBmc
namespace BitBake

/-- What a run is given: the tasks, the data of the scene queue, and the configuration. -/
structure RunQueueData (α : Type*) [LinearOrder α] extends SigData α where
  sqdata : TaskGraph.SceneQueueData α
  built : ∃ n, toTaskGraph.buildScenequeueData n = .ok sqdata
  /-- The setscene tasks that the setscene task of a task depends on. -/
  sqHarddepsRev : α → Finset α
  stamp : α → Str
  /-- The tasks in the order of the scheduler. -/
  prioMap : List α
  mem_prioMap : ∀ tid ∈ tids, tid ∈ prioMap
  /-- `BB_NUMBER_THREADS`, and the flag `number_threads` of a task. -/
  numberTasks : Nat
  numberTasks_pos : 0 < numberTasks
  numberThreads : Str → Option Int
  noexec : α → Bool
  fakeroot : α → Bool
  setsceneFakeroot : α → Bool
  halt : Bool
  force : Bool
  skipsetscene : Bool
  setsceneonly : Bool
  dryRun : Bool
  setsceneEnforce : Bool
  /-- Whether a task is among the ignored ones, where `BB_SETSCENE_ENFORCE` is set. -/
  setsceneIgnoreTasks : Option (α → Bool)

inductive StampCheck
  | task
  | recurse
  | setscene
  deriving DecidableEq

/-- What one step finds outside: the stamps, by the number of the checks before, the hashes that are
valid, and the workers. -/
structure World (α : Type*) extends HashServer α where
  checkStampTask : Nat → StampCheck → α → Bool
  validateHashes : Nat → α → Bool
  checkDependencies : α → Bool
  exceedsMaxPressure : Bool
  /-- The fakeroot worker of the task is there, or could be started. -/
  startFakeworker : α → Bool

/-- Steps that give a task a second verdict, or a verdict while its setscene task runs. -/
inductive Slip (α : Type*)
  /-- `scenequeue_updatecounters` fails a hard dependent that is in `sq_live`. -/
  | live (dep : α)
  /-- `update_scenequeue_data` skips a task that is in `scenequeue_notcovered`. -/
  | notcovered (tid : α)
  /-- `process_possible_migrations` fails a task that is in `scenequeue_covered`. -/
  | covered (tid : α)
  deriving DecidableEq

/-- The scene queue, with what changes of `sqdata`. -/
structure Scene (α : Type*) where
  sqBuildable : Finset α
  sqRunning : Finset α
  sqDeferred : Dict α α
  sqNeededHarddeps : Finset α
  sqHarddepDeferred : Finset α
  scenequeueCovered : Finset α
  scenequeueNotcovered : Finset α
  scenequeueNotneeded : Finset α
  tasksScenequeueDone : Finset α
  holdoffNeedUpdate : Bool
  stamps : α → Str
  noexec : Finset α
  stamppresent : Finset α
  valid : Finset α
  outrightfail : Finset α
  /-- `stats.setscene_covered` and `stats.setscene_notcovered`. -/
  setsceneCovered : Nat
  setsceneNotcovered : Nat
  /-- The number of stamps and hashes that were checked in this step. -/
  asked : Nat
  /-- The steps of the run that gave a wrong verdict, the last first. -/
  slips : List (Slip α)

/-- A task that a worker was told to run. -/
structure Job (α : Type*) where
  task : α
  setscene : Bool
  deriving DecidableEq

/-- What happened to the real tasks and the workers. -/
inductive Note (α : Type*)
  /-- The worker was told to run the task. -/
  | sent (job : Job α)
  /-- The worker's exit status was read. -/
  | exited (job : Job α) (status : Int)
  | noexec (task : α)
  | skipped (task : α)
  /-- The task was added to `runq_complete`. -/
  | complete (task : α)
  /-- `task_fail(task, "setscene ignore_tasks")`. -/
  | ignored (task : α)
  /-- "Failed to spawn fakeroot worker to run". -/
  | spawnFailed (task : α)
  deriving DecidableEq

inductive RqState
  | running
  | cleanUp
  | failed
  | complete
  deriving DecidableEq

structure Stats where
  completed : Int
  skipped : Int
  failed : Int
  active : Int

namespace Stats

def taskFailed (s : Stats) : Stats := { s with active := s.active - 1, failed := s.failed + 1 }

def taskCompleted (s : Stats) : Stats :=
  { s with active := s.active - 1, completed := s.completed + 1 }

def taskSkipped (s : Stats) : Stats := { s with active := s.active + 1, skipped := s.skipped + 1 }

def taskActive (s : Stats) : Stats := { s with active := s.active + 1 }

end Stats

structure State (α : Type*) where
  rqState : RqState
  scene : Scene α
  sqLive : Finset α
  sqdone : Bool
  /-- The position of `setscene_tids_generator`. -/
  generator : Nat
  sqHashes : Dict Str α
  hashes : Hashes α
  pendingMigrations : Finset α
  runqBuildable : Finset α
  runqRunning : Finset α
  runqComplete : Finset α
  runqTasksrun : Finset α
  failedTids : List α
  buildStamps : Dict α Str
  /-- The tasks and the stamps of the scheduler. -/
  buildable : Finset α
  schedStamps : α → Str
  stats : Stats
  holdoffTasks : Finset α
  tasksCovered : Finset α
  tasksNotcovered : Finset α
  /-- The tasks that the workers run, and what happened so far, the last first. -/
  workers : List (Job α)
  log : List (Note α)

namespace RunQueueData
variable {α : Type*} [LinearOrder α] (d : RunQueueData α) (w : World α)

/-! ### Verdicts -/

/-- The setscene tasks that depend on that of `task`. -/
def sqHarddeps (task : α) : List α :=
  Py.sorted (d.runqSetsceneTids.filter fun tid => task ∈ d.sqHarddepsRev tid).toFinset

/-- `check_setscene_stamps`, of a task that is executed. -/
def stamppresent (s : Scene α) (tid : α) : Bool :=
  w.checkStampTask s.asked .setscene tid || w.checkStampTask s.asked .recurse tid

/-- The body of the loop over `next` in `scenequeue_updatecounters`. -/
def markDone (r : Finset α × Finset α) (t : α) : Finset α × Finset α :=
  (insert t r.1, r.2 ∪ (d.depends t).toFinset.filter fun dep =>
    d.Real dep ∧ dep ∉ insert t r.1 ∧ d.revdeps dep ⊆ insert t r.1)

/-- `tasks_scenequeue_done` after the loop `while next`, with at most `n` rounds. -/
def markAllDone : Nat → Finset α → Finset α → Finset α
  | 0, done, _ => done
  | n + 1, done, next =>
    if next = ∅ then done
    else
      let r := (Py.sorted next).foldl d.markDone (done, ∅)
      markAllDone n r.1 r.2

/-- `scenequeue_updatecounters`, after the hard dependents. -/
def settle (s : Scene α) (task : α) : Scene α :=
  let allcovered := s.scenequeueCovered ∪ s.scenequeueNotcovered
  { s with
    sqBuildable :=
      s.sqBuildable ∪ (d.sqdata.sqDeps task).filter fun dep => d.sqdata.sqRevdeps dep ⊆ allcovered
    tasksScenequeueDone := d.markAllDone (d.tids.length + 2) s.tasksScenequeueDone {task}
    sqHarddepDeferred :=
      if d.sqHarddeps task ≠ [] then
        s.sqHarddepDeferred.filter fun dep => ¬ d.sqHarddepsRev dep ⊆ allcovered
      else s.sqHarddepDeferred
    setsceneCovered := s.scenequeueCovered.card
    setsceneNotcovered := s.scenequeueNotcovered.card
    holdoffNeedUpdate := true }

/-- `sq_task_failoutright` up to the call of `scenequeue_updatecounters`. -/
def markFailed (s : Scene α) (task : α) : Scene α :=
  { s with
    sqRunning := insert task s.sqRunning
    sqBuildable := insert task s.sqBuildable
    scenequeueNotcovered := insert task s.scenequeueNotcovered }

/-- The body of the loop over the hard dependents; `fails` is `sq_task_failoutright`. -/
def failHarddep (live : Finset α) (fails : Scene α → α → Scene α) (s : Scene α) (dep : α) : Scene α :=
  if dep ∈ s.scenequeueCovered ∨ dep ∈ s.scenequeueNotcovered then s
  else if d.noexec dep then s
  else
    let present := stamppresent w s dep
    let s := { s with asked := s.asked + 1 }
    if present then s
    else fails (if dep ∈ live then { s with slips := .live dep :: s.slips } else s) dep

/-- `sq_task_failoutright`, with at most `n` calls of itself; `live` is `sq_live`. -/
def failoutright (live : Finset α) : Nat → Scene α → α → Scene α
  | 0, s, task => markFailed s task
  | n + 1, s, task =>
    d.settle ((d.sqHarddeps task).foldl (d.failHarddep w live (failoutright live n)) (markFailed s task))
      task

def sqTaskFailoutright (live : Finset α) : Scene α → α → Scene α :=
  d.failoutright w live (d.runqSetsceneTids.length + 2)

def scenequeueUpdatecounters (live : Finset α) (fail : Bool) (s : Scene α) (task : α) : Scene α :=
  d.settle
    (if fail then (d.sqHarddeps task).foldl (d.failHarddep w live (d.sqTaskFailoutright w live)) s
      else s)
    task

def sqTaskCompleteoutright (s : Scene α) (task : α) : Scene α :=
  d.scenequeueUpdatecounters w ∅ false
    { s with scenequeueCovered := insert task s.scenequeueCovered } task

def sqTaskSkip (s : Scene α) (task : α) : Scene α :=
  d.sqTaskCompleteoutright w
    { s with sqRunning := insert task s.sqRunning, sqBuildable := insert task s.sqBuildable } task

/-- `sq_task_skip`, as `update_scenequeue_data` calls it. -/
def skipPresent (s : Scene α) (tid : α) : Scene α :=
  d.sqTaskSkip w
    (if tid ∈ s.scenequeueNotcovered then { s with slips := .notcovered tid :: s.slips } else s) tid

/-- The body of the first loop of `update_scenequeue_data`; the second component is `tocheck`. -/
def checkTid (r : Scene α × Finset α) (tid : α) : Scene α × Finset α :=
  let s := { r.1 with
    stamppresent := r.1.stamppresent.erase tid
    valid := r.1.valid.erase tid
    outrightfail := r.1.outrightfail.erase tid }
  if d.noexec tid then (d.skipPresent w { s with noexec := insert tid s.noexec } tid, r.2)
  else
    let present := stamppresent w s tid
    let s := { s with asked := s.asked + 1 }
    if present then
      (d.skipPresent w { s with stamppresent := insert tid s.stamppresent } tid, r.2)
    else (s, insert tid r.2)

def updateScenequeueData (s : Scene α) (tids : Finset α) : Scene α :=
  let r := (Py.sorted tids).foldl (d.checkTid w) (s, ∅)
  let s := { r.1 with
    valid := r.1.valid ∪ r.2.filter fun tid => w.validateHashes r.1.asked tid
    asked := r.1.asked + 1 }
  { s with
    outrightfail := s.outrightfail ∪ tids.filter fun tid =>
      tid ∉ s.stamppresent ∧ tid ∉ s.valid ∧ tid ∉ s.noexec ∧ tid ∉ s.scenequeueCovered ∧
        tid ∉ s.scenequeueNotcovered ∧ tid ∉ s.sqDeferred }

/-! ### The real tasks -/

def setbuildable (s : State α) (task : α) : State α :=
  { s with
    runqBuildable := insert task s.runqBuildable
    buildable := insert task s.buildable }

/-- The reverse dependencies of a task whose dependencies are complete now. -/
def freed (s : State α) (task : α) : Finset α :=
  (d.revdeps task).filter fun revdep =>
    revdep ∉ s.runqRunning ∧ revdep ∉ s.runqBuildable ∧ ∀ dep ∈ d.depends revdep, dep ∈ s.runqComplete

/-- The tasks that are deferred against `task`. -/
def deferredTids (s : Scene α) (task : α) : List α :=
  (s.sqDeferred.keys.filter fun t => s.sqDeferred.get? t = some task).insertionSort (· ≤ ·)

/-- The next deferred task may run, and the others are deferred after it. -/
def undefer (s : Scene α) (task : α) : Scene α :=
  match deferredTids s task with
  | [] => s
  | found :: rest =>
    let s := d.updateScenequeueData w { s with sqDeferred := s.sqDeferred.erase found } {found}
    { s with sqDeferred := rest.foldl (fun deferred t => deferred.set t found) s.sqDeferred }

def taskCompleteoutright (s : State α) (task : α) : State α :=
  let s := { s with
    runqComplete := insert task s.runqComplete, log := .complete task :: s.log }
  { s with
    runqBuildable := s.runqBuildable ∪ d.freed s task
    buildable := s.buildable ∪ d.freed s task
    scene := d.undefer w s.scene task }

def taskComplete (s : State α) (task : α) : State α :=
  let s := d.taskCompleteoutright w { s with stats := s.stats.taskCompleted } task
  { s with runqTasksrun := insert task s.runqTasksrun }

def taskFail (s : State α) (task : α) : State α :=
  { s with
    stats := s.stats.taskFailed
    failedTids := s.failedTids ++ [task]
    rqState := if d.halt then .cleanUp else s.rqState }

def taskSkip (s : State α) (task : α) : State α :=
  let s := setbuildable { s with
    runqRunning := insert task s.runqRunning, log := .skipped task :: s.log } task
  let s := d.taskCompleteoutright w s task
  { s with stats := s.stats.taskSkipped.taskCompleted }

/-! ### What the workers say -/

inductive Message (α : Type*)
  | exitcode (job : Job α) (status : Int)
  | taskUniHashUpdate (task : α) (unihash : Str)
  /-- A worker exited unexpectedly. -/
  | workerDied

def sqTaskFail (s : State α) (task : α) : State α :=
  let s := { s with
    scene := d.scenequeueUpdatecounters w s.sqLive true
      { s.scene with scenequeueNotcovered := insert task s.scene.scenequeueNotcovered } task }
  -- `sq_check_taskfail`
  { s with rqState := if ∃ ignored ∈ d.setsceneIgnoreTasks, ¬ ignored task then .cleanUp else s.rqState }

def runqueueProcessWaitpid (s : State α) (task : α) (status : Int) : State α :=
  let s := { s with buildStamps := s.buildStamps.erase task }
  if task ∈ s.sqLive then
    let s := if status ≠ 0 then d.sqTaskFail w s task
      else { s with scene := d.sqTaskCompleteoutright w s.scene task }
    { s with sqLive := s.sqLive.erase task }
  else if status ≠ 0 then d.taskFail s task
  else d.taskComplete w s task

def finishNow (s : State α) : State α :=
  { s with rqState := if s.failedTids ≠ [] then .failed else .complete }

/-- A worker says nothing of a task that it does not run. -/
def readMessage (s : State α) : Message α → State α
  | .exitcode job status =>
    if job ∈ s.workers then
      d.runqueueProcessWaitpid w
        { s with workers := s.workers.erase job, log := .exited job status :: s.log } job.task status
    else s
  | .taskUniHashUpdate task unihash =>
    { s with hashes :=
      { s.hashes with updatedTaskhashQueue := s.hashes.updatedTaskhashQueue ++ [(task, unihash)] } }
  | .workerDied => finishNow s

def readWorkers (s : State α) (messages : List (Message α)) : State α :=
  messages.foldl (d.readMessage w) s

/-- `finish`: `messages` is what there is to read, if it has to wait for the workers. -/
def finish (s : State α) (messages : List (Message α)) : State α :=
  let s := { s with rqState := .cleanUp }
  if 0 < s.stats.active + (s.sqLive.card : Int) then d.readWorkers w s messages else finishNow s

end RunQueueData
end BitBake
end OpenBmc
