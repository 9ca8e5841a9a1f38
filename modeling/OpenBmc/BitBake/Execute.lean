import OpenBmc.BitBake.RunQueue

/-!
# Runs of the run queue

`execute` is called again and again while the state is `runQueueRunning`, and `finish` while it is
`runQueueCleanUp`. Each call reads what the workers said and starts one task at most.
-/

namespace OpenBmc
namespace BitBake

/-- A part of `execute` returns from it, or goes on. -/
inductive Flow (σ : Type*)
  | returned (s : σ)
  | onwards (s : σ)

def Flow.state {σ : Type*} : Flow σ → σ
  | .returned s => s
  | .onwards s => s

def Flow.bind {σ : Type*} : Flow σ → (σ → Flow σ) → Flow σ
  | .returned s, _ => .returned s
  | .onwards s, f => f s

namespace RunQueueData
variable {α : Type*} [LinearOrder α] (d : RunQueueData α) (w : World α)

/-! ### Migrations -/

/-- The task runs in a worker, or failed there. -/
def unfinished (s : State α) : Finset α := s.runqRunning \ s.runqComplete

/-- A task that the setscene task covers "marked as completed but now needing to rerun". -/
def needsRerun (s : State α) (dep : α) : Prop := dep ∈ s.runqComplete ∧ dep ∉ s.runqTasksrun

instance (s : State α) (dep : α) : Decidable (needsRerun s dep) :=
  inferInstanceAs (Decidable (_ ∧ _))

/-- `tasks_scenequeue_done` after the loop over the covered tasks, up to the first that halts the
build. -/
def undone (s : State α) (tid : α) : Finset α :=
  (s.scene.tasksScenequeueDone.erase tid).filter fun dep =>
    ¬ (dep ∈ (d.iter (d.sqdata.sqCoveredTasks tid)).takeWhile (fun dep => ¬ needsRerun s dep) ∧
      dep ∉ s.runqComplete ∧ dep ∉ d.sqdata.unskippable)

/-- `stampfile_mcfn` of `siggen.stampfile`, for a task or its setscene task. -/
def stampfile (s : Siggen α) (tid : α) (setscene : Bool) : Str :=
  (d.stamp tid ++ '.' :: d.taskname tid ++ (if setscene then "_setscene".toList else []) ++
    '.' :: ((d.lookupUnihash s tid).getD (s.taskhash tid)) ++ ['.']).rdropWhile (· = '.')

/-- The sets that `tid` is taken out of. -/
def reopen (s : State α) (tid : α) : State α :=
  { s with
    scene := { s.scene with
      sqBuildable := s.scene.sqBuildable.erase tid
      sqRunning := s.scene.sqRunning.erase tid
      outrightfail := s.scene.outrightfail.erase tid
      scenequeueNotcovered := s.scene.scenequeueNotcovered.erase tid
      scenequeueCovered := s.scene.scenequeueCovered.erase tid
      scenequeueNotneeded := s.scene.scenequeueNotneeded.erase tid
      stamps := Function.update s.scene.stamps tid (d.stampfile s.hashes.siggen tid false) }
    buildStamps := s.buildStamps.erase tid }

/-- The loop over `pending_migrations`: the tasks that migrate, or `none` when the build is halted. -/
def migrate : List α → State α → List α → State α × Option (List α)
  | [], s, updateTasks => (s, some updateTasks)
  | tid :: tids, s, updateTasks =>
    if tid ∈ s.runqRunning ∨ tid ∈ s.sqLive then
      migrate tids { s with pendingMigrations := s.pendingMigrations.erase tid } updateTasks
    else if ∃ dep ∈ d.sqdata.sqCoveredTasks tid, dep ∈ unfinished s then migrate tids s updateTasks
    else
      let t := { s with
        pendingMigrations := s.pendingMigrations.erase tid
        scene := { s.scene with tasksScenequeueDone := d.undone s tid } }
      if ∃ dep ∈ d.sqdata.sqCoveredTasks tid, needsRerun s dep then
        ({ t with failedTids := t.failedTids ++ [tid], rqState := .cleanUp }, none)
      else migrate tids (d.reopen t tid) (updateTasks ++ [tid])

def harddepfail (s : Scene α) (tid : α) : Bool :=
  decide (∃ t ∈ d.sqHarddepsRev tid, t ∈ s.scenequeueNotcovered)

/-- The body of the loop over `update_tasks`. -/
def rebuildable (s : Scene α) (tid : α) : Scene α :=
  { s with
    sqBuildable :=
      if ¬ d.harddepfail s tid ∧
            d.sqdata.sqRevdeps tid ⊆ s.scenequeueCovered ∪ s.scenequeueNotcovered ∨
          d.sqdata.sqRevdeps tid = ∅ then insert tid s.sqBuildable
      else s.sqBuildable }

def pendingHashIndex (s : Hashes α) (tid : α) : Str :=
  d.pn tid ++ ':' :: "taskname".toList ++ s.unihash tid

/-- The setscene tasks among `tids`, by their configuration and then by their name. -/
def byMulticonfig (tids : Finset α) : List α :=
  (((d.runqSetsceneTids.map d.mc).dedup.insertionSort (· ≤ ·)).flatMap fun mc =>
    Py.sorted (tids.filter fun tid => d.mc tid = mc))

/-- A task that migrated waits for the first with its hash. -/
def redefer (s : State α) (deferred : Dict α α) (tid : α) : Dict α α :=
  match s.sqHashes.get? (d.pendingHashIndex s.hashes tid) with
  | some first => if tid ≠ first then deferred.set tid first else deferred
  | none => deferred

def failUnavailable (live : Finset α) (s : Scene α) (tid : α) : Scene α :=
  d.sqTaskFailoutright w live
    (if tid ∈ s.scenequeueCovered then { s with slips := .covered tid :: s.slips } else s) tid

/-- The end of `process_possible_migrations`, for the tasks that migrate. -/
def updateMigrated (s : State α) (updateTasks : List α) : State α :=
  let s := { s with scene := updateTasks.foldl d.rebuildable s.scene }
  -- a later task of `update_tasks` changes neither verdicts nor hard dependencies
  let fails := updateTasks.filter (d.harddepfail s.scene)
  if updateTasks = [] then s
  else
    let s := { s with
      sqdone := false
      scene := { s.scene with
        sqDeferred := (d.byMulticonfig updateTasks.toFinset).foldl (d.redefer s) s.scene.sqDeferred } }
    let scene := d.updateScenequeueData w s.scene updateTasks.toFinset
    { s with scene := fails.foldl (d.failUnavailable w s.sqLive) scene }

/-- The second half of `process_possible_migrations`, after the tasks in `changed` were rehashed. -/
def processMigrations (s : State α) (changed : Finset α) : State α :=
  let s := { s with
    pendingMigrations := s.pendingMigrations ∪ changed.filter (· ∈ d.runqSetsceneTids) }
  let r := d.migrate (d.iter s.pendingMigrations) s []
  match r.2 with
  | none => r.1
  | some updateTasks =>
    let s := d.updateMigrated w r.1 updateTasks
    if changed = ∅ ∧ updateTasks = [] then s
    else { s with
      scene := { s.scene with
        setsceneCovered := s.scene.scenequeueCovered.card
        setsceneNotcovered := s.scene.scenequeueNotcovered.card
        sqNeededHarddeps := ∅
        sqHarddepDeferred := ∅
        holdoffNeedUpdate := true } }

def processPossibleMigrations (s : State α) : State α :=
  match d.rehash w.toHashServer (unfinished s) s.scene.sqDeferred (s.scene.scenequeueCovered ∪ s.sqLive)
    (d.tids.length + 2) s.hashes with
  | none => s
  | some r => d.processMigrations w { s with hashes := r.hashes } r.changed

/-! ### The setscene tasks -/

def canStartTask (s : State α) : Bool := s.stats.active + (s.sqLive.card : Int) < d.numberTasks

/-- The tests that come before the expensive ones. -/
def eligible (s : State α) (nexttask : α) : Prop :=
  nexttask ∈ s.scene.sqBuildable ∧ nexttask ∉ s.scene.sqRunning ∧
    s.scene.stamps nexttask ∉ s.buildStamps.values ∧ nexttask ∉ s.scene.sqHarddepDeferred ∧
    ∀ t ∈ s.scene.sqDeferred.get? nexttask, t ∈ s.runqComplete

instance (s : State α) (nexttask : α) : Decidable (eligible s nexttask) :=
  inferInstanceAs (Decidable (_ ∧ _))

/-- Everything that needs the task was covered. -/
def unneeded (s : Scene α) (nexttask : α) : Prop :=
  nexttask ∉ d.sqdata.unskippable ∧ d.sqdata.sqRevdeps nexttask ≠ ∅ ∧
    nexttask ∉ s.sqNeededHarddeps ∧ d.sqdata.sqRevdeps nexttask ⊆ s.scenequeueCovered ∧
    w.checkDependencies nexttask ∧ nexttask ∉ d.targetTids

instance (s : Scene α) (nexttask : α) : Decidable (d.unneeded w s nexttask) :=
  inferInstanceAs (Decidable (_ ∧ _))

/-- A task that is not needed is skipped. -/
def skipUnneeded (s : Scene α) (nexttask : α) : Scene α :=
  let s := d.sqTaskSkip w s nexttask
  { s with
    scenequeueNotneeded := insert nexttask s.scenequeueNotneeded
    sqDeferred := s.sqDeferred.erase nexttask }

/-- The hard dependencies of the task are enabled first. -/
def enableHarddeps (s : Scene α) (nexttask : α) : Scene α :=
  { s with
    sqBuildable := s.sqBuildable ∪ (d.sqHarddepsRev nexttask \ s.sqNeededHarddeps)
    sqNeededHarddeps := s.sqNeededHarddeps ∪ d.sqHarddepsRev nexttask
    sqHarddepDeferred := insert nexttask s.sqHarddepDeferred }

/-- What the loop over the setscene tasks comes to. -/
inductive Pick (α : Type*)
  | task (task : α)
  | returned
  | none

/-- The loop over the setscene tasks, for `n` more of them. A task that is covered by the next one and
runs is passed over by the loop over the covered tasks alone, which so has no effect. -/
def pickSetscene : Nat → State α → State α × Pick α
  | 0, s => (s, .none)
  | n + 1, s =>
    match d.runqSetsceneTids[s.generator % d.runqSetsceneTids.length]? with
    | none => (s, .none)
    | some nexttask =>
      let s := { s with generator := s.generator + 1 }
      if eligible s nexttask then
        if d.unneeded w s.scene nexttask then
          ({ s with scene := d.skipUnneeded w s.scene nexttask }, .returned)
        else if ¬ d.sqHarddepsRev nexttask ⊆ s.scene.scenequeueCovered ∪ s.scene.scenequeueNotcovered then
          let t := { s with scene := d.enableHarddeps s.scene nexttask }
          if d.sqHarddepsRev nexttask ⊆ s.scene.sqNeededHarddeps then pickSetscene n t
          else (t, .returned)
        else
          let t := { s with scene := { s.scene with
            sqDeferred := s.scene.sqDeferred.erase nexttask, asked := s.scene.asked + 1 } }
          if nexttask ∈ s.scene.sqDeferred ∧ ¬ w.validateHashes s.scene.asked nexttask ∨
              nexttask ∈ t.scene.outrightfail then
            ({ t with scene := d.sqTaskFailoutright w t.sqLive t.scene nexttask }, .returned)
          else (t, .task nexttask)
      else pickSetscene n s

/-- The setscene task is sent to a worker. -/
def sendSetscene (s : State α) (task : α) : Flow (State α) :=
  if d.setsceneFakeroot task ∧ ¬ d.dryRun ∧ ¬ w.startFakeworker task then
    -- the exception ends the run
    .returned { s with rqState := .complete }
  else
    let s := { s with
      workers := ⟨task, true⟩ :: s.workers
      log := .sent ⟨task, true⟩ :: s.log
      buildStamps := s.buildStamps.set task (d.stampfile s.hashes.siggen task true)
      scene := { s.scene with sqRunning := insert task s.scene.sqRunning }
      sqLive := insert task s.sqLive }
    if d.canStartTask s then .returned s else .onwards s

def startSetscene (s : State α) (task : α) : Flow (State α) :=
  let t := { s with scene := { s.scene with asked := s.scene.asked + 1 } }
  if w.checkStampTask s.scene.asked .recurse task ∨ d.force ∧ task ∈ d.targetTids then
    .returned { t with scene := d.sqTaskFailoutright w t.sqLive t.scene task }
  else if w.checkStampTask s.scene.asked .setscene task then
    .returned { t with scene := d.sqTaskSkip w t.scene task }
  else if d.skipsetscene then
    .returned { t with scene := d.sqTaskFailoutright w t.sqLive t.scene task }
  else d.sendSetscene w t task

def executeSetscene (s : State α) : Flow (State α) :=
  if ¬ s.sqdone ∧ d.canStartTask s then
    let r := d.pickSetscene w d.runqSetsceneTids.length s
    match r.2 with
    | .returned => .returned r.1
    | .none => .onwards r.1
    | .task task => d.startSetscene w r.1 task
  else .onwards s

/-! ### The tasks that are held off -/

def notcovered (s : Scene α) : Finset α :=
  (s.scenequeueNotcovered ∪ d.sqdata.cantskip ∪
    s.scenequeueNotcovered.biUnion d.sqdata.sqCoveredTasks ∪
    d.sqdata.unskippable.filter d.Real) ∩ s.tasksScenequeueDone

def covered (s : Scene α) : Finset α :=
  ((s.scenequeueCovered ∪ s.scenequeueCovered.biUnion d.sqdata.sqCoveredTasks) \ d.notcovered s) ∩
    s.tasksScenequeueDone

/-- The setscene tasks without a verdict. -/
def undecided (s : Scene α) : Finset α :=
  d.runqSetsceneTids.toFinset \ (s.scenequeueCovered ∪ s.scenequeueNotcovered)

def updateHoldofftasks (s : State α) : State α :=
  if s.scene.holdoffNeedUpdate then
    let ready := (d.notcovered s.scene ∪ d.covered s.scene).filter fun tid =>
      ∀ dep ∈ d.depends tid, dep ∈ s.runqComplete
    { s with
      runqBuildable := s.runqBuildable ∪ ready
      buildable := s.buildable ∪ ready
      tasksCovered := d.covered s.scene
      tasksNotcovered := d.notcovered s.scene
      holdoffTasks := d.undecided s.scene ∪
        (d.undecided s.scene).biUnion fun tid => d.sqdata.sqCoveredTasks tid \ s.runqComplete
      scene := { s.scene with holdoffNeedUpdate := false } }
  else s

/-- `summarise_scenequeue_errors`. -/
def scenequeueErrors (s : State α) : Prop :=
  s.scene.sqDeferred.keys ≠ [] ∨ s.hashes.updatedTaskhashQueue ≠ [] ∨ s.holdoffTasks ≠ ∅ ∨
    (∃ tid ∈ d.runqSetsceneTids,
      tid ∉ s.scene.scenequeueCovered ∧ tid ∉ s.scene.scenequeueNotcovered ∨
        tid ∉ s.scene.sqBuildable ∨ tid ∉ s.scene.sqRunning) ∨
    ∃ x ∈ d.tids, x ∉ s.tasksCovered ∧ x ∉ s.tasksNotcovered ∨ x ∉ s.scene.tasksScenequeueDone ∨
      d.depends x = [] ∧ x ∉ s.runqBuildable

instance (s : State α) : Decidable (d.scenequeueErrors s) := inferInstanceAs (Decidable (_ ∨ _))

/-- Nothing is left of the scene queue, and it was not declared done. -/
def sceneDone (s : State α) : Prop :=
  s.sqLive = ∅ ∧ ¬ s.sqdone ∧ s.scene.sqDeferred.keys = [] ∧ s.hashes.updatedTaskhashQueue = [] ∧
    s.holdoffTasks = ∅

instance (s : State α) : Decidable (sceneDone s) := inferInstanceAs (Decidable (_ ∧ _))

def declareDone (s : State α) : Flow (State α) :=
  if sceneDone s then
    if d.scenequeueErrors s then .returned { s with rqState := .failed }
    else if d.setsceneonly then .returned { s with rqState := .complete }
    else if d.tids = [] then .returned { s with sqdone := true, rqState := .complete }
    else .onwards { s with sqdone := true }
  else .onwards s

/-! ### The real tasks -/

/-- A task of this name must wait for others of its name. -/
def threadsExceeded (s : State α) (tid : α) : Prop :=
  let running := (unfinished s).filter fun running => d.taskname running = d.taskname tid
  running ≠ ∅ ∧ ∃ n ∈ d.numberThreads (d.taskname tid), n ≤ (running.card : Int)

instance (s : State α) (tid : α) : Decidable (d.threadsExceeded s tid) :=
  inferInstanceAs (Decidable (_ ∧ _))

/-- The tasks that the scheduler chooses from. The source takes the tasks that run out of `buildable`
first, and never puts them back. -/
def candidates (s : State α) : Finset α :=
  ((s.buildable \ s.runqRunning) \ s.holdoffTasks) ∩ (s.tasksCovered ∪ s.tasksNotcovered)

/-- `next_buildable_task` of a scheduler with a priority map. -/
def nextBuildableTask (s : State α) : Option α :=
  if s.stats.active ≠ 0 ∧ w.exceedsMaxPressure then none
  else d.prioMap.find? fun tid => tid ∈ candidates s ∧ ¬ d.threadsExceeded s tid ∧
    s.schedStamps tid ∉ s.buildStamps.values

/-- `sched.next`, unless only setscene tasks are executed. -/
def nextTask (s : State α) : Option α :=
  if ¬ d.setsceneonly ∧ d.canStartTask s then d.nextBuildableTask w s else none

/-- `check_setscene_ignore_tasks`, where the list is set. -/
def ignores (s : State α) (tid : α) : Prop :=
  (∃ ignored ∈ d.setsceneIgnoreTasks, ¬ ignored tid) ∧ tid ∉ s.tasksCovered ∧
    ¬ w.checkStampTask s.scene.asked .task tid ∧ ¬ d.noexec tid

instance (s : State α) (tid : α) : Decidable (d.ignores w s tid) :=
  inferInstanceAs (Decidable (_ ∧ _))

def sendTask (s : State α) (task : α) : Flow (State α) :=
  if d.fakeroot task ∧ ¬ (d.dryRun ∨ d.setsceneEnforce) ∧ ¬ w.startFakeworker task then
    .returned { s with
      rqState := .failed, stats := s.stats.taskFailed, log := .spawnFailed task :: s.log }
  else
    let s := { s with
      workers := ⟨task, false⟩ :: s.workers
      log := .sent ⟨task, false⟩ :: s.log
      buildStamps := s.buildStamps.set task (d.stampfile s.hashes.siggen task false)
      runqRunning := insert task s.runqRunning
      stats := s.stats.taskActive }
    if d.canStartTask s then .returned s else .onwards s

/-- A task that is not executed is complete at once. -/
def runNoexec (s : State α) (task : α) : State α :=
  d.taskComplete w { s with
    runqRunning := insert task s.runqRunning
    stats := s.stats.taskActive
    log := .noexec task :: s.log } task

def startTask (s : State α) (task : α) : Flow (State α) :=
  if d.ignores w s task then
    .returned (d.taskFail { s with log := .ignored task :: s.log } task)
  else if task ∈ s.tasksCovered then .returned (d.taskSkip w s task)
  else if w.checkStampTask (s.scene.asked + 1) .task task then
    let s := d.taskSkip w { s with scene := { s.scene with asked := s.scene.asked + 2 } } task
    .returned { s with runqTasksrun := insert task s.runqTasksrun }
  else if d.noexec task then .returned (d.runNoexec w s task)
  else d.sendTask w s task

def executeTask (s : State α) : Flow (State α) :=
  match d.nextTask w s with
  | some task => d.startTask w s task
  | none => .onwards s

/-- The end of `execute`, when no task was started: `messages` is what there is to read. -/
def waitOrEnd (s : State α) (messages : List (Message α)) : State α :=
  if 0 < s.stats.active ∨ s.sqLive ≠ ∅ then d.readWorkers w s messages
  else
    match s.scene.sqDeferred.keys with
    | deferred :: _ =>
      -- "Runqueue deadlocked on deferred tasks"
      { s with scene := { s.scene with sqDeferred := s.scene.sqDeferred.erase deferred } }
    | [] =>
      if s.failedTids ≠ [] then { s with rqState := .failed }
      else if d.scenequeueErrors s ∨
          ∃ task ∈ d.tids, task ∉ s.runqBuildable ∨ task ∉ s.runqRunning ∨ task ∉ s.runqComplete then
        { s with rqState := .failed }
      else { s with rqState := .complete }

/-! ### Runs -/

/-- `execute`, as far as the setscene tasks go. -/
def executeScene (s : State α) (messages : List (Message α)) : Flow (State α) :=
  let s := d.readWorkers w { s with scene := { s.scene with asked := 0 } } messages
  let s :=
    if s.hashes.updatedTaskhashQueue ≠ [] ∨ s.pendingMigrations ≠ ∅ then d.processPossibleMigrations w s
    else s
  (d.executeSetscene w s).bind fun s => .onwards (d.updateHoldofftasks s)

/-- `execute`: `messages` is read at its start, and `more` when it has to wait. -/
def execute (s : State α) (messages more : List (Message α)) : State α :=
  match ((d.executeScene w s messages).bind d.declareDone).bind (d.executeTask w) with
  | .returned s => s
  | .onwards s => d.waitOrEnd w s more

inductive Event (α : Type*)
  | execute (messages more : List (Message α))
  | finish (messages : List (Message α))
  | finishNow
  /-- The pipes are read when the workers are torn down. -/
  | read (messages : List (Message α))

/-- A step of the run. `execute` is called while the state is `runQueueRunning`. -/
def step (s : State α) (e : World α × Event α) : State α :=
  match e.2 with
  | .execute messages more => if s.rqState = .running then d.execute e.1 s messages more else s
  | .finish messages => d.finish e.1 s messages
  | .finishNow => finishNow s
  | .read messages => d.readWorkers e.1 s messages

/-- The setscene tasks that are deferred at first, and the first task for each hash. -/
def defer (hashes : Hashes α) (r : Dict Str α × Dict α α) (tid : α) : Dict Str α × Dict α α :=
  match r.1.get? (d.pendingHashIndex hashes tid) with
  | none => (r.1.set (d.pendingHashIndex hashes tid) tid, r.2)
  | some first => (r.1, r.2.set tid first)

/-- The constructor, before `update_scenequeue_data`. -/
def construct (hashes : Hashes α) : State α :=
  let deferred := (d.byMulticonfig d.runqSetsceneTids.toFinset).foldl (d.defer hashes) (.empty, .empty)
  { rqState := .running
    scene :=
      { sqBuildable := d.sqdata.sqBuildable
        sqRunning := ∅
        sqDeferred := deferred.2
        sqNeededHarddeps := ∅
        sqHarddepDeferred := ∅
        scenequeueCovered := ∅
        scenequeueNotcovered := ∅
        scenequeueNotneeded := ∅
        tasksScenequeueDone := d.sqdata.tasksScenequeueDone
        holdoffNeedUpdate := true
        stamps := fun tid => d.stampfile hashes.siggen tid false
        noexec := ∅
        stamppresent := ∅
        valid := ∅
        outrightfail := ∅
        setsceneCovered := 0
        setsceneNotcovered := 0
        asked := 0
        slips := [] }
    sqLive := ∅
    sqdone := false
    generator := 0
    sqHashes := deferred.1
    hashes
    pendingMigrations := ∅
    runqBuildable := d.sqdata.runqBuildable
    runqRunning := ∅
    runqComplete := ∅
    runqTasksrun := ∅
    failedTids := []
    buildStamps := .empty
    buildable := d.sqdata.runqBuildable
    schedStamps := fun tid => d.stampfile hashes.siggen tid false
    stats := ⟨0, 0, 0, 0⟩
    holdoffTasks := ∅
    tasksCovered := ∅
    tasksNotcovered := ∅
    workers := []
    log := [] }

/-- The constructor, and what `_execute_runqueue` does before the first `execute`. -/
def start (hashes : Hashes α) : State α :=
  let s := d.construct hashes
  let s := { s with scene := d.updateScenequeueData w s.scene d.runqSetsceneTids.toFinset }
  if d.runqSetsceneTids = [] then
    let first := (d.tids.filter fun tid => d.depends tid = []).toFinset
    { s with
      runqBuildable := s.runqBuildable ∪ first
      buildable := s.buildable ∪ first
      tasksNotcovered := s.tasksNotcovered ∪ d.tids.toFinset
      sqdone := true }
  else s

/-- The state after a run. -/
def run (hashes : Hashes α) (events : List (World α × Event α)) : State α :=
  events.foldl d.step (d.start w hashes)

end RunQueueData
end BitBake
end OpenBmc
