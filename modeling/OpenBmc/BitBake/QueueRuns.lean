import OpenBmc.BitBake.QueueMoves

/-!
# What holds in every run of the run queue

The rules of `QueueBoard`, read off the states of `RunQueueExecute`. The order of the tasks needs nothing;
the rest needs that no setscene task was failed while it was live, which a migration that takes back the
verdict over its hard dependency can lead to.
-/

namespace OpenBmc
namespace BitBake
namespace RunQueueData

/-- A state of some run. -/
def Reached {α : Type*} [LinearOrder α] (d : RunQueueData α) (s : State α) : Prop :=
  ∃ w hashes events, s = d.run w hashes events

namespace Sample

/-- The setscene task `false` depends on the real task `true`, and covers it. -/
def graph : TaskGraph Bool where
  tids := [false, true]
  depends a := if a then [] else [true]
  revdeps b := if b then {false} else ∅
  runqSetsceneTids := [false]
  targetTids := {false}
  nodup := by decide
  mem_tids_of_depends := by decide
  mem_revdeps := by decide
  setscene_subset := by decide
  acyclic a h := by
    have hlt : ∀ a b : Bool, b ∈ (if a then [] else [true]) → a < b := by decide
    have hpath : ∀ b, Relation.TransGen (fun a b : Bool => b ∈ if a then [] else [true]) a b → a < b := by
      intro b hb
      induction hb with
      | single h => exact hlt _ _ h
      | tail _ h ih => exact ih.trans (hlt _ _ h)
    exact lt_irrefl a (hpath a h)

def scene : TaskGraph.SceneQueueData Bool where
  sqRevdeps := fun _ => ∅
  sqDeps := fun _ => ∅
  sqCoveredTasks := fun t => if t then ∅ else {true}
  cantskip := ∅
  unskippable := {false}
  tasksScenequeueDone := ∅
  runqBuildable := ∅
  sqBuildable := {false}

theorem skipLoop_graph : graph.skipLoop 3 graph.startSkips = some ⟨{false}, false, ∅⟩ := by
  have hstart : graph.startSkips = ⟨{false}, true, ∅⟩ := by
    unfold TaskGraph.startSkips
    congr 1
  have hround : graph.skipRound ⟨{false}, true, ∅⟩ = ⟨{false}, false, ∅⟩ := by
    rw [TaskGraph.skipRound, Finset.sort_singleton]
    rfl
  rw [hstart, TaskGraph.skipLoop, hround]
  rfl

theorem built_scene : graph.buildScenequeueData 3 = .ok scene := by
  have hcollapse : ∃ s, graph.collapse 3 = some s ∧ s.sqRevdepsSquash = (fun _ => ∅) ∧
      s.sqCollatedDeps = scene.sqCoveredTasks :=
    ⟨_, rfl, funext (by decide), funext (by decide)⟩
  obtain ⟨s, hs, hsquash, hcollated⟩ := hcollapse
  unfold TaskGraph.buildScenequeueData
  rw [hs, skipLoop_graph]
  dsimp only
  rw [hsquash, hcollated]
  rfl

def data : RunQueueData Bool where
  __ := graph
  iter := Py.sorted
  mem_iter _ _ := Py.mem_sorted
  nodup_iter := Py.nodup_sorted
  mc _ := []
  pn _ := []
  taskname t := if t then ['r'] else ['s']
  basehash _ := []
  runtaskdeps _ := []
  checksums _ := []
  sha256 data := data
  runtaskdeps_subset := by simp
  sqdata := scene
  built := ⟨3, built_scene⟩
  sqHarddepsRev _ := ∅
  stamp _ := []
  prioMap := [true, false]
  mem_prioMap := by decide
  numberTasks := 2
  numberTasks_pos := Nat.two_pos
  numberThreads _ := none
  noexec _ := false
  fakeroot _ := false
  setsceneFakeroot _ := false
  halt := false
  force := false
  skipsetscene := false
  setsceneonly := false
  dryRun := false
  setsceneEnforce := false
  setsceneIgnoreTasks := none

/-- Nothing is stamped, and every hash is valid. -/
def world : World Bool where
  getUnihashBatch _ := none
  reportUnihashEquiv _ _ := .unreachable
  checkStampTask _ _ _ := false
  validateHashes _ _ := true
  checkDependencies _ := false
  exceedsMaxPressure := false
  startFakeworker _ := true

def hashes : Hashes Bool where
  hash _ := []
  unihash t := if t then ['1'] else ['0']
  siggen := ⟨fun _ => [], .empty, 0⟩
  updatedTaskhashQueue := []

/-- The setscene task is sent, it fails, and then the real task is sent and fails. -/
def events : List (World Bool × Event Bool) :=
  [(world, .execute [] []), (world, .execute [.exitcode ⟨false, true⟩ 1] []),
    (world, .execute [.exitcode ⟨true, false⟩ 1] [])]

/-- The state after the first `n` steps. -/
def state (n : Nat) : State Bool := data.run world hashes (events.take n)

theorem reached (n : Nat) : data.Reached (state n) := ⟨world, hashes, events.take n, rfl⟩

end Sample

section Runs
variable {α : Type*} [LinearOrder α] {d : RunQueueData α} {s : State α}

theorem Reached.kept (h : d.Reached s) : ∃ phase stale, d.rules.Kept (s.board phase stale) := by
  obtain ⟨w, hashes, events, rfl⟩ := h
  exact kept_run hashes events

/-- A task is started once, after its dependencies were completed. -/
theorem reached_in_order (h : d.Reached s) :
    (s.log.filterMap Note.starts).Nodup ∧
      (∀ t, t ∈ s.runqRunning ↔ t ∈ s.log.filterMap Note.starts) ∧
      (∀ t, t ∈ s.runqComplete ↔ .complete t ∈ s.log) ∧
      ∀ n log, n :: log <:+ s.log → ∀ t ∈ n.starts, ∀ dep ∈ d.depends t, .complete dep ∈ log := by
  obtain ⟨phase, stale, hkept⟩ := h.kept
  have h := hkept.ordered
  exact ⟨h.once, h.running, h.complete, fun n log hlog t ht dep hdep =>
    h.earlier n log hlog t ht dep (List.mem_toFinset.2 hdep)⟩

theorem reached_in_order_sample : ((Sample.state 3).log.filterMap Note.starts).Nodup :=
  (reached_in_order (Sample.reached 3)).1

/-- A task that a worker failed to run stays so, and nothing that leads to it is started. -/
theorem reached_failed_stops (h : d.Reached s) (hslips : ∀ t, .live t ∉ s.scene.slips) {t : α}
    {status : Int} (hexit : .exited ⟨t, false⟩ status ∈ s.log) (hstatus : status ≠ 0) :
    t ∉ s.runqComplete ∧ ∀ u, Relation.TransGen (fun a b => b ∈ d.depends a) u t →
      u ∉ s.runqRunning ∧ .sent ⟨u, false⟩ ∉ s.log := by
  obtain ⟨phase, stale, hkept⟩ := h.kept
  have hapart := hkept.apart hslips
  refine ⟨(hapart.failed t status hexit hstatus).2.1, fun u hu => ?_⟩
  have hstopped := hapart.failed_stops hkept.ordered hexit hstatus
    (Relation.TransGen.mono (fun a b hab => List.mem_toFinset.2 hab) u t hu)
  refine ⟨hstopped, fun hsent => hstopped ((hkept.ordered.running u).2 ?_)⟩
  exact List.mem_filterMap.2 ⟨_, hsent, rfl⟩

theorem reached_failed_stops_sample :
    true ∉ (Sample.state 3).runqComplete ∧ false ∉ (Sample.state 3).runqRunning :=
  have hexit : .exited ⟨true, false⟩ 1 ∈ (Sample.state 3).log := by decide +kernel
  have h := reached_failed_stops (Sample.reached 3) (by decide +kernel) hexit (by decide)
  ⟨h.1, (h.2 false (.single (by decide))).1⟩

/-- `stats.active` counts the real tasks that the workers run, less those that were counted out though they
were never counted in, and `sq_live` holds the setscene tasks. -/
theorem reached_active (h : d.Reached s) (hslips : ∀ t, .live t ∉ s.scene.slips) :
    s.stats.active =
        (s.workers.countP fun job => !job.setscene : Int) - (s.log.countP Note.miscounted : Int) ∧
      s.stats.active + (s.sqLive.card : Int) ≤ d.numberTasks ∧
      s.workers.Nodup ∧ ∀ t, t ∈ s.sqLive ↔ ⟨t, true⟩ ∈ s.workers := by
  obtain ⟨phase, stale, hkept⟩ := h.kept
  have hcounted := hkept.counted hslips
  have hapart := hkept.apart hslips
  exact ⟨hcounted.active, hcounted.slots, hapart.nodup, hapart.live_iff⟩

theorem reached_active_sample :
    (Sample.state 2).stats.active = 1 - 0 :=
  (reached_active (Sample.reached 2) (by decide +kernel)).1

/-- The clean-up goes on while a message is read that a worker sent. -/
theorem rqState_readMessage {w : World α} {m : Message α} (hs : s.rqState = .cleanUp)
    (hm : m ≠ .workerDied) : (d.readMessage w s m).rqState = .cleanUp := by
  cases m with
  | exitcode job status =>
    show (if job ∈ s.workers then _ else s).rqState = .cleanUp
    split
    · unfold runqueueProcessWaitpid
      dsimp only
      split_ifs
      · show (if _ then RqState.cleanUp else s.rqState) = .cleanUp
        rw [hs, ite_self]
      · exact hs
      · show (if d.halt then RqState.cleanUp else s.rqState) = .cleanUp
        rw [hs, ite_self]
      · exact hs
    · exact hs
  | taskUniHashUpdate task unihash => exact hs
  | workerDied => exact absurd rfl hm

/-- `finish` ends the run only when no worker runs a task, unless a worker died or a task was counted out
that was never counted in. -/
theorem finish_waits (h : d.Reached s) (hslips : ∀ t, .live t ∉ s.scene.slips)
    (hcounted : ∀ n ∈ s.log, n.miscounted = false) (w : World α) {messages : List (Message α)}
    (hmessages : .workerDied ∉ messages) (hends : (d.finish w s messages).rqState ≠ .cleanUp) :
    s.workers = [] ∧ s.sqLive = ∅ := by
  obtain ⟨phase, stale, hkept⟩ := h.kept
  have hactive : s.stats.active = _ := (hkept.counted hslips).active
  have hread (messages : List (Message α)) (hm : .workerDied ∉ messages) {s : State α}
      (hs : s.rqState = .cleanUp) : (d.readWorkers w s messages).rqState = .cleanUp := by
    induction messages generalizing s with
    | nil => exact hs
    | cons m messages ih =>
      rw [List.mem_cons, not_or] at hm
      exact ih hm.2 (rqState_readMessage hs (Ne.symm hm.1))
  unfold finish at hends
  dsimp only at hends
  split at hends
  · exact absurd (hread messages hmessages rfl) hends
  next hidle =>
    have hnone : s.log.countP Note.miscounted = 0 := List.countP_eq_zero.2 fun n hn => by
      rw [hcounted n hn]
      exact Bool.false_ne_true
    have hactive' : s.stats.active = (s.workers.countP fun job => !job.setscene : Int) - (0 : Nat) :=
      hnone ▸ hactive
    have hreal : s.workers.countP (fun job => !job.setscene) = 0 := by omega
    have hempty : s.sqLive = ∅ := Finset.card_eq_zero.1 (by omega)
    refine ⟨List.eq_nil_iff_forall_not_mem.2 fun job hjob => ?_, hempty⟩
    obtain ⟨t, setscene⟩ := job
    cases setscene with
    | true => exact Finset.notMem_empty t (hempty ▸ ((hkept.apart hslips).live_iff t).2 hjob)
    | false => exact List.countP_eq_zero.1 hreal _ hjob rfl

theorem finish_waits_sample : (Sample.state 3).workers = [] ∧ (Sample.state 3).sqLive = ∅ :=
  have hmessages : Message.workerDied ∉ ([] : List (Message Bool)) := List.not_mem_nil
  finish_waits (Sample.reached 3) (by decide +kernel) (by decide +kernel) Sample.world hmessages
    (by decide +kernel)

/-- No setscene task has two verdicts, and one that runs has none. -/
theorem reached_verdicts (h : d.Reached s) (hslips : s.scene.slips = []) :
    Disjoint s.scene.scenequeueCovered s.scene.scenequeueNotcovered ∧
      ∀ t ∈ s.sqLive, t ∈ d.runqSetsceneTids ∧ t ∉ s.scene.scenequeueCovered ∧
        t ∉ s.scene.scenequeueNotcovered := by
  obtain ⟨phase, stale, hkept⟩ := h.kept
  have hnone : ∀ t, .live t ∉ s.scene.slips := fun t => hslips ▸ List.not_mem_nil
  refine ⟨hkept.single hslips, fun t ht => ?_⟩
  obtain ⟨hset, hverdict⟩ := Rules.mem_undecided.1 ((hkept.apart hnone).live_undecided ht)
  exact ⟨List.mem_toFinset.1 hset, hverdict⟩

theorem reached_verdicts_sample : false ∉ (Sample.state 1).scene.scenequeueCovered :=
  ((reached_verdicts (Sample.reached 1) (by decide +kernel)).2 false (by decide +kernel)).2.1

/-- While a setscene task runs, neither its real task nor any that it covers is running in a worker. -/
theorem reached_apart (h : d.Reached s) (hslips : ∀ t, .live t ∉ s.scene.slips) {t : α}
    (ht : t ∈ s.sqLive) :
    t ∉ s.runqRunning ∧ ⟨t, false⟩ ∉ s.workers ∧ ∀ u ∈ d.sqdata.sqCoveredTasks t,
      (u ∈ s.runqRunning → u ∈ s.runqComplete) ∧ ⟨u, false⟩ ∉ s.workers := by
  obtain ⟨phase, stale, hkept⟩ := h.kept
  have hapart := hkept.apart hslips
  obtain ⟨hrunning, hcovers⟩ := hapart.clear t ht
  refine ⟨hrunning, fun hjob => hrunning (hapart.real t hjob).1, fun u hu => ⟨hcovers u hu, fun hjob => ?_⟩⟩
  obtain ⟨hrun, hcomplete⟩ := hapart.real u hjob
  exact hcomplete (hcovers u hu hrun)

theorem reached_apart_sample : ⟨true, false⟩ ∉ (Sample.state 1).workers :=
  have hlive : false ∈ (Sample.state 1).sqLive := by decide +kernel
  ((reached_apart (Sample.reached 1) (by decide +kernel) hlive).2.2 true (by decide)).2

end Runs

end RunQueueData
end BitBake
end OpenBmc
