import OpenBmc.BitBake.Execute
import OpenBmc.BitBake.QueueBoard

/-!
# The run queue plays by the rules

`step_moves`: every step of `RunQueueExecute` is a series of moves. `Lead` is what holds of the parts of a
step that start no task: they can be played in every phase, and whether the board is stale or not.
-/

namespace OpenBmc
namespace BitBake

variable {α : Type*} [LinearOrder α]

/-- The board that a state shows. A board is stale from the first verdict that a migration takes back, and
so somewhat earlier than `holdoffNeedUpdate` says. -/
def State.board (phase : Phase) (stale : Bool) (s : State α) : Board α where
  phase
  covered := s.scene.scenequeueCovered
  notcovered := s.scene.scenequeueNotcovered
  sqRunning := s.scene.sqRunning
  live := s.sqLive
  deferred := s.scene.sqDeferred.keys.toFinset
  holdoff := s.holdoffTasks
  stale
  buildable := s.buildable
  running := s.runqRunning
  complete := s.runqComplete
  workers := s.workers
  active := s.stats.active
  slips := s.scene.slips
  log := s.log

def State.withScene (s : State α) (c : Scene α) : State α := { s with scene := c }

namespace RunQueueData
variable (d : RunQueueData α) (w : World α)

def rules : Rules α where
  depends t := (d.depends t).toFinset
  setscene := d.runqSetsceneTids.toFinset
  covers := d.sqdata.sqCoveredTasks
  slots := d.numberTasks

def Based (s : State α) : Prop := d.rules.Based (s.board .going true)

structure Lead (s s' : State α) : Prop where
  stale : s.scene.holdoffNeedUpdate = true → s'.scene.holdoffNeedUpdate = true
  rqState : s'.rqState = .running → s.rqState = .running
  moves : ∀ phase stale, d.rules.Moves (s.board phase stale) (s'.board phase stale)

def Leads (s s' : State α) : Prop := d.Based s → d.Lead s s'

/-- A change of the scene alone. -/
def Turns (s : State α) (c c' : Scene α) : Prop := d.Leads (s.withScene c) (s.withScene c')

variable {d w} {s s' s'' : State α} {c c' c'' : Scene α}

theorem Based.board (h : d.Based s) (phase : Phase) (stale : Bool) : d.rules.Based (s.board phase stale) :=
  { h with }

theorem Based.lead (h : d.Based s) (hs : d.Lead s s') : d.Based s' :=
  Rules.Based.moves h (hs.moves .going true)

theorem Leads.refl (s : State α) : d.Leads s s := fun _ => ⟨id, id, fun _ _ => .refl⟩

theorem Leads.trans (h : d.Leads s s') (h' : d.Leads s' s'') : d.Leads s s'' := fun hb =>
  have hs := h hb
  have hs' := h' (hb.lead hs)
  ⟨fun h => hs'.stale (hs.stale h), fun h => hs.rqState (hs'.rqState h),
    fun phase stale => (hs.moves phase stale).trans (hs'.moves phase stale)⟩

/-- What is known of the board may be used. -/
theorem Leads.of_based (h : d.Based s → d.Leads s s') : d.Leads s s' := fun hb => h hb hb

/-- A change of what the board does not show. -/
theorem Leads.unseen (hboard : ∀ phase stale, s'.board phase stale = s.board phase stale)
    (hstale : s.scene.holdoffNeedUpdate = true → s'.scene.holdoffNeedUpdate = true)
    (hstate : s'.rqState = .running → s.rqState = .running) : d.Leads s s' := fun _ =>
  ⟨hstale, hstate, fun phase stale => hboard phase stale ▸ .refl⟩

theorem Leads.move (hstale : s.scene.holdoffNeedUpdate = true → s'.scene.holdoffNeedUpdate = true)
    (hstate : s'.rqState = .running → s.rqState = .running)
    (h : ∀ phase stale, d.rules.Move (s.board phase stale) (s'.board phase stale)) : d.Leads s s' :=
  fun _ => ⟨hstale, hstate, fun phase stale => .single (h phase stale)⟩

theorem Leads.foldl {β : Type*} {f : State α → β → State α} {l : List β}
    (h : ∀ s, ∀ a ∈ l, d.Leads s (f s a)) (s : State α) : d.Leads s (l.foldl f s) := by
  induction l generalizing s with
  | nil => exact .refl s
  | cons a l ih =>
    exact (h s a List.mem_cons_self).trans (ih (fun s b hb => h s b (List.mem_cons_of_mem a hb)) (f s a))

/-! ### Verdicts -/

theorem Turns.refl : d.Turns s c c := Leads.refl _

theorem Turns.trans (h : d.Turns s c c') (h' : d.Turns s c' c'') : d.Turns s c c'' := Leads.trans h h'

theorem Turns.foldl {β : Type*} {f : Scene α → β → Scene α} {l : List β}
    (h : ∀ c, ∀ a ∈ l, d.Turns s c (f c a)) (c : Scene α) : d.Turns s c (l.foldl f c) := by
  induction l generalizing c with
  | nil => exact .refl
  | cons a l ih =>
    exact (h c a List.mem_cons_self).trans (ih (fun c b hb => h c b (List.mem_cons_of_mem a hb)) (f c a))

theorem Turns.unseen (hcovered : c'.scenequeueCovered = c.scenequeueCovered)
    (hnotcovered : c'.scenequeueNotcovered = c.scenequeueNotcovered)
    (hrunning : c'.sqRunning = c.sqRunning) (hdeferred : c'.sqDeferred = c.sqDeferred)
    (hslips : c'.slips = c.slips) (hstale : c.holdoffNeedUpdate = true → c'.holdoffNeedUpdate = true) :
    d.Turns s c c' := by
  refine Leads.unseen (fun phase stale => ?_) hstale id
  simp only [State.board, State.withScene, hcovered, hnotcovered, hrunning, hdeferred, hslips]

theorem turns_slip (x : Slip α) : d.Turns s c { c with slips := x :: c.slips } :=
  .move id id fun phase stale => .slip ((s.withScene c).board phase stale) x

theorem turns_settle (t : α) : d.Turns s c (d.settle c t) := fun _ =>
  ⟨fun _ => rfl, id, fun _ _ => .refl⟩

theorem turns_markFailed {t : α} (hlive : t ∈ s.sqLive → .live t ∈ c.slips)
    (hslip : t ∈ c.scenequeueCovered → .covered t ∈ c.slips) : d.Turns s c (markFailed c t) :=
  .move id id fun phase stale => .fail ((s.withScene c).board phase stale) t hlive hslip

theorem turns_failHarddep {live : Finset α} {fails : Scene α → α → Scene α} (hsub : s.sqLive ⊆ live)
    (hfails : ∀ c t, (t ∈ s.sqLive → .live t ∈ c.slips) →
      (t ∈ c.scenequeueCovered → .covered t ∈ c.slips) → d.Turns s c (fails c t))
    (dep : α) : d.Turns s c (d.failHarddep w live fails c dep) := by
  unfold failHarddep
  by_cases hverdict : dep ∈ c.scenequeueCovered ∨ dep ∈ c.scenequeueNotcovered
  · rw [if_pos hverdict]
    exact .refl
  by_cases hnoexec : d.noexec dep
  · rw [if_neg hverdict, if_pos hnoexec]
    exact .refl
  rw [if_neg hverdict, if_neg hnoexec]
  rw [not_or] at hverdict
  have hasked : d.Turns s c { c with asked := c.asked + 1 } := .unseen rfl rfl rfl rfl rfl id
  refine hasked.trans ?_
  show d.Turns s _ (if stamppresent w c dep = true then _ else fails (if dep ∈ live then _ else _) dep)
  split_ifs with hpresent hlive
  · exact .refl
  · refine .trans (turns_slip (.live dep)) (hfails _ dep (fun _ => ?_) fun h => absurd h hverdict.1)
    exact List.mem_cons_self
  · exact hfails _ dep (fun h => absurd (hsub h) hlive) fun h => absurd h hverdict.1

theorem turns_failoutright {live : Finset α} (hsub : s.sqLive ⊆ live) {n : Nat} {c : Scene α} {t : α}
    (hlive : t ∈ s.sqLive → .live t ∈ c.slips)
    (hslip : t ∈ c.scenequeueCovered → .covered t ∈ c.slips) :
    d.Turns s c (d.failoutright w live n c t) := by
  induction n generalizing c t with
  | zero => exact turns_markFailed hlive hslip
  | succ n ih =>
    refine (turns_markFailed hlive hslip).trans (.trans (Turns.foldl (fun c dep _ => ?_) _)
      (turns_settle t))
    exact turns_failHarddep hsub (fun c t hlive hslip => ih hlive hslip) dep

theorem turns_sqTaskFailoutright {live : Finset α} (hsub : s.sqLive ⊆ live) {t : α}
    (hlive : t ∈ s.sqLive → .live t ∈ c.slips)
    (hslip : t ∈ c.scenequeueCovered → .covered t ∈ c.slips) :
    d.Turns s c (d.sqTaskFailoutright w live c t) := turns_failoutright hsub hlive hslip

/-- The verdicts over the hard dependents of a task that failed in a worker. -/
theorem turns_updatecounters (live : Finset α) (hsub : s.sqLive ⊆ live) (fail : Bool) (t : α) :
    d.Turns s c (d.scenequeueUpdatecounters w live fail c t) := by
  unfold scenequeueUpdatecounters
  split
  · refine (Turns.foldl (fun c dep _ => ?_) _).trans (turns_settle t)
    exact turns_failHarddep hsub (fun c t hlive hslip => turns_sqTaskFailoutright hsub hlive hslip) dep
  · exact turns_settle t

theorem turns_sqTaskSkip {t : α} (hlive : t ∉ s.sqLive)
    (hslip : t ∈ c.scenequeueNotcovered → .notcovered t ∈ c.slips) :
    d.Turns s c (d.sqTaskSkip w c t) := by
  have hcover : d.Turns s c { c with
      sqRunning := insert t c.sqRunning, sqBuildable := insert t c.sqBuildable
      scenequeueCovered := insert t c.scenequeueCovered } :=
    .move id id fun phase stale => .cover ((s.withScene c).board phase stale) t hlive hslip
  exact hcover.trans (turns_settle t)

theorem turns_skipPresent {t : α} (hlive : t ∉ s.sqLive) : d.Turns s c (d.skipPresent w c t) := by
  unfold skipPresent
  split
  · exact (turns_slip (.notcovered t)).trans (turns_sqTaskSkip hlive fun _ => List.mem_cons_self)
  · exact turns_sqTaskSkip hlive fun h => absurd h ‹_›

theorem turns_checkTid {r : Scene α × Finset α} {t : α} (hlive : t ∉ s.sqLive) :
    d.Turns s r.1 (d.checkTid w r t).1 := by
  have hstart : d.Turns s r.1 { r.1 with
      stamppresent := r.1.stamppresent.erase t
      valid := r.1.valid.erase t
      outrightfail := r.1.outrightfail.erase t } := .unseen rfl rfl rfl rfl rfl id
  refine hstart.trans ?_
  unfold checkTid
  dsimp only
  split_ifs
  · refine .trans ?_ (turns_skipPresent hlive)
    exact .unseen rfl rfl rfl rfl rfl id
  · refine .trans ?_ (turns_skipPresent hlive)
    exact .unseen rfl rfl rfl rfl rfl id
  · exact .unseen rfl rfl rfl rfl rfl id

theorem turns_updateScenequeueData {tids : Finset α} (hlive : ∀ t ∈ tids, t ∉ s.sqLive) :
    d.Turns s c (d.updateScenequeueData w c tids) := by
  have hloop (l : List α) (hl : ∀ t ∈ l, t ∉ s.sqLive) (r : Scene α × Finset α) :
      d.Turns s r.1 (l.foldl (d.checkTid w) r).1 := by
    induction l generalizing r with
    | nil => exact .refl
    | cons t l ih =>
      exact (turns_checkTid (hl t List.mem_cons_self)).trans
        (ih (fun u hu => hl u (List.mem_cons_of_mem t hu)) _)
  refine (hloop _ (fun t ht => hlive t ((Py.mem_sorted ..).1 ht)) (c, ∅)).trans ?_
  exact .unseen rfl rfl rfl rfl rfl id

/-- The deferred tasks become others, of which none is live. -/
theorem turns_defer {deferred : Dict α α} (h : ∀ t ∈ deferred, t ∉ s.sqLive) :
    d.Turns s c { c with sqDeferred := deferred } :=
  .move id id fun phase stale => .defer ((s.withScene c).board phase stale) deferred.keys.toFinset
    fun t ht => h t (List.mem_toFinset.1 ht)

theorem Based.not_mem_sqLive (hb : d.Based s) {t : α} (ht : t ∈ s.scene.sqDeferred) : t ∉ s.sqLive :=
  fun hlive => hb.deferred t hlive (List.mem_toFinset.2 ht)

theorem mem_deferredTids {t u : α} : t ∈ deferredTids c u ↔ c.sqDeferred.get? t = some u := by
  rw [deferredTids, List.mem_insertionSort, List.mem_filter, decide_eq_true_eq]
  exact and_iff_right_of_imp Dict.mem_of_get?

omit [LinearOrder α] in
/-- A loop that defers no more than the task it looks at. -/
theorem mem_of_mem_foldl [BEq α] [LawfulBEq α] {f : Dict α α → α → Dict α α}
    (hf : ∀ deferred v, ∀ u ∈ f deferred v, u = v ∨ u ∈ deferred) {l : List α} {deferred : Dict α α}
    {u : α} (h : u ∈ l.foldl f deferred) : u ∈ l ∨ u ∈ deferred := by
  induction l generalizing deferred with
  | nil => exact .inr h
  | cons v l ih =>
    rcases ih h with h | h
    · exact .inl (List.mem_cons_of_mem v h)
    · rcases hf deferred v u h with rfl | h
      · exact .inl List.mem_cons_self
      · exact .inr h

theorem turns_undefer (t : α) : d.Turns s c (d.undefer w c t) := by
  refine Leads.of_based fun hb => ?_
  have hwaits {u : α} (hu : u ∈ deferredTids c t) : u ∉ s.sqLive :=
    Based.not_mem_sqLive hb (Dict.mem_of_get? (mem_deferredTids.1 hu))
  unfold undefer
  cases hfound : deferredTids c t with
  | nil => exact .refl (s.withScene c)
  | cons found rest =>
    have herase : d.Turns s c { c with sqDeferred := c.sqDeferred.erase found } :=
      turns_defer fun u hu => Based.not_mem_sqLive hb (Dict.mem_erase.1 hu).2
    have hupdate (c : Scene α) : d.Turns s c (d.updateScenequeueData w c {found}) :=
      turns_updateScenequeueData fun u hu =>
        Finset.mem_singleton.1 hu ▸ hwaits (hfound ▸ List.mem_cons_self)
    refine herase.trans ((hupdate _).trans (Leads.of_based fun hb' => turns_defer fun u hu => ?_))
    rcases mem_of_mem_foldl (fun deferred v u => Dict.mem_set.1) hu with hu | hu
    · exact hwaits (hfound ▸ List.mem_cons_of_mem found hu)
    · exact Based.not_mem_sqLive hb' hu

/-! ### The real tasks -/

theorem leads_scene (h : d.Turns s s.scene c) : d.Leads s (s.withScene c) := h

theorem leads_enable (ts : Finset α) (h : ∀ t ∈ ts, ∀ dep ∈ d.depends t, dep ∈ s.runqComplete) :
    d.Leads s { s with runqBuildable := s.runqBuildable ∪ ts, buildable := s.buildable ∪ ts } :=
  .move id id fun phase stale => .enable (s.board phase stale) ts fun t ht dep hdep =>
    h t ht dep (List.mem_toFinset.1 hdep)

/-- `task_completeoutright`, once the task is in `runq_complete`. -/
theorem leads_completeoutright (t : α) :
    d.Leads { s with runqComplete := insert t s.runqComplete, log := .complete t :: s.log }
      (d.taskCompleteoutright w s t) := by
  refine (leads_enable (d.freed
    { s with runqComplete := insert t s.runqComplete, log := .complete t :: s.log } t) ?_).trans ?_
  · exact fun u hu => (Finset.mem_filter.1 hu).2.2.2
  · exact leads_scene (turns_undefer t)

theorem leads_waitpid {job : Job α} {status : Int} (hjob : job ∈ s.workers) :
    d.Leads s (d.runqueueProcessWaitpid w
      { s with workers := s.workers.erase job, log := .exited job status :: s.log } job.task status) := by
  unfold runqueueProcessWaitpid
  by_cases hlive : job.task ∈ s.sqLive
  · have hverdict : d.Leads s { s with
        scene := { s.scene with
          scenequeueCovered := if status = 0 then insert job.task s.scene.scenequeueCovered
            else s.scene.scenequeueCovered
          scenequeueNotcovered := if status = 0 then s.scene.scenequeueNotcovered
            else insert job.task s.scene.scenequeueNotcovered }
        sqLive := s.sqLive.erase job.task
        workers := s.workers.erase job
        log := .exited job status :: s.log } :=
      .move id id fun phase stale => .verdict (s.board phase stale) job status hjob hlive
    refine hverdict.trans ?_
    simp only [hlive, if_true]
    by_cases hstatus : status = 0
    · simp only [hstatus, ne_eq, not_true_eq_false, if_true, if_false]
      refine (leads_scene (turns_settle job.task)).trans ?_
      exact .unseen (fun _ _ => rfl) id id
    · simp only [hstatus, ne_eq, not_false_eq_true, if_true, if_false]
      refine (leads_scene (turns_updatecounters (w := w) s.sqLive (Finset.erase_subset job.task _) true
        job.task)).trans ?_
      exact .unseen (fun _ _ => rfl) id fun h =>
        (ite_eq_iff.1 h).elim (fun h => RqState.noConfusion h.2) And.right
  · simp only [hlive, if_false]
    by_cases hstatus : status = 0
    · simp only [hstatus, ne_eq, not_true_eq_false, if_false]
      have hcomplete : d.Leads s { s with
          runqComplete := insert job.task s.runqComplete
          stats := s.stats.taskCompleted
          workers := s.workers.erase job
          log := .complete job.task :: .exited job 0 :: s.log } :=
        .move id id fun phase stale => .complete (s.board phase stale) job hjob hlive
      refine hcomplete.trans (.trans (leads_completeoutright (w := w) job.task (s := { s with
          stats := s.stats.taskCompleted
          workers := s.workers.erase job
          log := .exited job 0 :: s.log })) ?_)
      exact .unseen (fun _ _ => rfl) id id
    · simp only [hstatus, ne_eq, not_false_eq_true, if_true]
      have hfailed : d.Leads s { s with
          stats := s.stats.taskFailed
          workers := s.workers.erase job
          log := .exited job status :: s.log } :=
        .move id id fun phase stale => .failed (s.board phase stale) job status hjob hlive hstatus
      refine hfailed.trans (.unseen (fun _ _ => rfl) id fun h => ?_)
      exact (ite_eq_iff.1 h).elim (fun h => RqState.noConfusion h.2) And.right

omit [LinearOrder α] in
theorem finishNow_rqState : (finishNow s).rqState ≠ .running := by
  unfold finishNow
  split <;> exact RqState.noConfusion

theorem leads_finishNow : d.Leads s (finishNow s) :=
  .unseen (fun _ _ => rfl) id fun h => absurd h finishNow_rqState

theorem leads_readMessage (m : Message α) : d.Leads s (d.readMessage w s m) := by
  cases m with
  | exitcode job status =>
    show d.Leads s (if job ∈ s.workers then _ else s)
    split
    · exact leads_waitpid ‹_›
    · exact .refl s
  | taskUniHashUpdate task unihash => exact .unseen (fun _ _ => rfl) id id
  | workerDied => exact leads_finishNow

theorem leads_readWorkers (messages : List (Message α)) : d.Leads s (d.readWorkers w s messages) :=
  .foldl (fun _ m _ => leads_readMessage m) s

/-! ### Migrations -/

/-- A migration takes verdicts back while the board is stale, or because the build halts. -/
theorem migrate_moves {phase : Phase} {stale : Bool} (h : stale = true ∨ phase = .halting)
    (tids updateTasks : List α) (s : State α) :
    d.rules.Moves (s.board phase stale) ((d.migrate tids s updateTasks).1.board phase stale) := by
  induction tids generalizing s updateTasks with
  | nil => exact .refl
  | cons tid tids ih =>
    unfold migrate
    dsimp only
    split_ifs with hrunning hunfinished hhalt
    · exact ih updateTasks { s with pendingMigrations := s.pendingMigrations.erase tid }
    · exact ih updateTasks s
    · exact .refl
    · rw [not_or] at hrunning
      refine Relation.ReflTransGen.head ?_ (ih (updateTasks ++ [tid]) _)
      refine .reopen (s.board phase stale) tid h hrunning.1 hrunning.2 fun u hu hrun => ?_
      by_contra hcomplete
      exact hunfinished ⟨u, hu, Finset.mem_sdiff.2 ⟨hrun, hcomplete⟩⟩

/-- What a migration that is not halted leaves. -/
structure Migrated (s s' : State α) (updateTasks updateTasks' : List α) : Prop where
  appended : updateTasks <+: updateTasks'
  live : ∀ t ∈ updateTasks', t ∈ updateTasks ∨ t ∉ s'.sqLive
  sqLive : s'.sqLive = s.sqLive
  rqState : s'.rqState = s.rqState
  stale : s'.scene.holdoffNeedUpdate = s.scene.holdoffNeedUpdate

theorem migrate_migrated {tids updateTasks updateTasks' : List α} (s : State α)
    (h : (d.migrate tids s updateTasks).2 = some updateTasks') :
    Migrated s (d.migrate tids s updateTasks).1 updateTasks updateTasks' := by
  induction tids generalizing s updateTasks with
  | nil =>
    obtain rfl := Option.some.inj h
    exact ⟨List.prefix_rfl, fun t ht => .inl ht, rfl, rfl, rfl⟩
  | cons tid tids ih =>
    unfold migrate at h ⊢
    dsimp only at h ⊢
    split_ifs at h ⊢ with hrunning hunfinished hhalt
    · exact { ih _ h with }
    · exact ih _ h
    · have hm := ih _ h
      rw [not_or] at hrunning
      refine { hm with
        appended := (List.prefix_append _ _).trans hm.appended
        live := fun t ht => ?_ }
      rcases hm.live t ht with ht | ht
      · rcases List.mem_append.1 ht with ht | ht
        · exact .inl ht
        · obtain rfl := List.mem_singleton.1 ht
          rw [hm.sqLive]
          exact .inr hrunning.2
      · exact .inr ht

/-- Nothing migrated. -/
theorem migrate_board {tids updateTasks : List α} (s : State α)
    (h : (d.migrate tids s updateTasks).2 = some updateTasks) (phase : Phase) (stale : Bool) :
    (d.migrate tids s updateTasks).1.board phase stale = s.board phase stale := by
  induction tids generalizing s with
  | nil => rfl
  | cons tid tids ih =>
    unfold migrate at h ⊢
    dsimp only at h ⊢
    split_ifs at h ⊢ with hrunning hunfinished hhalt
    · exact ih _ h
    · exact ih _ h
    · exact absurd (migrate_migrated _ h).appended.length_le (by simp)

theorem migrate_halted {tids updateTasks : List α} (s : State α)
    (h : (d.migrate tids s updateTasks).2 = none) :
    (d.migrate tids s updateTasks).1.rqState = .cleanUp ∧
      (d.migrate tids s updateTasks).1.scene.holdoffNeedUpdate = s.scene.holdoffNeedUpdate := by
  induction tids generalizing s updateTasks with
  | nil => cases h
  | cons tid tids ih =>
    unfold migrate at h ⊢
    dsimp only at h ⊢
    split_ifs at h ⊢ with hrunning hunfinished hhalt
    · exact ih _ h
    · exact ih _ h
    · exact ⟨rfl, rfl⟩
    · exact ih _ h

theorem mem_byMulticonfig {tids : Finset α} {t : α} (h : t ∈ d.byMulticonfig tids) : t ∈ tids := by
  obtain ⟨mc, -, h⟩ := List.mem_flatMap.1 h
  exact (Finset.mem_filter.1 (Py.mem_sorted.1 h)).1

theorem turns_failUnavailable {live : Finset α} (hsub : s.sqLive ⊆ live) {t : α} (hlive : t ∉ s.sqLive) :
    d.Turns s c (d.failUnavailable w live c t) := by
  unfold failUnavailable
  split
  · exact (turns_slip (.covered t)).trans
      (turns_sqTaskFailoutright hsub (fun h => absurd h hlive) fun _ => List.mem_cons_self)
  · exact turns_sqTaskFailoutright hsub (fun h => absurd h hlive) fun h => absurd h ‹_›

theorem turns_redefer {updateTasks : List α} (hlive : ∀ t ∈ updateTasks, t ∉ s.sqLive) (r : State α) :
    d.Turns s c { c with
      sqDeferred := (d.byMulticonfig updateTasks.toFinset).foldl (d.redefer r) c.sqDeferred } := by
  refine Leads.of_based fun hb => turns_defer fun u hu => ?_
  have hadds (deferred : Dict α α) (v u : α) (hu : u ∈ d.redefer r deferred v) :
      u = v ∨ u ∈ deferred := by
    unfold redefer at hu
    split at hu
    · split at hu
      · exact Dict.mem_set.1 hu
      · exact .inr hu
    · exact .inr hu
  rcases mem_of_mem_foldl hadds hu with hu | hu
  · exact hlive u (List.mem_toFinset.1 (mem_byMulticonfig hu))
  · exact Based.not_mem_sqLive hb hu

theorem leads_updateMigrated (updateTasks : List α) (hlive : ∀ t ∈ updateTasks, t ∉ s.sqLive) :
    d.Leads s (d.updateMigrated w s updateTasks) := by
  have hrebuild : d.Turns s s.scene (updateTasks.foldl d.rebuildable s.scene) :=
    Turns.foldl (f := d.rebuildable) (fun c t _ => .unseen rfl rfl rfl rfl rfl id) s.scene
  refine (leads_scene hrebuild).trans ?_
  unfold updateMigrated
  generalize updateTasks.foldl d.rebuildable s.scene = c
  dsimp only
  split_ifs
  · exact .refl _
  · have hupdate (c : Scene α) : d.Turns s c (d.updateScenequeueData w c updateTasks.toFinset) :=
      turns_updateScenequeueData fun t ht => hlive t (List.mem_toFinset.1 ht)
    have hfails (c : Scene α) (p : α → Bool) :
        d.Turns s c ((updateTasks.filter p).foldl (d.failUnavailable w s.sqLive) c) :=
      Turns.foldl (fun c t ht => turns_failUnavailable subset_rfl (hlive t (List.mem_filter.1 ht).1)) c
    have hscene := (turns_redefer (c := c) hlive (s.withScene c)).trans
      ((hupdate _).trans (hfails _ (d.harddepfail c)))
    exact Leads.trans hscene (.unseen (fun _ _ => rfl) id id)

/-! ### Boards that show a state -/

/-- A board shows a state, and the phase is right while the run goes on. -/
structure Shows (b : Board α) (s : State α) : Prop where
  eq : b = s.board b.phase b.stale
  going : s.rqState = .running → b.phase = .going
  stale : b.stale = true → s.scene.holdoffNeedUpdate = true

/-- The state is shown by a board in a phase with `P` that was reached from `b₀`. -/
def Shown (d : RunQueueData α) (b₀ : Board α) (P : Phase → Prop) (s : State α) : Prop :=
  ∃ b, d.rules.Moves b₀ b ∧ Shows b s ∧ P b.phase

variable {b₀ : Board α} {P : Phase → Prop}

theorem Shown.based (h₀ : d.rules.Based b₀) (h : d.Shown b₀ P s) : d.Based s := by
  obtain ⟨b, hmoves, hb, -⟩ := h
  have := h₀.moves hmoves
  rw [hb.eq] at this
  exact { this with }

theorem Shown.mono {Q : Phase → Prop} (h : d.Shown b₀ P s) (hPQ : ∀ phase, P phase → Q phase) :
    d.Shown b₀ Q s := by
  obtain ⟨b, hmoves, hb, hP⟩ := h
  exact ⟨b, hmoves, hb, hPQ _ hP⟩

/-- A part of a step that can be played in every phase. -/
theorem Shown.leads (h₀ : d.rules.Based b₀) (h : d.Shown b₀ P s) (hs : d.Leads s s') :
    d.Shown b₀ P s' := by
  have hlead := hs (h.based h₀)
  obtain ⟨b, hmoves, hb, hP⟩ := h
  refine ⟨s'.board b.phase b.stale, hmoves.trans ?_, ⟨rfl, fun h => hb.going (hlead.rqState h),
    fun h => hlead.stale (hb.stale h)⟩, hP⟩
  have := hlead.moves b.phase b.stale
  rwa [← hb.eq] at this

theorem shown_processMigrations (h₀ : d.rules.Based b₀) (h : d.Shown b₀ (· ≠ .halted) s)
    (changed : Finset α) : d.Shown b₀ (· ≠ .halted) (d.processMigrations w s changed) := by
  have hpending : d.Leads s
      { s with pendingMigrations := s.pendingMigrations ∪ changed.filter (· ∈ d.runqSetsceneTids) } :=
    .unseen (fun _ _ => rfl) id id
  replace h := h.leads h₀ hpending
  unfold processMigrations
  generalize { s with pendingMigrations := s.pendingMigrations ∪ changed.filter (· ∈ d.runqSetsceneTids) }
    = s at h ⊢
  dsimp only
  cases hmigrate : (d.migrate (d.iter s.pendingMigrations) s []).2 with
  | none =>
    dsimp only
    obtain ⟨hstate, hstale⟩ := migrate_halted s hmigrate
    obtain ⟨b, hmoves, hb, hphase⟩ := h
    have hhalt : d.rules.Moves b (s.board .halting b.stale) := by
      rw [hb.eq]
      cases hgoing : b.phase with
      | going => exact .single (.halt (s.board .going b.stale) rfl)
      | halting => exact .refl
      | halted => exact absurd hgoing hphase
    exact ⟨_, hmoves.trans (hhalt.trans (migrate_moves (.inr rfl) _ _ s)),
      ⟨rfl, fun h => RqState.noConfusion (hstate.symm.trans h), fun h => hstale.trans (hb.stale h)⟩,
      Phase.noConfusion⟩
  | some updateTasks =>
    dsimp only
    have hm := migrate_migrated s hmigrate
    have hupdate := leads_updateMigrated (d := d) (w := w) updateTasks fun t ht =>
      (hm.live t ht).resolve_left List.not_mem_nil
    split_ifs with hnone
    · -- nothing migrated
      obtain ⟨-, rfl⟩ := hnone
      refine Shown.leads h₀ ?_ hupdate
      obtain ⟨b, hmoves, hb, hphase⟩ := h
      refine ⟨b, hmoves, ⟨?_, fun h => hb.going (hm.rqState ▸ h), fun h => hm.stale ▸ hb.stale h⟩, hphase⟩
      rw [migrate_board s hmigrate]
      exact hb.eq
    · have hbased := h.based h₀
      obtain ⟨b, hmoves, hb, hphase⟩ := h
      have hraise : d.rules.Moves b (s.board b.phase true) := by
        rw [hb.eq]
        exact .single (.raise (s.board b.phase b.stale))
      have hmigrated : d.rules.Moves (s.board b.phase true)
          ((d.migrate (d.iter s.pendingMigrations) s []).1.board b.phase true) :=
        migrate_moves (.inl rfl) _ _ s
      have hlead := hupdate {
        Rules.Based.moves (hbased.board b.phase true) hmigrated with }
      exact ⟨_, hmoves.trans (hraise.trans (hmigrated.trans (hlead.moves b.phase true))),
        ⟨rfl, fun h => hb.going (hm.rqState ▸ hlead.rqState h), fun _ => rfl⟩, hphase⟩

theorem shown_processPossibleMigrations (h₀ : d.rules.Based b₀) (h : d.Shown b₀ (· ≠ .halted) s) :
    d.Shown b₀ (· ≠ .halted) (d.processPossibleMigrations w s) := by
  unfold processPossibleMigrations
  split
  · exact h
  · refine shown_processMigrations h₀ (h.leads h₀ ?_) _
    exact .unseen (fun _ _ => rfl) id id

/-! ### The setscene tasks -/

section Fresh
variable {t : α}

/-- A setscene task that was neither decided on nor started. -/
theorem Based.fresh (hb : d.Based s) (ht : t ∉ s.scene.sqRunning) :
    t ∉ s.sqLive ∧ t ∉ s.scene.scenequeueCovered ∧ t ∉ s.scene.scenequeueNotcovered :=
  ⟨fun h => ht (hb.live h), fun h => ht (hb.covered h), fun h => ht (hb.notcovered h)⟩

theorem turns_erase : d.Turns s c { c with sqDeferred := c.sqDeferred.erase t } :=
  Leads.of_based fun hb => turns_defer fun _ hu => Based.not_mem_sqLive hb (Dict.mem_erase.1 hu).2

theorem leads_fail_fresh (ht : t ∉ s.scene.sqRunning) :
    d.Leads s (s.withScene (d.sqTaskFailoutright w s.sqLive s.scene t)) :=
  Leads.of_based fun hb =>
    have hfresh := Based.fresh hb ht
    leads_scene (turns_sqTaskFailoutright subset_rfl (fun h => absurd h hfresh.1)
      fun h => absurd h hfresh.2.1)

theorem leads_skip_fresh (ht : t ∉ s.scene.sqRunning) :
    d.Leads s (s.withScene (d.sqTaskSkip w s.scene t)) :=
  Leads.of_based fun hb =>
    have hfresh := Based.fresh hb ht
    leads_scene (turns_sqTaskSkip hfresh.1 fun h => absurd h hfresh.2.2)

end Fresh

/-- What the loop over the setscene tasks leaves, and what it may pick. -/
structure Picked (d : RunQueueData α) (s s' : State α) (pick : Pick α) : Prop where
  leads : d.Leads s s'
  stats : s'.stats = s.stats
  sqLive : s'.sqLive = s.sqLive
  task : ∀ t, pick = .task t →
    t ∈ d.runqSetsceneTids ∧ t ∉ s'.scene.sqRunning ∧ t ∉ s'.scene.sqDeferred

theorem Picked.trans {pick : Pick α} (h : Picked d s' s'' pick) (hs : d.Leads s s')
    (hstats : s'.stats = s.stats) (hlive : s'.sqLive = s.sqLive) : Picked d s s'' pick :=
  ⟨hs.trans h.leads, h.stats.trans hstats, h.sqLive.trans hlive, h.task⟩

theorem pickSetscene_picked (n : Nat) (s : State α) :
    Picked d s (d.pickSetscene w n s).1 (d.pickSetscene w n s).2 := by
  induction n generalizing s with
  | zero => exact ⟨.refl s, rfl, rfl, by simp [pickSetscene]⟩
  | succ n ih =>
    unfold pickSetscene
    split
    · exact ⟨.refl s, rfl, rfl, by simp⟩
    next nexttask htask =>
    have hmem : nexttask ∈ d.runqSetsceneTids := List.mem_of_getElem? htask
    have hnext : d.Leads s { s with generator := s.generator + 1 } := .unseen (fun _ _ => rfl) id id
    refine Picked.trans ?_ hnext rfl rfl
    generalize { s with generator := s.generator + 1 } = s
    dsimp only
    have htaken : d.Turns s s.scene { s.scene with
        sqDeferred := s.scene.sqDeferred.erase nexttask, asked := s.scene.asked + 1 } :=
      .trans (turns_erase (t := nexttask)) (.unseen rfl rfl rfl rfl rfl id)
    have henable : d.Leads s { s with scene := d.enableHarddeps s.scene nexttask } :=
      .unseen (fun _ _ => rfl) id id
    split_ifs with heligible hunneeded hharddeps hfail hneeded
    · have herase : d.Turns s (d.sqTaskSkip w s.scene nexttask) (d.skipUnneeded w s.scene nexttask) :=
        .trans (turns_erase (t := nexttask)) (.unseen rfl rfl rfl rfl rfl id)
      exact ⟨(leads_skip_fresh heligible.2.1).trans herase, rfl, rfl, by simp⟩
    · exact ⟨(leads_scene htaken).trans (leads_fail_fresh heligible.2.1), rfl, rfl, by simp⟩
    · refine ⟨leads_scene htaken, rfl, rfl, fun t ht => ?_⟩
      obtain rfl := Pick.task.inj ht
      exact ⟨hmem, heligible.2.1, fun h => (Dict.mem_erase.1 h).1 rfl⟩
    · exact (ih _).trans henable rfl rfl
    · exact ⟨henable, rfl, rfl, by simp⟩
    · exact ih s

/-- A task is started. -/
theorem Shown.spend (h : d.Shown b₀ (· ≠ .halted) s)
    (hmove : ∀ phase stale, phase ≠ .halted → (stale = true → s.scene.holdoffNeedUpdate = true) →
      d.rules.Move (s.board phase stale) (s'.board phase.spend stale))
    (hstate : s'.rqState = .running → s.rqState = .running)
    (hstale : s.scene.holdoffNeedUpdate = true → s'.scene.holdoffNeedUpdate = true) :
    d.Shown b₀ (fun _ => True) s' := by
  obtain ⟨b, hmoves, hb, hphase⟩ := h
  refine ⟨s'.board b.phase.spend b.stale, hmoves.tail ?_, ⟨rfl, fun h => ?_, fun h => hstale (hb.stale h)⟩,
    trivial⟩
  · have := hmove b.phase b.stale hphase hb.stale
    rwa [← hb.eq] at this
  · show b.phase.spend = .going
    rw [hb.going (hstate h)]
    rfl

/-- After a part of `execute`: a task may be started still, if there is room. -/
def Goes (d : RunQueueData α) (b₀ : Board α) : Flow (State α) → Prop
  | .returned s => d.Shown b₀ (fun _ => True) s
  | .onwards s => d.Shown b₀ (fun phase => phase ≠ .halted ∨ d.canStartTask s = false) s

/-- A task was sent to a worker: the step goes on when there is no room for another. -/
theorem goes_sent (h : d.Shown b₀ (fun _ => True) s) :
    Goes d b₀ (if d.canStartTask s then .returned s else .onwards s) := by
  split
  · exact h
  next hroom =>
    exact Shown.mono (Q := fun phase => phase ≠ .halted ∨ d.canStartTask s = false) h
      fun _ _ => .inr (eq_false_of_ne_true hroom)

theorem goes_sendSetscene {t : α} (h₀ : d.rules.Based b₀) (h : d.Shown b₀ (· ≠ .halted) s)
    (ht : t ∈ d.runqSetsceneTids) (hrunning : t ∉ s.scene.sqRunning) (hdeferred : t ∉ s.scene.sqDeferred)
    (hslots : d.canStartTask s = true) : Goes d b₀ (d.sendSetscene w s t) := by
  unfold sendSetscene
  split
  · refine (h.leads h₀ ?_).mono fun _ _ => trivial
    exact .unseen (fun _ _ => rfl) id RqState.noConfusion
  · refine goes_sent (h.spend (fun phase stale hphase _ => ?_) id id)
    refine .setscene (s.board phase stale) t (List.mem_toFinset.2 ht) hrunning (fun hmem => ?_) ?_ hphase
    · exact hdeferred (List.mem_toFinset.1 hmem)
    · exact of_decide_eq_true hslots

theorem goes_startSetscene {t : α} (h₀ : d.rules.Based b₀) (h : d.Shown b₀ (· ≠ .halted) s)
    (ht : t ∈ d.runqSetsceneTids) (hrunning : t ∉ s.scene.sqRunning) (hdeferred : t ∉ s.scene.sqDeferred)
    (hslots : d.canStartTask s = true) : Goes d b₀ (d.startSetscene w s t) := by
  have hasked : d.Leads s { s with scene := { s.scene with asked := s.scene.asked + 1 } } :=
    .unseen (fun _ _ => rfl) id id
  have h' := h.leads h₀ hasked
  have hfail := leads_fail_fresh (d := d) (w := w) (t := t)
    (s := { s with scene := { s.scene with asked := s.scene.asked + 1 } }) hrunning
  have hskip := leads_skip_fresh (d := d) (w := w) (t := t)
    (s := { s with scene := { s.scene with asked := s.scene.asked + 1 } }) hrunning
  have hends {c : Scene α} (hc : d.Leads { s with scene := { s.scene with asked := s.scene.asked + 1 } }
      (s.withScene c)) : d.Shown b₀ (fun _ => True) (s.withScene c) :=
    (h'.leads h₀ hc).mono fun _ _ => trivial
  unfold startSetscene
  split_ifs
  · exact hends hfail
  · exact hends hskip
  · exact hends hfail
  · exact goes_sendSetscene h₀ h' ht hrunning hdeferred hslots

theorem goes_executeSetscene (h₀ : d.rules.Based b₀) (h : d.Shown b₀ (· ≠ .halted) s) :
    Goes d b₀ (d.executeSetscene w s) := by
  have honwards {s : State α} (h : d.Shown b₀ (· ≠ .halted) s) : Goes d b₀ (.onwards s) :=
    Shown.mono h fun _ => Or.inl
  unfold executeSetscene
  split_ifs with hstart
  · have hpicked := pickSetscene_picked (d := d) (w := w) d.runqSetsceneTids.length s
    have h' := h.leads h₀ hpicked.leads
    dsimp only
    split
    · exact Shown.mono h' fun _ _ => trivial
    · exact honwards h'
    next task htask =>
      obtain ⟨ht, hrunning, hdeferred⟩ := hpicked.task task htask
      refine goes_startSetscene h₀ h' ht hrunning hdeferred ?_
      rw [canStartTask, hpicked.stats, hpicked.sqLive]
      exact hstart.2
  · exact honwards h

theorem shown_updateHoldofftasks (h₀ : d.rules.Based b₀) (h : d.Shown b₀ P s) :
    d.Shown b₀ P (d.updateHoldofftasks s) ∧ (d.updateHoldofftasks s).scene.holdoffNeedUpdate = false := by
  unfold updateHoldofftasks
  split
  · refine ⟨?_, rfl⟩
    have hheld : d.Shown b₀ P { s with
        holdoffTasks := d.undecided s.scene ∪
          (d.undecided s.scene).biUnion fun tid => d.sqdata.sqCoveredTasks tid \ s.runqComplete
        scene := { s.scene with holdoffNeedUpdate := false } } := by
      obtain ⟨b, hmoves, hb, hP⟩ := h
      refine ⟨State.board b.phase false _, hmoves.tail ?_, ⟨rfl, hb.going, Bool.noConfusion⟩, hP⟩
      rw [hb.eq]
      exact .hold (s.board b.phase b.stale)
    refine hheld.leads h₀ ((leads_enable ((d.notcovered s.scene ∪ d.covered s.scene).filter
      fun tid => ∀ dep ∈ d.depends tid, dep ∈ s.runqComplete) ?_).trans ?_)
    · exact fun t ht => (Finset.mem_filter.1 ht).2
    · exact .unseen (fun _ _ => rfl) id id
  · exact ⟨h, eq_false_of_ne_true ‹_›⟩

/-! ### The real tasks -/

/-- The scheduler may choose the task, and there is room for it. -/
structure Startable (d : RunQueueData α) (s : State α) (t : α) : Prop where
  buildable : t ∈ s.buildable
  running : t ∉ s.runqRunning
  holdoff : t ∉ s.holdoffTasks
  stale : s.scene.holdoffNeedUpdate = false
  slots : d.canStartTask s = true

theorem startable_of_nextTask {t : α} (h : d.nextTask w s = some t)
    (hstale : s.scene.holdoffNeedUpdate = false) : Startable d s t := by
  unfold nextTask at h
  split at h
  next hstart =>
    unfold nextBuildableTask at h
    split at h
    · cases h
    · have hfound := List.find?_some h
      have hmem : t ∈ candidates s := (of_decide_eq_true hfound).1
      simp only [candidates, Finset.mem_inter, Finset.mem_sdiff] at hmem
      exact ⟨hmem.1.1.1, hmem.1.1.2, hmem.1.2, hstale, hstart.2⟩
  · cases h

/-- A real task is started. -/
theorem Shown.start {t : α} (h : d.Shown b₀ (· ≠ .halted) s) (ht : Startable d s t) (how : Start)
    (hboard : ∀ phase stale, s'.board phase stale = { s.board phase stale with
      running := insert t s.runqRunning
      complete := if how = .sent then s.runqComplete else insert t s.runqComplete
      workers := if how = .sent then ⟨t, false⟩ :: s.workers else s.workers
      active := if how = .sent then s.stats.active + 1 else s.stats.active
      log := how.notes t ++ s.log })
    (hstate : s'.rqState = .running → s.rqState = .running)
    (hstale : s.scene.holdoffNeedUpdate = true → s'.scene.holdoffNeedUpdate = true) :
    d.Shown b₀ (fun _ => True) s' := by
  refine h.spend (fun phase stale hphase hst => ?_) hstate hstale
  rw [hboard]
  refine .start (s.board phase stale) t how ht.buildable ht.running ht.holdoff ?_
    (of_decide_eq_true ht.slots) hphase
  exact eq_false_of_ne_true fun h => Bool.noConfusion ((hst h).symm.trans ht.stale)

theorem shown_taskSkip {t : α} (h₀ : d.rules.Based b₀) (h : d.Shown b₀ (· ≠ .halted) s)
    (ht : Startable d s t) : d.Shown b₀ (fun _ => True) (d.taskSkip w s t) := by
  have hstart : d.Shown b₀ (fun _ => True) { s with
      runqRunning := insert t s.runqRunning
      runqBuildable := insert t s.runqBuildable
      buildable := insert t s.buildable
      runqComplete := insert t s.runqComplete
      log := .complete t :: .skipped t :: s.log } := by
    refine h.start ht .skipped (fun phase stale => ?_) id id
    simp only [State.board, Finset.insert_eq_of_mem ht.buildable, reduceCtorEq, if_false]
    rfl
  have hcomplete := hstart.leads h₀ (leads_completeoutright (d := d) (w := w) (s := setbuildable
    { s with runqRunning := insert t s.runqRunning, log := .skipped t :: s.log } t) t)
  refine hcomplete.leads h₀ (.unseen (fun phase stale => ?_) id id)
  simp only [State.board, taskSkip, taskCompleteoutright, setbuildable, Stats.taskSkipped,
    Stats.taskCompleted, add_sub_cancel_right]

theorem shown_runNoexec {t : α} (h₀ : d.rules.Based b₀) (h : d.Shown b₀ (· ≠ .halted) s)
    (ht : Startable d s t) : d.Shown b₀ (fun _ => True) (d.runNoexec w s t) := by
  have hstart : d.Shown b₀ (fun _ => True) { s with
      runqRunning := insert t s.runqRunning
      runqComplete := insert t s.runqComplete
      stats := s.stats.taskActive.taskCompleted
      log := .complete t :: .noexec t :: s.log } := by
    refine h.start ht .noexec (fun phase stale => ?_) id id
    simp only [State.board, Stats.taskActive, Stats.taskCompleted, add_sub_cancel_right, reduceCtorEq,
      if_false]
    rfl
  have hcomplete := hstart.leads h₀ (leads_completeoutright (d := d) (w := w) (s := { s with
    runqRunning := insert t s.runqRunning
    stats := s.stats.taskActive.taskCompleted
    log := .noexec t :: s.log }) t)
  exact hcomplete.leads h₀ (.unseen (fun _ _ => rfl) id id)

theorem shown_sendTask {t : α} (h₀ : d.rules.Based b₀) (h : d.Shown b₀ (· ≠ .halted) s)
    (ht : Startable d s t) : d.Shown b₀ (fun _ => True) (d.sendTask w s t).state := by
  unfold sendTask
  split
  · refine (h.leads h₀ ?_).mono fun _ _ => trivial
    exact .move id (fun h => RqState.noConfusion h) fun phase stale =>
      .miscount (s.board phase stale) (.spawnFailed t) rfl
  · have hsent : d.Shown b₀ (fun _ => True) { s with
        workers := ⟨t, false⟩ :: s.workers
        log := .sent ⟨t, false⟩ :: s.log
        buildStamps := s.buildStamps.set t (d.stampfile s.hashes.siggen t false)
        runqRunning := insert t s.runqRunning
        stats := s.stats.taskActive } := h.start ht .sent (fun phase stale => rfl) id id
    dsimp only
    split <;> exact hsent

theorem shown_startTask {t : α} (h₀ : d.rules.Based b₀) (h : d.Shown b₀ (· ≠ .halted) s)
    (ht : Startable d s t) : d.Shown b₀ (fun _ => True) (d.startTask w s t).state := by
  unfold startTask
  split_ifs
  · have hignored : d.Leads s { s with
        stats := s.stats.taskFailed, log := .ignored t :: s.log } :=
      .move id id fun phase stale => .miscount (s.board phase stale) (.ignored t) rfl
    refine (h.leads h₀ (hignored.trans ?_)).mono fun _ _ => trivial
    exact .unseen (fun _ _ => rfl) id fun h =>
      (ite_eq_iff.1 h).elim (fun h => RqState.noConfusion h.2) And.right
  · exact shown_taskSkip h₀ h ht
  · have hasked : d.Leads s { s with scene := { s.scene with asked := s.scene.asked + 2 } } :=
      .unseen (fun _ _ => rfl) id id
    refine (shown_taskSkip (w := w) h₀ (h.leads h₀ hasked) { ht with }).leads h₀ ?_
    exact .unseen (fun _ _ => rfl) id id
  · exact shown_runNoexec h₀ h ht
  · exact shown_sendTask h₀ h ht

/-! ### Steps -/

theorem leads_declareDone : d.Leads s (d.declareDone s).state := by
  unfold declareDone
  split_ifs
  · exact .unseen (fun _ _ => rfl) id RqState.noConfusion
  · exact .unseen (fun _ _ => rfl) id RqState.noConfusion
  · exact .unseen (fun _ _ => rfl) id RqState.noConfusion
  · exact .unseen (fun _ _ => rfl) id id
  · exact .refl s

/-- What `declareDone` leaves when it goes on. -/
theorem declareDone_onwards (h : d.declareDone s = .onwards s') :
    s'.scene = s.scene ∧ d.canStartTask s' = d.canStartTask s := by
  unfold declareDone at h
  split_ifs at h <;> cases h <;> exact ⟨rfl, rfl⟩

theorem leads_waitOrEnd (messages : List (Message α)) : d.Leads s (d.waitOrEnd w s messages) := by
  unfold waitOrEnd
  split
  · exact leads_readWorkers messages
  · split
    next deferred _ _ => exact leads_scene (turns_erase (t := deferred))
    · split_ifs
      · exact .unseen (fun _ _ => rfl) id RqState.noConfusion
      · exact .unseen (fun _ _ => rfl) id RqState.noConfusion
      · exact .unseen (fun _ _ => rfl) id RqState.noConfusion

theorem shown_executeTask (h₀ : d.rules.Based b₀)
    (h : d.Shown b₀ (fun phase => phase ≠ .halted ∨ d.canStartTask s = false) s)
    (hstale : s.scene.holdoffNeedUpdate = false) :
    d.Shown b₀ (fun _ => True) (d.executeTask w s).state := by
  unfold executeTask
  split
  next task htask =>
    have ht := startable_of_nextTask htask hstale
    refine shown_startTask h₀ (h.mono fun phase hphase => hphase.resolve_right fun hfull => ?_) ht
    exact Bool.noConfusion (hfull.symm.trans ht.slots)
  · exact h.mono fun _ _ => trivial

/-- After the parts of `execute` that precede the real tasks. -/
theorem goes_executeScene (h₀ : d.rules.Based b₀) (h : d.Shown b₀ (· ≠ .halted) s)
    (messages : List (Message α)) : Goes d b₀ (d.executeScene w s messages) ∧
      ∀ s', d.executeScene w s messages = .onwards s' → s'.scene.holdoffNeedUpdate = false := by
  have hasked : d.Leads s { s with scene := { s.scene with asked := 0 } } := .unseen (fun _ _ => rfl) id id
  have hread := h.leads h₀ (hasked.trans (leads_readWorkers (w := w) messages))
  unfold executeScene
  dsimp only
  generalize d.readWorkers w { s with scene := { s.scene with asked := 0 } } messages = s at hread ⊢
  have hmigrated : d.Shown b₀ (· ≠ .halted)
      (if s.hashes.updatedTaskhashQueue ≠ [] ∨ s.pendingMigrations ≠ ∅ then
        d.processPossibleMigrations w s else s) := by
    split
    · exact shown_processPossibleMigrations h₀ hread
    · exact hread
  generalize (if s.hashes.updatedTaskhashQueue ≠ [] ∨ s.pendingMigrations ≠ ∅ then
    d.processPossibleMigrations w s else s) = s at hmigrated ⊢
  have hscene := goes_executeSetscene (w := w) h₀ hmigrated
  cases hflow : d.executeSetscene w s with
  | returned s' =>
    rw [hflow] at hscene
    exact ⟨hscene, fun s'' hs => by cases hs⟩
  | onwards s' =>
    rw [hflow] at hscene
    have hheld := shown_updateHoldofftasks
      (P := fun phase => phase ≠ .halted ∨ d.canStartTask s' = false) h₀ hscene
    have hslots : d.canStartTask (d.updateHoldofftasks s') = d.canStartTask s' := by
      unfold updateHoldofftasks
      split <;> rfl
    refine ⟨?_, fun s'' hs => ?_⟩
    · show d.Shown b₀ (fun phase => phase ≠ .halted ∨ d.canStartTask (d.updateHoldofftasks s') = false)
        (d.updateHoldofftasks s')
      rw [hslots]
      exact hheld.1
    · obtain rfl := Flow.onwards.inj hs
      exact hheld.2

theorem shown_execute (h₀ : d.rules.Based b₀) (h : d.Shown b₀ (· ≠ .halted) s)
    (messages more : List (Message α)) : d.Shown b₀ (fun _ => True) (d.execute w s messages more) := by
  have hany {P : Phase → Prop} {s : State α} (h : d.Shown b₀ P s) : d.Shown b₀ (fun _ => True) s :=
    h.mono fun _ _ => trivial
  obtain ⟨hscene, hstale⟩ := goes_executeScene (w := w) h₀ h messages
  unfold execute
  cases hflow : d.executeScene w s messages with
  | returned s' =>
    rw [hflow] at hscene
    exact hscene
  | onwards s' =>
    rw [hflow] at hscene
    have hdone := Shown.leads (P := fun phase => phase ≠ .halted ∨ d.canStartTask s' = false) h₀ hscene
      leads_declareDone
    rw [Flow.bind]
    cases hdeclared : d.declareDone s' with
    | returned s'' =>
      rw [hdeclared] at hdone
      exact hany hdone
    | onwards s'' =>
      rw [hdeclared] at hdone
      obtain ⟨hs, hslots⟩ := declareDone_onwards hdeclared
      have htask := shown_executeTask (w := w) h₀ (by rw [hslots]; exact hdone)
        (by rw [hs]; exact hstale s' hflow)
      rw [Flow.bind]
      cases hstarted : d.executeTask w s'' with
      | returned t =>
        rw [hstarted] at htask
        exact htask
      | onwards t =>
        rw [hstarted] at htask
        exact htask.leads h₀ (leads_waitOrEnd more)

/-- A step of the run is a series of moves. -/
theorem shown_step (h₀ : d.rules.Based b₀) (h : d.Shown b₀ (fun _ => True) s) (e : World α × Event α) :
    d.Shown b₀ (fun _ => True) (d.step s e) := by
  obtain ⟨w, e⟩ := e
  cases e with
  | execute messages more =>
    unfold step
    dsimp only
    split
    next hrunning =>
      obtain ⟨b, hmoves, hb, -⟩ := h
      refine shown_execute h₀ ⟨b, hmoves, hb, ?_⟩ messages more
      rw [hb.going hrunning]
      exact Phase.noConfusion
    · exact h
  | finish messages =>
    have hclean : d.Leads s { s with rqState := .cleanUp } :=
      .unseen (fun _ _ => rfl) id RqState.noConfusion
    refine (h.leads h₀ hclean).leads h₀ ?_
    show d.Leads _ (d.finish w s messages)
    unfold finish
    dsimp only
    split
    · exact leads_readWorkers messages
    · exact leads_finishNow
  | finishNow => exact h.leads h₀ leads_finishNow
  | read messages => exact h.leads h₀ (leads_readWorkers messages)

/-! ### The start -/

theorem skipping_of_skipLoop {g : TaskGraph α} {n : Nat} {skips skips' : TaskGraph.Skips α}
    (hskips : g.Skipping skips) (h : g.skipLoop n skips = some skips') : g.Skipping skips' := by
  induction n generalizing skips with
  | zero => cases h
  | succ n ih =>
    rw [TaskGraph.skipLoop] at h
    split at h
    · exact ih hskips.round h
    · exact Option.some.inj h ▸ hskips.round

/-- The tasks that are made buildable while the scene queue is built have no dependencies. -/
theorem depends_of_runqBuildable {t : α} (ht : t ∈ d.sqdata.runqBuildable) : d.depends t = [] := by
  obtain ⟨n, hn⟩ := d.built
  unfold TaskGraph.buildScenequeueData at hn
  split at hn
  next s skips _ hskips =>
    split at hn
    · cases hn
    · rw [← Except.ok.inj hn] at ht
      exact ((skipping_of_skipLoop (.start _) hskips).buildable t ht).2.2
  · cases hn

theorem kept_construct (hashes : Hashes α) :
    d.rules.Kept ((d.construct hashes).board .going true) where
  based := ⟨Finset.empty_subset _, Finset.empty_subset _, Finset.empty_subset _, Finset.empty_subset _,
    fun t ht => absurd ht (Finset.notMem_empty t)⟩
  ordered := {
    buildable := fun t ht dep hdep => by
      rw [show d.rules.depends t = ∅ from congrArg List.toFinset (depends_of_runqBuildable ht)] at hdep
      cases Finset.notMem_empty dep hdep
    complete := fun t => iff_of_false (Finset.notMem_empty t) List.not_mem_nil
    running := fun t => iff_of_false (Finset.notMem_empty t) List.not_mem_nil
    once := List.nodup_nil
    earlier := fun n log h => absurd h (by simp [State.board, construct]) }
  apart := fun _ => {
    live_undecided := Finset.empty_subset _
    live_iff := fun t => iff_of_false (Finset.notMem_empty t) List.not_mem_nil
    real := fun t ht => absurd ht List.not_mem_nil
    nodup := List.nodup_nil
    complete := Finset.empty_subset _
    clear := fun s hs => absurd hs (Finset.notMem_empty s)
    undecided_clear := fun _ s _ =>
      ⟨Finset.notMem_empty s, fun t _ ht => absurd ht (Finset.notMem_empty t)⟩
    held := fun _ h => Bool.noConfusion h
    undecided_held := fun _ h => Bool.noConfusion h
    failed := fun t status ht => absurd ht List.not_mem_nil }
  counted := fun _ => ⟨rfl, Int.natCast_nonneg _⟩
  single := fun _ => Finset.disjoint_empty_left _

theorem leads_start (hashes : Hashes α) : d.Leads (d.construct hashes) (d.start w hashes) := by
  have hupdate : d.Leads (d.construct hashes) ((d.construct hashes).withScene
      (d.updateScenequeueData w (d.construct hashes).scene d.runqSetsceneTids.toFinset)) :=
    leads_scene (turns_updateScenequeueData fun t _ => Finset.notMem_empty t)
  refine hupdate.trans ?_
  unfold start
  dsimp only
  split_ifs
  · refine .trans (leads_enable ((d.tids.filter fun tid => d.depends tid = []).toFinset) ?_)
      (.unseen (fun _ _ => rfl) id id)
    intro t ht dep hdep
    have hnil := (List.mem_filter.1 (List.mem_toFinset.1 ht)).2
    rw [of_decide_eq_true hnil] at hdep
    cases hdep
  · exact .refl _

/-- Every state of a run is shown by a board that is reached by moves from that of the constructor. -/
theorem shown_run (hashes : Hashes α) (events : List (World α × Event α)) :
    d.Shown ((d.construct hashes).board .going true) (fun _ => True) (d.run w hashes events) := by
  have h₀ := (kept_construct (d := d) hashes).based
  have hstart : d.Shown ((d.construct hashes).board .going true) (fun _ => True) (d.start w hashes) :=
    Shown.leads h₀ ⟨_, .refl, ⟨rfl, fun _ => rfl, fun _ => rfl⟩, trivial⟩ (leads_start hashes)
  unfold run
  induction events using List.reverseRecOn with
  | nil => exact hstart
  | append_singleton events e ih =>
    rw [List.foldl_concat]
    exact shown_step h₀ ih e

/-- What the rules keep holds of every state of a run. -/
theorem kept_run (hashes : Hashes α) (events : List (World α × Event α)) :
    ∃ phase stale, d.rules.Kept ((d.run w hashes events).board phase stale) := by
  obtain ⟨b, hmoves, hb, -⟩ := shown_run (d := d) (w := w) hashes events
  exact ⟨b.phase, b.stale, hb.eq ▸ (kept_construct hashes).moves hmoves⟩

end RunQueueData
end BitBake
end OpenBmc
