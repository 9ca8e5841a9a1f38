import OpenBmc.Lib.Dag
import OpenBmc.Lib.Dict
import Mathlib.Data.Finset.Sort

/-!
# The scene queue

`build_scenequeue_data` collapses the task graph to its setscene tasks. It pushes the setscene tasks
down the dependencies, up to and including the next setscene task. Every point that was reached is
forwarded when no task that leads to it is left to be processed.
-/

namespace OpenBmc
namespace BitBake
open Dag

scoped instance lawfulBEqOfLinearOrder {α : Type*} [LinearOrder α] : LawfulBEq α := inferInstance

/-- The tasks of a runqueue: the dependencies of each, in the order in which a loop takes them. A
name outside `tids` has none. -/
structure TaskGraph (α : Type*) where
  /-- The keys of `runtaskentries`. -/
  tids : List α
  depends : α → List α
  revdeps : α → Finset α
  runqSetsceneTids : List α
  targetTids : Finset α
  nodup : tids.Nodup
  mem_tids_of_depends : ∀ a b, b ∈ depends a → a ∈ tids ∧ b ∈ tids
  mem_revdeps : ∀ a b, a ∈ revdeps b ↔ b ∈ depends a
  setscene_subset : ∀ tid ∈ runqSetsceneTids, tid ∈ tids
  acyclic : ∀ a, ¬ Relation.TransGen (fun a b => b ∈ depends a) a a

namespace TaskGraph
variable {α : Type*} [LinearOrder α] (g : TaskGraph α)

/-- The tasks without a setscene task. -/
abbrev Real (tid : α) : Prop := tid ∉ g.runqSetsceneTids

def DependsOn (a b : α) : Prop := b ∈ g.depends a

/-! ### The chains between the setscene tasks -/

/-- `sq_revdeps`, `sq_revdeps_squash`, `sq_collated_deps` and `newendpoints`. -/
structure Collapse (α : Type*) where
  sqRevdeps : α → Finset α
  sqRevdepsSquash : α → Finset α
  sqCollatedDeps : α → Finset α
  newendpoints : Dict α (Finset α)

/-- The body of the loop over the dependencies of `point`. -/
def forward (point : α) (task tasks : Finset α) (s : Collapse α) (dep : α) : Collapse α :=
  let sqRevdeps := Function.update s.sqRevdeps dep ((s.sqRevdeps dep).erase point)
  { s with
    sqRevdeps
    sqRevdepsSquash := Function.update s.sqRevdepsSquash dep (s.sqRevdepsSquash dep ∪ tasks)
    newendpoints :=
      if sqRevdeps dep = ∅ ∧ g.Real dep then s.newendpoints.set dep task else s.newendpoints }

/-- The body of the loop over the endpoints. -/
def visit (s : Collapse α) (endpoint : α × Finset α) : Collapse α :=
  let tasks := endpoint.2 ∪ s.sqRevdepsSquash endpoint.1
  if g.Real endpoint.1 then
    (g.depends endpoint.1).foldl (g.forward endpoint.1 endpoint.2 tasks)
      { s with
        sqCollatedDeps := fun t =>
          if t ∈ tasks then insert endpoint.1 (s.sqCollatedDeps t) else s.sqCollatedDeps t
        sqRevdepsSquash := Function.update s.sqRevdepsSquash endpoint.1 ∅ }
  else { s with sqRevdepsSquash := Function.update s.sqRevdepsSquash endpoint.1 tasks }

/-- `process_endpoints`, with at most `n` calls of itself. -/
def processEndpoints : Nat → Collapse α → Dict α (Finset α) → Option (Collapse α)
  | 0, _, _ => none
  | n + 1, s, endpoints =>
    let s := endpoints.entries.foldl g.visit { s with newendpoints := .empty }
    if s.newendpoints.entries = [] then some s else processEndpoints n s s.newendpoints

/-- The body of the loop over the dependencies of the setscene task `tid`. -/
def feed (tid : α) (s : (α → Finset α) × Dict α (Finset α)) (dep : α) :
    (α → Finset α) × Dict α (Finset α) :=
  (Function.update s.1 dep ((s.1 dep).erase tid),
    s.2.set dep (insert tid ((s.2.get? dep).getD ∅)))

/-- The tasks that nothing depends on are the first endpoints. -/
def startEndpoints : Dict α (Finset α) :=
  .ofList ((g.tids.filter fun tid => g.revdeps tid = ∅ ∧ g.Real tid).map fun tid => (tid, ∅))

/-- `sq_revdeps` and `endpoints` after the chains from the setscene tasks are begun. -/
def begun : (α → Finset α) × Dict α (Finset α) :=
  g.runqSetsceneTids.foldl (fun s tid => (g.depends tid).foldl (feed tid) s)
    (g.revdeps, g.startEndpoints)

def collapse (n : Nat) : Option (Collapse α) :=
  g.processEndpoints n
    { sqRevdeps := g.begun.1, sqRevdepsSquash := fun _ => ∅, sqCollatedDeps := fun _ => ∅,
      newendpoints := .empty }
    g.begun.2

/-! ### The tasks that cannot be skipped -/

/-- The targets that are no setscene tasks. -/
def cantskip : Finset α := (g.targetTids.filter g.Real).filter (· ∈ g.tids)

structure Skips (α : Type*) where
  unskippable : Finset α
  new : Bool
  /-- The tasks that were passed to `setbuildable`. -/
  buildable : Finset α

def skipTask (orig : Finset α) (s : Skips α) (tid : α) : Skips α :=
  if g.Real tid then
    let unskippable := s.unskippable ∪ (g.depends tid).toFinset
    { unskippable
      new := s.new || unskippable ≠ orig
      buildable := if g.depends tid = [] then insert tid s.buildable else s.buildable }
  else s

def skipRound (s : Skips α) : Skips α :=
  (s.unskippable.sort (· ≥ ·)).foldl (g.skipTask s.unskippable) { s with new := false }

/-- The loop `while new`, with at most `n` rounds. -/
def skipLoop : Nat → Skips α → Option (Skips α)
  | 0, _ => none
  | n + 1, s => let s := g.skipRound s; if s.new then skipLoop n s else some s

def startSkips : Skips α where
  unskippable := (g.tids.filter fun tid => g.revdeps tid = ∅).toFinset ∪ g.cantskip
  new := true
  buildable := ∅

/-! ### The data of the scene queue -/

structure SceneQueueData (α : Type*) where
  sqRevdeps : α → Finset α
  sqDeps : α → Finset α
  sqCoveredTasks : α → Finset α
  cantskip : Finset α
  unskippable : Finset α
  /-- What is added to `tasks_scenequeue_done`, `runq_buildable` and `sq_buildable`. -/
  tasksScenequeueDone : Finset α
  runqBuildable : Finset α
  sqBuildable : Finset α

inductive Halt
  /-- A recursion or a loop was not done after as many rounds as were allowed. -/
  | rounds
  /-- "Something went badly wrong during scenequeue generation". -/
  | wentBadlyWrong

def sqDeps (sqRevdeps : α → Finset α) : α → Finset α :=
  g.runqSetsceneTids.foldl
    (fun deps tid dep => if dep ∈ sqRevdeps tid then insert tid (deps dep) else deps dep) fun _ => ∅

/-- `build_scenequeue_data`, up to the hard dependencies and the hashes. -/
def buildScenequeueData (n : Nat) : Except Halt (SceneQueueData α) :=
  match g.collapse n, g.skipLoop n g.startSkips with
  | some s, some skips =>
    if ∃ tid ∈ g.tids, g.Real tid ∧ s.sqRevdepsSquash tid ≠ ∅ then .error .wentBadlyWrong
    else .ok {
      sqRevdeps := s.sqRevdepsSquash
      sqDeps := g.sqDeps s.sqRevdepsSquash
      sqCoveredTasks := s.sqCollatedDeps
      cantskip := g.cantskip
      unskippable := skips.unskippable
      tasksScenequeueDone := skips.unskippable.filter g.Real
      runqBuildable := skips.buildable
      sqBuildable := (g.runqSetsceneTids.filter fun tid => s.sqRevdepsSquash tid = ∅).toFinset }
  | _, _ => .error .rounds

variable {g}

/-! ### What the collapse keeps

A setscene task `t` feeds what it reaches over real tasks. Whatever `t` feeds directly, and whatever a
task covered by `t` depends on, was collated for `t`, is squashed, or is among the endpoints that are
left. A task that holds something squashed is an endpoint again, or waits for another that leads to
it; and a task that waits for nothing is an endpoint, or was taken out of the reverse dependencies. -/

/-- `x` is reached from `t` by dependencies, over real tasks in between. -/
def Feeds (g : TaskGraph α) (t x : α) : Prop := Chain g.DependsOn g.Real t x

theorem dag (g : TaskGraph α) : Acyclic g.DependsOn g.tids.toFinset where
  left_mem a b h := List.mem_toFinset.2 (g.mem_tids_of_depends a b h).1
  right_mem a b h := List.mem_toFinset.2 (g.mem_tids_of_depends a b h).2
  irrefl := g.acyclic

omit [LinearOrder α] in
theorem not_mem_depends_self (g : TaskGraph α) (a : α) : a ∉ g.depends a := by
  intro h
  exact g.acyclic a (.single h)

section Forward
variable {point : α} {task tasks : Finset α} {ds : List α} {s : Collapse α}

theorem sqRevdeps_forward (y : α) : (ds.foldl (g.forward point task tasks) s).sqRevdeps y =
    if y ∈ ds then (s.sqRevdeps y).erase point else s.sqRevdeps y := by
  induction ds generalizing s with
  | nil => simp
  | cons d ds ih =>
    rw [List.foldl_cons, ih]
    by_cases hy : y = d
    · subst hy
      simp [forward]
    · simp [forward, hy]

theorem sqRevdepsSquash_forward (y : α) :
    (ds.foldl (g.forward point task tasks) s).sqRevdepsSquash y =
      if y ∈ ds then s.sqRevdepsSquash y ∪ tasks else s.sqRevdepsSquash y := by
  induction ds generalizing s with
  | nil => simp
  | cons d ds ih =>
    rw [List.foldl_cons, ih]
    by_cases hy : y = d
    · subst hy
      simp [forward]
    · simp [forward, hy]

theorem sqCollatedDeps_forward :
    (ds.foldl (g.forward point task tasks) s).sqCollatedDeps = s.sqCollatedDeps := by
  induction ds generalizing s with
  | nil => rfl
  | cons d ds ih => rw [List.foldl_cons, ih]; rfl

theorem newendpoints_forward (y : α) :
    (ds.foldl (g.forward point task tasks) s).newendpoints.get? y =
      if y ∈ ds ∧ (s.sqRevdeps y).erase point = ∅ ∧ g.Real y then some task
      else s.newendpoints.get? y := by
  induction ds generalizing s with
  | nil => simp
  | cons d ds ih =>
    rw [List.foldl_cons, ih]
    by_cases hy : y = d
    · subst hy
      by_cases hnew : (s.sqRevdeps y).erase point = ∅ ∧ g.Real y
      · simp [forward, hnew]
      · have hnone : ¬ (y ∈ ds ∧ (s.sqRevdeps y).erase point = ∅ ∧ g.Real y) := fun h => hnew h.2
        simp [forward, hnew]
    · have hne : (g.forward point task tasks s d).newendpoints.get? y = s.newendpoints.get? y := by
        simp only [forward]
        split
        · rw [Dict.get?_set_ne _ hy]
        · rfl
      rw [hne]
      simp [forward, hy]

end Forward

section Visit
variable {s : Collapse α} {e : α × Finset α}

/-- The tasks that a visit of the endpoint `e` finds. -/
def found (s : Collapse α) (e : α × Finset α) : Finset α := e.2 ∪ s.sqRevdepsSquash e.1

theorem visit_setscene (h : ¬ g.Real e.1) : g.visit s e =
    { s with sqRevdepsSquash := Function.update s.sqRevdepsSquash e.1 (found s e) } := by
  rw [visit, if_neg h]
  rfl

variable (h : g.Real e.1)
include h

theorem visit_real : g.visit s e = (g.depends e.1).foldl (g.forward e.1 e.2 (found s e))
    { s with
      sqCollatedDeps := fun t =>
        if t ∈ found s e then insert e.1 (s.sqCollatedDeps t) else s.sqCollatedDeps t
      sqRevdepsSquash := Function.update s.sqRevdepsSquash e.1 ∅ } := by
  rw [visit, if_pos h]
  rfl

theorem sqRevdeps_visit (y : α) : (g.visit s e).sqRevdeps y =
    if y ∈ g.depends e.1 then (s.sqRevdeps y).erase e.1 else s.sqRevdeps y := by
  rw [visit_real h, sqRevdeps_forward]

theorem mem_squash_visit {t y : α} : t ∈ (g.visit s e).sqRevdepsSquash y ↔
    y ≠ e.1 ∧ t ∈ s.sqRevdepsSquash y ∨ y ∈ g.depends e.1 ∧ t ∈ found s e := by
  rw [visit_real h, sqRevdepsSquash_forward]
  by_cases hy : y = e.1
  · subst hy
    simp [not_mem_depends_self]
  · by_cases hd : y ∈ g.depends e.1 <;> simp [hy, hd]

theorem mem_collated_visit {t x : α} : x ∈ (g.visit s e).sqCollatedDeps t ↔
    x ∈ s.sqCollatedDeps t ∨ x = e.1 ∧ t ∈ found s e := by
  rw [visit_real h, sqCollatedDeps_forward]
  by_cases ht : t ∈ found s e
  · simp [ht, or_comm]
  · simp [ht]

theorem newendpoints_visit (y : α) : (g.visit s e).newendpoints.get? y =
    if y ∈ g.depends e.1 ∧ (s.sqRevdeps y).erase e.1 = ∅ ∧ g.Real y then some e.2
    else s.newendpoints.get? y := by
  rw [visit_real h, newendpoints_forward]

end Visit

/-- The endpoints that are left in this round, and those of the next. -/
def Pending (s : Collapse α) (todo : List (α × Finset α)) (y : α) : Prop :=
  (∃ e ∈ todo, e.1 = y) ∨ y ∈ s.newendpoints

/-- `t` was collated or squashed at `y`, or will be. -/
def Holds (g : TaskGraph α) (s : Collapse α) (todo : List (α × Finset α)) (t y : α) : Prop :=
  g.Real y ∧ y ∈ s.sqCollatedDeps t ∨ t ∈ s.sqRevdepsSquash y ∨ ∃ e ∈ todo, e.1 = y ∧ t ∈ e.2

/-- What is in the sets belongs there. -/
structure Sound (g : TaskGraph α) (s : Collapse α) (todo : List (α × Finset α)) : Prop where
  squash : ∀ x t, t ∈ s.sqRevdepsSquash x → ¬ g.Real t ∧ g.Feeds t x
  collated : ∀ t x, x ∈ s.sqCollatedDeps t → ¬ g.Real t ∧ g.Real x ∧ g.Feeds t x
  todo : ∀ e ∈ todo, ∀ t ∈ e.2, ¬ g.Real t ∧ g.Feeds t e.1
  new : ∀ y v, s.newendpoints.get? y = some v → ∀ t ∈ v, ¬ g.Real t ∧ g.Feeds t y

/-- What belongs in the sets is there, or on the way. -/
structure Complete (g : TaskGraph α) (s : Collapse α) (todo : List (α × Finset α)) : Prop where
  first : ∀ t x, ¬ g.Real t → x ∈ g.depends t → Holds g s todo t x
  next : ∀ t x y, x ∈ s.sqCollatedDeps t → y ∈ g.depends x → Holds g s todo t y
  squash_pending : ∀ y, g.Real y → s.sqRevdepsSquash y ≠ ∅ → Pending s todo y ∨ s.sqRevdeps y ≠ ∅
  new_held : ∀ y v, s.newendpoints.get? y = some v →
    ∀ t ∈ v, t ∈ s.sqRevdepsSquash y ∨ g.Real y ∧ y ∈ s.sqCollatedDeps t
  revdeps_real : ∀ r y, r ∈ s.sqRevdeps y → g.Real r ∧ y ∈ g.depends r
  revdeps_pending : ∀ x, g.Real x → s.sqRevdeps x = ∅ →
    Pending s todo x ∨ ∀ y, x ∉ s.sqRevdeps y

section Step
variable {s : Collapse α} {e : α × Finset α} {todo : List (α × Finset α)}

theorem Sound.mem_found (hs : g.Sound s (e :: todo)) {t : α} (ht : t ∈ found s e) :
    ¬ g.Real t ∧ g.Feeds t e.1 := by
  rcases Finset.mem_union.1 ht with ht | ht
  · exact hs.todo e List.mem_cons_self t ht
  · exact hs.squash e.1 t ht

theorem Sound.visit (hs : g.Sound s (e :: todo)) : g.Sound (g.visit s e) todo := by
  have htodo : ∀ e' ∈ todo, ∀ t ∈ e'.2, ¬ g.Real t ∧ g.Feeds t e'.1 :=
    fun e' he' => hs.todo e' (List.mem_cons_of_mem _ he')
  by_cases h : g.Real e.1
  · have hforward : ∀ t ∈ found s e, ∀ y ∈ g.depends e.1, ¬ g.Real t ∧ g.Feeds t y :=
      fun t ht y hy => ⟨(hs.mem_found ht).1, .tail (hs.mem_found ht).2 h hy⟩
    refine ⟨?_, ?_, htodo, ?_⟩
    · intro x t ht
      rcases (mem_squash_visit h).1 ht with ⟨-, ht⟩ | ⟨hx, ht⟩
      · exact hs.squash x t ht
      · exact hforward t ht x hx
    · intro t x hx
      rcases (mem_collated_visit h).1 hx with hx | ⟨rfl, ht⟩
      · exact hs.collated t x hx
      · exact ⟨(hs.mem_found ht).1, h, (hs.mem_found ht).2⟩
    · intro y v hv t ht
      rw [newendpoints_visit h] at hv
      split at hv
      · rename_i hy
        obtain rfl := Option.some.inj hv
        exact hforward t (Finset.mem_union_left _ ht) y hy.1
      · exact hs.new y v hv t ht
  · rw [visit_setscene h]
    refine ⟨?_, hs.collated, htodo, hs.new⟩
    intro x t ht
    replace ht : t ∈ Function.update s.sqRevdepsSquash e.1 (found s e) x := ht
    by_cases hx : x = e.1
    · subst hx
      rw [Function.update_self] at ht
      exact hs.mem_found ht
    · rw [Function.update_of_ne hx] at ht
      exact hs.squash x t ht

/-- A visit loses nothing. -/
theorem Holds.visit {t y : α} (ht : Holds g s (e :: todo) t y) : Holds g (g.visit s e) todo t y := by
  by_cases h : g.Real e.1
  · rcases ht with ⟨hy, ht⟩ | ht | ⟨e', he', rfl, ht⟩
    · exact .inl ⟨hy, (mem_collated_visit h).2 (.inl ht)⟩
    · by_cases hy : y = e.1
      · subst hy
        exact .inl ⟨h, (mem_collated_visit h).2 (.inr ⟨rfl, Finset.mem_union_right _ ht⟩)⟩
      · exact .inr (.inl ((mem_squash_visit h).2 (.inl ⟨hy, ht⟩)))
    · rcases List.mem_cons.1 he' with rfl | he'
      · exact .inl ⟨h, (mem_collated_visit h).2 (.inr ⟨rfl, Finset.mem_union_left _ ht⟩)⟩
      · exact .inr (.inr ⟨e', he', rfl, ht⟩)
  · rw [visit_setscene h]
    have hsquash : t ∈ found s e → Holds g { s with
        sqRevdepsSquash := Function.update s.sqRevdepsSquash e.1 (found s e) } todo t e.1 :=
      fun ht => .inr (.inl (by simpa using ht))
    rcases ht with ht | ht | ⟨e', he', rfl, ht⟩
    · exact .inl ht
    · by_cases hy : y = e.1
      · subst hy
        exact hsquash (Finset.mem_union_right _ ht)
      · exact .inr (.inl (by simpa [Function.update_of_ne hy] using ht))
    · rcases List.mem_cons.1 he' with rfl | he'
      · exact hsquash (Finset.mem_union_left _ ht)
      · exact .inr (.inr ⟨e', he', rfl, ht⟩)

theorem Pending.visit {y : α} (hy : Pending s (e :: todo) y) :
    y = e.1 ∨ Pending (g.visit s e) todo y := by
  rcases hy with ⟨e', he', rfl⟩ | hy
  · rcases List.mem_cons.1 he' with rfl | he'
    · exact .inl rfl
    · exact .inr (.inl ⟨e', he', rfl⟩)
  · refine .inr (.inr ?_)
    by_cases h : g.Real e.1
    · obtain ⟨v, hv⟩ := Dict.mem_iff_get?_isSome.1 hy
      refine Dict.mem_iff_get?_isSome.2 ?_
      rw [newendpoints_visit h]
      split
      · exact ⟨_, rfl⟩
      · exact ⟨v, hv⟩
    · rw [visit_setscene h]
      exact hy

/-- The dependencies of a visited point that wait for nothing else are endpoints of the next round. -/
theorem pending_of_depends (h : g.Real e.1) {y : α} (hy : y ∈ g.depends e.1) (hreal : g.Real y)
    (hnone : (g.visit s e).sqRevdeps y = ∅) : Pending (g.visit s e) todo y := by
  rw [sqRevdeps_visit h, if_pos hy] at hnone
  refine .inr (Dict.mem_iff_get?_isSome.2 ⟨e.2, ?_⟩)
  rw [newendpoints_visit h, if_pos ⟨hy, hnone, hreal⟩]

theorem Complete.visit_real (hc : g.Complete s (e :: todo)) (h : g.Real e.1) :
    g.Complete (g.visit s e) todo where
  first t x ht hx := (hc.first t x ht hx).visit
  next t x y hx hy := by
    rcases (mem_collated_visit h).1 hx with hx | ⟨rfl, ht⟩
    · exact (hc.next t x y hx hy).visit
    · exact .inr (.inl ((mem_squash_visit h).2 (.inr ⟨hy, ht⟩)))
  squash_pending y hy hne := by
    by_cases hd : y ∈ g.depends e.1
    · by_cases hnone : (g.visit s e).sqRevdeps y = ∅
      · exact .inl (pending_of_depends h hd hy hnone)
      · exact .inr hnone
    · obtain ⟨t, ht⟩ := Finset.nonempty_iff_ne_empty.2 hne
      obtain ⟨hy', ht⟩ | ⟨hd', -⟩ := (mem_squash_visit h).1 ht
      · rcases hc.squash_pending y hy (Finset.ne_empty_of_mem ht) with hp | hr
        · exact .inl (hp.visit.resolve_left hy')
        · rw [sqRevdeps_visit h, if_neg hd]
          exact .inr hr
      · exact absurd hd' hd
  new_held y v hv t ht := by
    rw [newendpoints_visit h] at hv
    split at hv
    · rename_i hy
      obtain rfl := Option.some.inj hv
      exact .inl ((mem_squash_visit h).2 (.inr ⟨hy.1, Finset.mem_union_left _ ht⟩))
    · rcases hc.new_held y v hv t ht with ht | ⟨hy, ht⟩
      · by_cases hy : y = e.1
        · subst hy
          exact .inr ⟨h, (mem_collated_visit h).2 (.inr ⟨rfl, Finset.mem_union_right _ ht⟩)⟩
        · exact .inl ((mem_squash_visit h).2 (.inl ⟨hy, ht⟩))
      · exact .inr ⟨hy, (mem_collated_visit h).2 (.inl ht)⟩
  revdeps_real r y hr := by
    rw [sqRevdeps_visit h] at hr
    split at hr
    · exact hc.revdeps_real r y (Finset.mem_of_mem_erase hr)
    · exact hc.revdeps_real r y hr
  revdeps_pending x hx hnone := by
    by_cases hd : x ∈ g.depends e.1
    · exact .inl (pending_of_depends h hd hx hnone)
    · rw [sqRevdeps_visit h, if_neg hd] at hnone
      -- a visited point is in no reverse dependencies any more
      have hgone : ∀ y, e.1 ∉ (g.visit s e).sqRevdeps y := by
        intro y hy
        rw [sqRevdeps_visit h] at hy
        split at hy
        · exact absurd rfl (Finset.ne_of_mem_erase hy)
        · rename_i hd
          exact hd (hc.revdeps_real e.1 y hy).2
      rcases hc.revdeps_pending x hx hnone with hp | hout
      · rcases hp.visit with rfl | hp
        · exact .inr hgone
        · exact .inl hp
      · refine .inr fun y hy => hout y ?_
        rw [sqRevdeps_visit h] at hy
        split at hy
        · exact Finset.mem_of_mem_erase hy
        · exact hy

theorem Complete.visit_setscene (hc : g.Complete s (e :: todo)) (h : ¬ g.Real e.1) :
    g.Complete (g.visit s e) todo := by
  have hpending : ∀ y, g.Real y → Pending s (e :: todo) y → Pending (g.visit s e) todo y := by
    intro y hy hp
    refine hp.visit.resolve_left ?_
    rintro rfl
    exact h hy
  have hvisit := TaskGraph.visit_setscene (s := s) h
  refine ⟨fun t x ht hx => (hc.first t x ht hx).visit, ?_, ?_, ?_, ?_, ?_⟩
  · intro t x y hx hy
    rw [hvisit] at hx
    exact (hc.next t x y hx hy).visit
  · intro y hy hne
    have hy' : y ≠ e.1 := by
      rintro rfl
      exact h hy
    have hsquash : (g.visit s e).sqRevdepsSquash y = s.sqRevdepsSquash y := by
      rw [hvisit]
      exact Function.update_of_ne hy' ..
    rw [hsquash] at hne
    rcases hc.squash_pending y hy hne with hp | hr
    · exact .inl (hpending y hy hp)
    · rw [hvisit]
      exact .inr hr
  · intro y v hv t ht
    rw [hvisit] at hv ⊢
    rcases hc.new_held y v hv t ht with ht | ht
    · refine .inl ?_
      show t ∈ Function.update s.sqRevdepsSquash e.1 (found s e) y
      by_cases hy : y = e.1
      · subst hy
        rw [Function.update_self]
        exact Finset.mem_union_right _ ht
      · rwa [Function.update_of_ne hy]
    · exact .inr ht
  · intro r y hr
    rw [hvisit] at hr
    exact hc.revdeps_real r y hr
  · intro x hx hnone
    rw [hvisit] at hnone
    rcases hc.revdeps_pending x hx hnone with hp | hout
    · exact .inl (hpending x hx hp)
    · rw [hvisit]
      exact .inr hout

theorem Complete.visit (hc : g.Complete s (e :: todo)) : g.Complete (g.visit s e) todo := by
  by_cases h : g.Real e.1
  · exact hc.visit_real h
  · exact hc.visit_setscene h

end Step

/-! ### The rounds -/

section Rounds
variable {s : Collapse α} {todo : List (α × Finset α)}

/-- `g.Sound` and `g.Complete`, and an endpoint has fewer than `n` tasks below it. -/
structure Round (g : TaskGraph α) (n : Nat) (s : Collapse α) (todo : List (α × Finset α)) : Prop where
  sound : g.Sound s todo
  complete : g.Complete s todo
  todo_rank : ∀ e ∈ todo, rank g.DependsOn g.tids.toFinset e.1 < n
  new_rank : ∀ y ∈ s.newendpoints, rank g.DependsOn g.tids.toFinset y + 1 < n

theorem Round.visit {n : Nat} {e : α × Finset α} (hr : g.Round n s (e :: todo)) :
    g.Round n (g.visit s e) todo where
  sound := hr.sound.visit
  complete := hr.complete.visit
  todo_rank e' he' := hr.todo_rank e' (List.mem_cons_of_mem _ he')
  new_rank y hy := by
    obtain ⟨v, hv⟩ := Dict.mem_iff_get?_isSome.1 hy
    by_cases h : g.Real e.1
    · rw [newendpoints_visit h] at hv
      split at hv
      · rename_i hd
        have he := hr.todo_rank e List.mem_cons_self
        have hlt := g.dag.rank_lt hd.1
        omega
      · exact hr.new_rank y (Dict.mem_of_get? hv)
    · rw [visit_setscene h] at hv
      exact hr.new_rank y (Dict.mem_of_get? hv)

theorem Round.visits {n : Nat} (hr : g.Round n s todo) : g.Round n (todo.foldl g.visit s) [] := by
  induction todo generalizing s with
  | nil => exact hr
  | cons e todo ih => exact ih hr.visit

/-- The endpoints that were found are those of the next round. -/
theorem Round.next {n : Nat} (hr : g.Round (n + 1) s []) :
    g.Round n { s with newendpoints := .empty } s.newendpoints.entries := by
  have hmem : ∀ {y v}, (y, v) ∈ s.newendpoints.entries ↔ s.newendpoints.get? y = some v :=
    Dict.get?_eq_some_iff.symm
  have hpending : ∀ {y}, Pending s [] y →
      Pending { s with newendpoints := .empty } s.newendpoints.entries y := by
    rintro y (⟨e, he, -⟩ | hy)
    · cases he
    · obtain ⟨v, hv⟩ := Dict.mem_iff_get?_isSome.1 hy
      exact .inl ⟨(y, v), hmem.2 hv, rfl⟩
  have hholds : ∀ {t y}, Holds g s [] t y →
      Holds g { s with newendpoints := .empty } s.newendpoints.entries t y := by
    rintro t y (h | h | ⟨e, he, -⟩)
    · exact .inl h
    · exact .inr (.inl h)
    · cases he
  refine ⟨⟨hr.sound.squash, hr.sound.collated, ?_, ?_⟩, ⟨?_, ?_, ?_, ?_, hr.complete.revdeps_real, ?_⟩,
    ?_, ?_⟩
  · intro e he
    exact hr.sound.new e.1 e.2 (hmem.1 he)
  · intro y v hv
    simp at hv
  · intro t x ht hx
    exact hholds (hr.complete.first t x ht hx)
  · intro t x y hx hy
    exact hholds (hr.complete.next t x y hx hy)
  · intro y hy hne
    exact (hr.complete.squash_pending y hy hne).imp_left hpending
  · intro y v hv
    simp at hv
  · intro x hx hnone
    exact (hr.complete.revdeps_pending x hx hnone).imp_left hpending
  · intro e he
    have := hr.new_rank e.1 (Dict.mem_keys_of_mem_entries he)
    omega
  · intro y hy
    simp [Dict.mem_iff_mem_keys] at hy

/-- With a call for each task below an endpoint, the recursion comes to its end. -/
theorem processEndpoints_eq {n : Nat} {endpoints : Dict α (Finset α)}
    (hr : g.Round n { s with newendpoints := .empty } endpoints.entries) :
    ∃ s', g.processEndpoints (n + 1) s endpoints = some s' ∧ s'.newendpoints.entries = [] ∧
      g.Round n s' [] := by
  induction n generalizing s endpoints with
  | zero =>
    have hnil : endpoints.entries = [] := by
      refine List.eq_nil_iff_forall_not_mem.2 fun e he => ?_
      have := hr.todo_rank e he
      omega
    refine ⟨_, ?_, ?_, hr.visits⟩
    · rw [processEndpoints, hnil]
      rfl
    · rw [hnil]
      rfl
  | succ n ih =>
    have hvisits := hr.visits
    rw [processEndpoints]
    split
    · rename_i hnew
      exact ⟨_, rfl, hnew, hvisits⟩
    · obtain ⟨s', heq, hnil, hround⟩ := ih hvisits.next
      refine ⟨s', heq, hnil, hround.sound, hround.complete, ?_, ?_⟩
      · intro e he
        cases he
      · intro y hy
        have := hround.new_rank y hy
        omega

end Rounds

/-! ### The first round -/

section Begun
variable {tid : α} {s : (α → Finset α) × Dict α (Finset α)} {ds ts : List α}

/-- What is found under a key, nothing if it is absent. -/
def taskAt (d : Dict α (Finset α)) (y : α) : Finset α := (d.get? y).getD ∅

theorem feeds_fst (y : α) : (ds.foldl (feed tid) s).1 y =
    if y ∈ ds then (s.1 y).erase tid else s.1 y := by
  induction ds generalizing s with
  | nil => simp
  | cons d ds ih =>
    rw [List.foldl_cons, ih]
    by_cases hy : y = d
    · subst hy
      simp [feed]
    · simp [feed, hy]

theorem feeds_snd (y : α) : (ds.foldl (feed tid) s).2.get? y =
    if y ∈ ds then some (insert tid (taskAt s.2 y)) else s.2.get? y := by
  induction ds generalizing s with
  | nil => simp
  | cons d ds ih =>
    rw [List.foldl_cons, ih]
    by_cases hy : y = d
    · subst hy
      simp [feed, taskAt]
    · simp [feed, taskAt, hy]

variable {depends : α → List α}

theorem begins_fst (r y : α) :
    r ∈ (ts.foldl (fun s tid => (depends tid).foldl (feed tid) s) s).1 y ↔
      r ∈ s.1 y ∧ ¬ (r ∈ ts ∧ y ∈ depends r) := by
  induction ts generalizing s with
  | nil => simp
  | cons t ts ih =>
    rw [List.foldl_cons, ih, feeds_fst]
    by_cases hr : r = t
    · subst hr
      by_cases hd : y ∈ depends r <;> simp [hd]
    · by_cases hd : y ∈ depends t <;> simp [hd, hr]

theorem begins_snd (t y : α) :
    t ∈ taskAt (ts.foldl (fun s tid => (depends tid).foldl (feed tid) s) s).2 y ↔
      t ∈ taskAt s.2 y ∨ t ∈ ts ∧ y ∈ depends t := by
  induction ts generalizing s with
  | nil => simp
  | cons t' ts ih =>
    have hfed : t ∈ taskAt ((depends t').foldl (feed t') s).2 y ↔
        t ∈ taskAt s.2 y ∨ t = t' ∧ y ∈ depends t' := by
      rw [taskAt, feeds_snd]
      by_cases hd : y ∈ depends t'
      · simp [hd, or_comm]
      · simp [hd, taskAt]
    rw [List.foldl_cons, ih, hfed, List.mem_cons, or_assoc]
    refine or_congr_right ⟨?_, ?_⟩
    · rintro (⟨rfl, hd⟩ | ⟨ht, hd⟩)
      · exact ⟨.inl rfl, hd⟩
      · exact ⟨.inr ht, hd⟩
    · rintro ⟨rfl | ht, hd⟩
      · exact .inl ⟨rfl, hd⟩
      · exact .inr ⟨ht, hd⟩

theorem begins_keys (y : α) :
    y ∈ (ts.foldl (fun s tid => (depends tid).foldl (feed tid) s) s).2 ↔
      y ∈ s.2 ∨ ∃ t ∈ ts, y ∈ depends t := by
  induction ts generalizing s with
  | nil => simp
  | cons t ts ih =>
    have hfed : y ∈ ((depends t).foldl (feed t) s).2 ↔ y ∈ s.2 ∨ y ∈ depends t := by
      rw [Dict.mem_iff_get?_isSome, feeds_snd]
      by_cases hd : y ∈ depends t
      · simp [hd]
      · simp [hd, Dict.mem_iff_get?_isSome]
    rw [List.foldl_cons, ih, hfed]
    simp [or_assoc]

end Begun

theorem mem_startEndpoints {tid : α} :
    tid ∈ g.startEndpoints ↔ tid ∈ g.tids ∧ g.revdeps tid = ∅ ∧ g.Real tid := by
  rw [startEndpoints, Dict.mem_ofList]
  simp

theorem taskAt_startEndpoints (y : α) : taskAt g.startEndpoints y = ∅ := by
  rw [taskAt]
  cases h : g.startEndpoints.get? y with
  | none => rfl
  | some v =>
    have := Dict.mem_of_get?_ofList h
    simp only [List.mem_map, Prod.mk.injEq] at this
    obtain ⟨_, _, _, rfl⟩ := this
    rfl

theorem mem_begun_fst {r y : α} : r ∈ g.begun.1 y ↔ g.Real r ∧ y ∈ g.depends r := by
  rw [begun, begins_fst, g.mem_revdeps]
  tauto

theorem mem_begun_snd {t y : α} : t ∈ taskAt g.begun.2 y ↔ ¬ g.Real t ∧ y ∈ g.depends t := by
  rw [begun, begins_snd, taskAt_startEndpoints]
  simp

/-- The start of the first round. -/
def start (g : TaskGraph α) : Collapse α where
  sqRevdeps := g.begun.1
  sqRevdepsSquash := fun _ => ∅
  sqCollatedDeps := fun _ => ∅
  newendpoints := .empty

theorem round_start (g : TaskGraph α) :
    g.Round g.tids.length g.start g.begun.2.entries := by
  have hat : ∀ e ∈ g.begun.2.entries, e.2 = taskAt g.begun.2 e.1 := by
    intro e he
    rw [taskAt, Dict.get?_eq_some_iff.2 he]
    rfl
  have hentry : ∀ y ∈ g.begun.2, (y, taskAt g.begun.2 y) ∈ g.begun.2.entries := by
    intro y hy
    obtain ⟨v, hv⟩ := Dict.mem_iff_get?_isSome.1 hy
    rw [taskAt, hv]
    exact Dict.get?_eq_some_iff.1 hv
  have hkeys : ∀ y, y ∈ g.begun.2 ↔
      y ∈ g.startEndpoints ∨ ∃ t ∈ g.runqSetsceneTids, y ∈ g.depends t := fun y => begins_keys y
  refine ⟨⟨?_, ?_, ?_, ?_⟩, ⟨?_, ?_, ?_, ?_, ?_, ?_⟩, ?_, ?_⟩
  · intro x t ht
    cases Finset.notMem_empty t ht
  · intro t x hx
    cases Finset.notMem_empty x hx
  · intro e he t ht
    rw [hat e he, mem_begun_snd] at ht
    exact ⟨ht.1, .single ht.2⟩
  · intro y v hv
    simp [start] at hv
  · intro t x ht hx
    have hin : t ∈ taskAt g.begun.2 x := mem_begun_snd.2 ⟨ht, hx⟩
    have hmem : x ∈ g.begun.2 := (hkeys x).2 (.inr ⟨t, not_not.1 ht, hx⟩)
    exact .inr (.inr ⟨_, hentry x hmem, rfl, hin⟩)
  · intro t x y hx
    cases Finset.notMem_empty x hx
  · intro y _ hne
    exact absurd rfl hne
  · intro y v hv
    simp [start] at hv
  · intro r y hr
    exact mem_begun_fst.1 hr
  · intro x hx hnone
    by_cases htid : x ∈ g.tids
    · refine .inl (.inl ⟨_, hentry x ((hkeys x).2 ?_), rfl⟩)
      by_cases hrev : g.revdeps x = ∅
      · exact .inl (mem_startEndpoints.2 ⟨htid, hrev, hx⟩)
      · obtain ⟨r, hr⟩ := Finset.nonempty_iff_ne_empty.2 hrev
        rw [g.mem_revdeps] at hr
        -- only setscene tasks lead to `x`
        have hr' : r ∈ g.runqSetsceneTids := by
          by_contra hreal
          have hin : r ∈ g.start.sqRevdeps x := mem_begun_fst.2 ⟨hreal, hr⟩
          rw [hnone] at hin
          cases Finset.notMem_empty r hin
        exact .inr ⟨r, hr', hr⟩
    · refine .inr fun y hy => htid ?_
      exact (g.mem_tids_of_depends x y (mem_begun_fst.1 hy).2).1
  · intro e he
    have hmem : e.1 ∈ g.tids := by
      rcases (hkeys e.1).1 (Dict.mem_keys_of_mem_entries he) with h | ⟨t, -, ht⟩
      · exact (mem_startEndpoints.1 h).1
      · exact (g.mem_tids_of_depends t e.1 ht).2
    have hlt := g.dag.rank_lt_card (List.mem_toFinset.2 hmem)
    have hcard : g.tids.toFinset.card = g.tids.length := List.toFinset_card_of_nodup g.nodup
    omega
  · intro y hy
    simp [start, Dict.mem_iff_mem_keys] at hy

/-! ### The end of the collapse -/

section Collapsed
variable {s : Collapse α}

omit [LinearOrder α] in
theorem not_pending (hnew : s.newendpoints.entries = []) (y : α) : ¬ Pending s [] y := by
  rintro (⟨e, he, -⟩ | hy)
  · cases he
  · rw [Dict.mem_iff_mem_keys, Dict.keys, hnew] at hy
    cases hy

variable (hc : g.Complete s []) (hnew : s.newendpoints.entries = [])
include hc hnew

/-- No task waits any more: the first that did would wait for one that does not. -/
theorem sqRevdeps_collapsed : ∀ y, s.sqRevdeps y = ∅ := by
  refine g.dag.induction fun y ih => Finset.eq_empty_iff_forall_notMem.2 fun r hr => ?_
  obtain ⟨hreal, hd⟩ := hc.revdeps_real r y hr
  have hout := (hc.revdeps_pending r hreal (ih r hd)).resolve_left (not_pending hnew r)
  exact hout y hr

theorem squash_collapsed {y : α} (hy : g.Real y) : s.sqRevdepsSquash y = ∅ := by
  by_contra hne
  rcases hc.squash_pending y hy hne with h | h
  · exact not_pending hnew y h
  · exact h (sqRevdeps_collapsed hc hnew y)

theorem holds_of_feeds {t x : α} (ht : ¬ g.Real t) (h : g.Feeds t x) : Holds g s [] t x := by
  refine h.closed (fun x hx => hc.first t x ht hx) fun x y hx hreal hy => ?_
  rcases hx with ⟨-, hx⟩ | hx | ⟨e, he, -⟩
  · exact hc.next t x y hx hy
  · rw [squash_collapsed hc hnew hreal] at hx
    cases Finset.notMem_empty t hx
  · cases he

theorem mem_squash_collapsed (hs : g.Sound s []) {t x : α} (hx : ¬ g.Real x) :
    t ∈ s.sqRevdepsSquash x ↔ ¬ g.Real t ∧ g.Feeds t x := by
  refine ⟨hs.squash x t, fun ⟨ht, h⟩ => ?_⟩
  rcases holds_of_feeds hc hnew ht h with ⟨hreal, -⟩ | h | ⟨e, he, -⟩
  · exact absurd hreal hx
  · exact h
  · cases he

theorem mem_collated_collapsed (hs : g.Sound s []) {t x : α} (ht : ¬ g.Real t) :
    x ∈ s.sqCollatedDeps t ↔ g.Real x ∧ g.Feeds t x := by
  refine ⟨fun h => (hs.collated t x h).2, fun ⟨hx, h⟩ => ?_⟩
  rcases holds_of_feeds hc hnew ht h with ⟨-, h⟩ | h | ⟨e, he, -⟩
  · exact h
  · rw [squash_collapsed hc hnew hx] at h
    cases Finset.notMem_empty t h
  · cases he

end Collapsed

/-! ### What the loop over the unskippable tasks finds -/

/-- The tasks that nothing depends on, and the targets that are no setscene tasks. -/
def Starting (g : TaskGraph α) (a : α) : Prop := (a ∈ g.tids ∧ g.revdeps a = ∅) ∨ a ∈ g.cantskip

/-- `x` is reached from `a` over real tasks, `a` among them unless it is `x`. -/
def Leads (g : TaskGraph α) (a x : α) : Prop :=
  Relation.ReflTransGen (fun a b => g.Real a ∧ b ∈ g.depends a) a x

section Skipping
variable {orig : Finset α} {l : List α} {s : Skips α}

theorem mem_skipTasks (x : α) : x ∈ (l.foldl (g.skipTask orig) s).unskippable ↔
    x ∈ s.unskippable ∨ ∃ t ∈ l, g.Real t ∧ x ∈ g.depends t := by
  induction l generalizing s with
  | nil => simp
  | cons t l ih =>
    rw [List.foldl_cons, ih, skipTask]
    by_cases ht : t ∈ g.runqSetsceneTids <;> simp [TaskGraph.Real, ht, or_assoc]

theorem mem_buildable_skipTasks (x : α) : x ∈ (l.foldl (g.skipTask orig) s).buildable ↔
    x ∈ s.buildable ∨ x ∈ l ∧ g.Real x ∧ g.depends x = [] := by
  induction l generalizing s with
  | nil => simp
  | cons t l ih =>
    rw [List.foldl_cons, ih, skipTask, List.mem_cons]
    by_cases hx : x = t
    · subst hx
      by_cases ht : x ∈ g.runqSetsceneTids
      · simp [TaskGraph.Real, ht]
      · by_cases hd : g.depends x = [] <;> simp [TaskGraph.Real, ht, hd]
    · by_cases ht : t ∈ g.runqSetsceneTids
      · simp [TaskGraph.Real, ht, hx]
      · by_cases hd : g.depends t = [] <;> simp [TaskGraph.Real, ht, hd, hx]

/-- `new` says that something was added. -/
theorem new_skipTasks (hsub : orig ⊆ s.unskippable) (hnew : s.new = true ↔ s.unskippable ≠ orig) :
    (l.foldl (g.skipTask orig) s).new = true ↔
      (l.foldl (g.skipTask orig) s).unskippable ≠ orig := by
  induction l generalizing s with
  | nil => exact hnew
  | cons t l ih =>
    rw [List.foldl_cons]
    by_cases ht : g.Real t
    · refine ih ?_ ?_
      · rw [skipTask, if_pos ht]
        exact hsub.trans Finset.subset_union_left
      · rw [skipTask, if_pos ht]
        simp only [Bool.or_eq_true, decide_eq_true_eq, hnew]
        refine ⟨fun h => h.elim (fun h heq => h ?_) id, .inr⟩
        exact (Finset.subset_union_left.trans heq.subset).antisymm hsub
    · rw [skipTask, if_neg ht]
      exact ih hsub hnew

theorem mem_skipRound (x : α) : x ∈ (g.skipRound s).unskippable ↔
    x ∈ s.unskippable ∨ ∃ t ∈ s.unskippable, g.Real t ∧ x ∈ g.depends t := by
  rw [skipRound, mem_skipTasks]
  simp

theorem mem_buildable_skipRound (x : α) : x ∈ (g.skipRound s).buildable ↔
    x ∈ s.buildable ∨ x ∈ s.unskippable ∧ g.Real x ∧ g.depends x = [] := by
  rw [skipRound, mem_buildable_skipTasks]
  simp

theorem new_skipRound : (g.skipRound s).new = true ↔ (g.skipRound s).unskippable ≠ s.unskippable :=
  new_skipTasks (Finset.Subset.refl _) (by simp)

/-- The tasks found are reached from the start, and those made buildable have no dependencies. -/
structure Skipping (g : TaskGraph α) (s : Skips α) : Prop where
  subset_tids : s.unskippable ⊆ g.tids.toFinset
  start_mem : ∀ a, g.Starting a → a ∈ s.unskippable
  leads : ∀ x ∈ s.unskippable, ∃ a, g.Starting a ∧ g.Leads a x
  buildable : ∀ x ∈ s.buildable, x ∈ s.unskippable ∧ g.Real x ∧ g.depends x = []

theorem Skipping.round (h : g.Skipping s) : g.Skipping (g.skipRound s) where
  subset_tids := by
    intro x hx
    rcases (mem_skipRound x).1 hx with hx | ⟨t, -, -, hd⟩
    · exact h.subset_tids hx
    · exact List.mem_toFinset.2 (g.mem_tids_of_depends t x hd).2
  start_mem a ha := (mem_skipRound a).2 (.inl (h.start_mem a ha))
  leads x hx := by
    rcases (mem_skipRound x).1 hx with hx | ⟨t, ht, hreal, hd⟩
    · exact h.leads x hx
    · obtain ⟨a, ha, hat⟩ := h.leads t ht
      exact ⟨a, ha, hat.tail ⟨hreal, hd⟩⟩
  buildable x hx := by
    rcases (mem_buildable_skipRound x).1 hx with hx | ⟨hx, hreal⟩
    · obtain ⟨hx, hreal⟩ := h.buildable x hx
      exact ⟨(mem_skipRound x).2 (.inl hx), hreal⟩
    · exact ⟨(mem_skipRound x).2 (.inl hx), hreal⟩

theorem Skipping.start (g : TaskGraph α) : g.Skipping g.startSkips where
  subset_tids := by
    intro x hx
    simp only [startSkips, cantskip, Finset.mem_union, List.mem_toFinset, List.mem_filter,
      Finset.mem_filter] at hx
    rw [List.mem_toFinset]
    rcases hx with hx | hx
    · exact hx.1
    · exact hx.2
  start_mem a ha := by
    rcases ha with ha | ha
    · simp [startSkips, ha]
    · simp [startSkips, ha]
  leads x hx := by
    refine ⟨x, ?_, .refl⟩
    rcases Finset.mem_union.1 hx with hx | hx
    · exact .inl (by simpa using hx)
    · exact .inr hx
  buildable x hx := by cases Finset.notMem_empty x hx

/-- With a round for each task, the loop comes to an end, at a set that the last round left as it
was. -/
theorem skipLoop_eq {n : Nat} (h : g.Skipping s) (hn : (g.tids.toFinset \ s.unskippable).card < n) :
    ∃ s', g.Skipping s' ∧ (g.skipRound s').unskippable = s'.unskippable ∧
      g.skipLoop n s = some (g.skipRound s') := by
  induction n generalizing s with
  | zero => omega
  | succ n ih =>
    rw [skipLoop]
    split
    · rename_i hnew
      rw [new_skipRound] at hnew
      refine ih h.round ?_
      have hsub : s.unskippable ⊆ (g.skipRound s).unskippable :=
        fun x hx => (mem_skipRound x).2 (.inl hx)
      obtain ⟨x, hx, hout⟩ := Finset.exists_of_ssubset (hsub.ssubset_of_ne (Ne.symm hnew))
      have hlt : (g.tids.toFinset \ (g.skipRound s).unskippable).card <
          (g.tids.toFinset \ s.unskippable).card := by
        refine Finset.card_lt_card ⟨Finset.sdiff_subset_sdiff (Finset.Subset.refl _) hsub, ?_⟩
        intro hback
        have hin := hback (Finset.mem_sdiff.2 ⟨h.round.subset_tids hx, hout⟩)
        exact (Finset.mem_sdiff.1 hin).2 hx
      omega
    · rename_i hnew
      rw [new_skipRound, not_not] at hnew
      exact ⟨s, h, hnew, rfl⟩

/-- What is left as it was by a round holds all that it leads to. -/
theorem Skipping.mem_of_leads (h : g.Skipping s) (heq : (g.skipRound s).unskippable = s.unskippable)
    {a x : α} (ha : g.Starting a) (hx : g.Leads a x) : x ∈ s.unskippable := by
  induction hx with
  | refl => exact h.start_mem a ha
  | tail _ hstep ih =>
    rw [← heq]
    exact (mem_skipRound _).2 (.inr ⟨_, ih, hstep⟩)

end Skipping

theorem mem_sqDeps {sqRevdeps : α → Finset α} {t s : α} :
    t ∈ g.sqDeps sqRevdeps s ↔ ¬ g.Real t ∧ s ∈ sqRevdeps t := by
  have hfold : ∀ (l : List α) (deps : α → Finset α), t ∈ l.foldl (fun deps tid dep =>
      if dep ∈ sqRevdeps tid then insert tid (deps dep) else deps dep) deps s ↔
        t ∈ deps s ∨ t ∈ l ∧ s ∈ sqRevdeps t := by
    intro l
    induction l with
    | nil => simp
    | cons a l ih =>
      intro deps
      rw [List.foldl_cons, ih]
      by_cases ha : s ∈ sqRevdeps a
      · by_cases ht : t = a
        · subst ht
          simp [ha]
        · simp [ha, ht]
      · by_cases ht : t = a
        · subst ht
          simp [ha]
        · simp [ha, ht]
  rw [sqDeps, hfold]
  simp

/-- As many rounds as there are tasks, and one more, are enough for the recursion and for the loop. -/
theorem buildScenequeueData_eq (g : TaskGraph α) : ∃ s skips, g.Sound s [] ∧ g.Complete s [] ∧
    s.newendpoints.entries = [] ∧ g.Skipping skips ∧
    (g.skipRound skips).unskippable = skips.unskippable ∧
    g.buildScenequeueData (g.tids.length + 1) = .ok {
      sqRevdeps := s.sqRevdepsSquash
      sqDeps := g.sqDeps s.sqRevdepsSquash
      sqCoveredTasks := s.sqCollatedDeps
      cantskip := g.cantskip
      unskippable := skips.unskippable
      tasksScenequeueDone := skips.unskippable.filter g.Real
      runqBuildable := (g.skipRound skips).buildable
      sqBuildable := (g.runqSetsceneTids.filter fun tid => s.sqRevdepsSquash tid = ∅).toFinset } := by
  obtain ⟨s, heq, hnew, hr⟩ := processEndpoints_eq (s := g.start) (round_start g)
  have hcard : (g.tids.toFinset \ g.startSkips.unskippable).card < g.tids.length + 1 := by
    have hle : (g.tids.toFinset \ g.startSkips.unskippable).card ≤ g.tids.toFinset.card :=
      Finset.card_le_card Finset.sdiff_subset
    have := List.toFinset_card_le g.tids
    omega
  obtain ⟨skips, hskips, hsame, hloop⟩ := skipLoop_eq (.start g) hcard
  refine ⟨s, skips, hr.sound, hr.complete, hnew, hskips, hsame, ?_⟩
  have hcollapse : g.collapse (g.tids.length + 1) = some s := heq
  have hright : ¬ ∃ tid ∈ g.tids, g.Real tid ∧ s.sqRevdepsSquash tid ≠ ∅ := by
    rintro ⟨tid, -, hreal, hne⟩
    exact hne (squash_collapsed hr.complete hnew hreal)
  rw [buildScenequeueData, hcollapse, hloop]
  simp only [if_neg hright, hsame]

/-- The scene queue is the collapse of the task graph. -/
theorem buildScenequeueData_exact (g : TaskGraph α) :
    ∃ d, g.buildScenequeueData (g.tids.length + 1) = .ok d ∧
      (∀ s t, t ∈ d.sqRevdeps s ↔ ¬ g.Real s ∧ ¬ g.Real t ∧ g.Feeds t s) ∧
      (∀ s x, x ∈ d.sqCoveredTasks s ↔ ¬ g.Real s ∧ g.Real x ∧ g.Feeds s x) ∧
      (∀ s t, t ∈ d.sqDeps s ↔ s ∈ d.sqRevdeps t) ∧
      ∀ x, x ∈ d.unskippable ↔ ∃ a, g.Starting a ∧ g.Leads a x := by
  obtain ⟨s, skips, hs, hc, hnew, hskips, hsame, heq⟩ := buildScenequeueData_eq g
  have hrevdeps : ∀ x t, t ∈ s.sqRevdepsSquash x ↔ ¬ g.Real x ∧ ¬ g.Real t ∧ g.Feeds t x := by
    intro x t
    by_cases hx : g.Real x
    · simp [hx, squash_collapsed hc hnew hx]
    · rw [mem_squash_collapsed hc hnew hs hx]
      exact (and_iff_right hx).symm
  refine ⟨_, heq, hrevdeps, ?_, ?_, ?_⟩
  · intro t x
    by_cases ht : g.Real t
    · refine iff_of_false (fun h => ?_) fun h => h.1 ht
      exact (hs.collated t x h).1 ht
    · rw [mem_collated_collapsed hc hnew hs ht]
      exact (and_iff_right ht).symm
  · intro x t
    rw [mem_sqDeps]
    exact and_iff_right_of_imp fun h => ((hrevdeps t x).1 h).1
  · intro x
    refine ⟨hskips.leads x, fun ⟨a, ha, hx⟩ => ?_⟩
    exact hskips.mem_of_leads hsame ha hx

/-- The real tasks that are buildable from the start are the unskippable ones without dependencies. -/
theorem runqBuildable_exact (g : TaskGraph α) {d : SceneQueueData α}
    (hd : g.buildScenequeueData (g.tids.length + 1) = .ok d) (x : α) :
    x ∈ d.runqBuildable ↔ x ∈ d.unskippable ∧ g.Real x ∧ g.depends x = [] := by
  obtain ⟨s, skips, -, -, -, hskips, -, heq⟩ := buildScenequeueData_eq g
  obtain rfl := Except.ok.inj (heq.symm.trans hd)
  rw [mem_buildable_skipRound]
  exact or_iff_right_of_imp (hskips.buildable x)

namespace Sample

/-- A setscene task that nothing depends on, and a task it depends on. -/
def setsceneRoot : TaskGraph (Fin 2) where
  tids := [0, 1]
  depends a := if a = 0 then [1] else []
  revdeps b := if b = 1 then {0} else ∅
  runqSetsceneTids := [0]
  targetTids := {0}
  nodup := by decide
  mem_tids_of_depends := by decide
  mem_revdeps := by decide
  setscene_subset := by decide
  acyclic a h := by
    have hlt : ∀ a b : Fin 2, b ∈ (if a = 0 then [1] else []) → a < b := by decide
    have hpath : ∀ b, Relation.TransGen (fun a b => b ∈ if a = 0 then [1] else []) a b → a < b := by
      intro b hb
      induction hb with
      | single h => exact hlt _ _ h
      | tail _ h ih => exact ih.trans (hlt _ _ h)
    exact lt_irrefl a (hpath a h)

end Sample

/-- The chain from a setscene task that nothing depends on has no inner node, and its end can be
skipped. -/
theorem unskippable_not_all_chains : ∃ d, Sample.setsceneRoot.buildScenequeueData 3 = .ok d ∧
    ¬ ∀ x, x ∈ d.unskippable ↔ ∃ a, Sample.setsceneRoot.Starting a ∧
      (a = x ∨ Sample.setsceneRoot.Feeds a x) := by
  obtain ⟨s, skips, -, -, -, hskips, -, heq⟩ := buildScenequeueData_eq Sample.setsceneRoot
  refine ⟨_, heq, fun h => ?_⟩
  have hedge : (1 : Fin 2) ∈ Sample.setsceneRoot.depends 0 := List.mem_cons_self
  have hin : (1 : Fin 2) ∈ skips.unskippable := (h 1).2 ⟨0, .inl (by decide), .inr (.single hedge)⟩
  obtain ⟨a, ha, hleads⟩ := hskips.leads 1 hin
  rcases hleads.cases_tail with rfl | ⟨b, -, hreal, hd⟩
  · have hnot : ¬ ((1 : Fin 2) ∈ Sample.setsceneRoot.tids ∧ Sample.setsceneRoot.revdeps 1 = ∅ ∨
        (1 : Fin 2) ∈ Sample.setsceneRoot.cantskip) := by decide
    exact hnot ha
  · have hb : ∀ b, Sample.setsceneRoot.Real b → (1 : Fin 2) ∉ Sample.setsceneRoot.depends b := by
      decide
    exact hb b hreal hd


end TaskGraph
end BitBake
end OpenBmc
