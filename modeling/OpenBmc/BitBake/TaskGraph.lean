import OpenBmc.BitBake.TaskLines

/-!
# The graph of tasks

`addtask` and `deltask` keep `__BBTASKS` and the `deps` flags, and `tasksbetween` follows the flags
from one task to another. `Added` and `Deleted` say what a line does to them. `deltask` visits only
the tasks of `__BBTASKS`: a task that is named but not yet added keeps a deleted one as its
dependency.
-/

namespace OpenBmc
namespace BitBake
namespace TaskLines
open Py

/-! ### `bb.build` -/

/-- What the datastore holds of the tasks: `__BBTASKS`, and the `task` and `deps` flags. -/
structure Tasks where
  bbtasks : List Str
  task : Str → Bool
  deps : Str → Option (List Str)

namespace Tasks

def empty : Tasks where
  bbtasks := []
  task := fun _ => false
  deps := fun _ => none

/-- `d.getVarFlag(task, "deps", False) or []`. -/
def existing (d : Tasks) (task : Str) : List Str := (d.deps task).getD []

def setDeps (d : Tasks) (task : Str) (deps : Option (List Str)) : Tasks :=
  { d with deps := Function.update d.deps task deps }

def setTask (d : Tasks) (task : Str) (flag : Bool) (bbtasks : List Str) : Tasks :=
  { d with task := Function.update d.task task flag, bbtasks := bbtasks }

end Tasks

def ensureTaskPrefix (name : Str) : Str :=
  if name.take 3 ≠ "do_".toList then "do_".toList ++ name else name

/-- The loop over `after.split()`. -/
def appendEntry (existing : List Str) (entry : Str) : List Str :=
  let entry := ensureTaskPrefix entry
  if entry ∈ existing then existing else existing ++ [entry]

/-- The loop over `before.split()`. -/
def prependTask (task : Str) (d : Tasks) (entry : Str) : Tasks :=
  let entry := ensureTaskPrefix entry
  let existing := d.existing entry
  if task ∈ existing then d else d.setDeps entry (some (task :: existing))

def addtask (task : Str) (before after : Option Str) (d : Tasks) : Tasks :=
  let task := ensureTaskPrefix task
  let d := d.setTask task true (if task ∈ d.bbtasks then d.bbtasks else d.bbtasks ++ [task])
  let existing := (after.elim [] words).foldl appendEntry (d.existing task)
  let d := d.setDeps task (some existing)
  (before.elim [] words).foldl (prependTask task) d

/-- The loop over `__BBTASKS`. -/
def removeDep (task : Str) (d : Tasks) (bbtask : Str) : Tasks :=
  let deps := d.existing bbtask
  if task ∈ deps then d.setDeps bbtask (some (deps.erase task)) else d

def deltask (task : Str) (d : Tasks) : Tasks :=
  let task := ensureTaskPrefix task
  let d := if task ∈ d.bbtasks then d.setTask task false (d.bbtasks.erase task) else d
  let d := d.setDeps task none
  d.bbtasks.foldl (removeDep task) d

/-- `AddTaskNode.eval` and `DelTaskNode.eval`; `expand` is `data.expand`. -/
def Statement.eval (expand : Tasks → Str → Str) (d : Tasks) : Statement → Tasks
  | .addTask tasks before after =>
    (words tasks).foldl (fun d task => addtask task (some before) (some after) d) d
  | .delTask tasks => (words (expand d tasks)).foldl (fun d task => deltask task d) d

/-- The lines fed, and the statements evaluated in order. -/
def evalLines (expand : Tasks → Str → Str) (fn : Str) (lines : List Str) :
    Except ParseError Tasks := do
  let statements ← lines.foldlM (feeder fn) []
  return statements.foldl (Statement.eval expand) Tasks.empty

inductive Failure
  | circular (task : Str) (chain : List Str)
  | typeError
  | recursion
deriving DecidableEq

/-- `if ctask not in outtasks: outtasks.append(ctask)`. -/
def appendNew (outtasks : List Str) (ctask : Str) : List Str :=
  if ctask ∈ outtasks then outtasks else outtasks ++ [ctask]

/-- `follow_chain`: the tasks of `outtasks` afterwards. -/
def followChain (d : Tasks) (tasks : List Str) (endtask : Str) :
    ℕ → Str → List Str → List Str → Except Failure (List Str)
  | 0, _, _, _ => throw .recursion
  | fuel + 1, task, chain, outtasks =>
    if task ∈ chain then throw (.circular task chain)
    else
      let chain := chain ++ [task]
      tasks.foldlM (fun outtasks othertask =>
        if othertask = task then pure outtasks
        else if task = endtask then pure (chain.foldl appendNew outtasks)
        else
          match d.deps othertask with
          | none => throw .typeError
          | some deps =>
            if task ∈ deps then followChain d tasks endtask fuel othertask chain outtasks
            else pure outtasks) outtasks

/-- `keys` is `d.keys()`. -/
def tasksbetween (d : Tasks) (keys : List Str) (taskStart taskEnd : Str) :
    Except Failure (List Str) :=
  let tasks := keys.filter d.task
  followChain d tasks taskEnd (tasks.length + 1) taskStart [] []

/-! ### What the functions leave -/

namespace Tasks

/-- Each flag follows `__BBTASKS`, and no dependency is listed twice. -/
structure WellFormed (d : Tasks) : Prop where
  nodup_bbtasks : d.bbtasks.Nodup
  task_iff : ∀ t, d.task t = true ↔ t ∈ d.bbtasks
  nodup_deps : ∀ t, (d.existing t).Nodup
  deps_isSome : ∀ t ∈ d.bbtasks, (d.deps t).isSome

theorem wellFormed_empty : WellFormed empty where
  nodup_bbtasks := List.nodup_nil
  task_iff := fun t => by simp [empty]
  nodup_deps := fun t => List.nodup_nil
  deps_isSome := fun t ht => absurd ht List.not_mem_nil

@[simp] theorem setDeps_bbtasks (d : Tasks) (t : Str) (deps : Option (List Str)) :
    (d.setDeps t deps).bbtasks = d.bbtasks := rfl

@[simp] theorem setDeps_task (d : Tasks) (t : Str) (deps : Option (List Str)) :
    (d.setDeps t deps).task = d.task := rfl

theorem existing_setDeps (d : Tasks) (t u : Str) (deps : Option (List Str)) :
    (d.setDeps t deps).existing u = if u = t then deps.getD [] else d.existing u := by
  show (Function.update d.deps t deps u).getD [] = _
  rw [Function.update_apply]
  split <;> rfl

theorem isSome_setDeps (d : Tasks) (t u : Str) (deps : Option (List Str)) :
    ((d.setDeps t deps).deps u).isSome = if u = t then deps.isSome else (d.deps u).isSome := by
  show (Function.update d.deps t deps u).isSome = _
  rw [Function.update_apply]
  split <;> rfl

@[simp] theorem setTask_bbtasks (d : Tasks) (t : Str) (flag : Bool) (bbtasks : List Str) :
    (d.setTask t flag bbtasks).bbtasks = bbtasks := rfl

@[simp] theorem setTask_deps (d : Tasks) (t : Str) (flag : Bool) (bbtasks : List Str) :
    (d.setTask t flag bbtasks).deps = d.deps := rfl

@[simp] theorem existing_setTask (d : Tasks) (t u : Str) (flag : Bool) (bbtasks : List Str) :
    (d.setTask t flag bbtasks).existing u = d.existing u := rfl

theorem task_setTask (d : Tasks) (t u : Str) (flag : Bool) (bbtasks : List Str) :
    (d.setTask t flag bbtasks).task u = if u = t then flag else d.task u :=
  Function.update_apply ..

end Tasks

theorem mem_foldl_appendEntry {x : Str} {l existing : List Str} :
    x ∈ l.foldl appendEntry existing ↔ x ∈ existing ∨ x ∈ l.map ensureTaskPrefix := by
  induction l generalizing existing with
  | nil => simp
  | cons entry l ih =>
    rw [List.foldl_cons, ih, appendEntry, List.map_cons, List.mem_cons]
    split
    · rename_i hmem
      constructor
      · rintro (h | h)
        · exact .inl h
        · exact .inr (.inr h)
      · rintro (h | rfl | h)
        · exact .inl h
        · exact .inl hmem
        · exact .inr h
    · rw [List.mem_append, List.mem_singleton, or_assoc]

theorem nodup_foldl_appendEntry {l existing : List Str} (h : existing.Nodup) :
    (l.foldl appendEntry existing).Nodup := by
  induction l generalizing existing with
  | nil => exact h
  | cons entry l ih =>
    rw [List.foldl_cons]
    refine ih ?_
    rw [appendEntry]
    split
    · exact h
    · rename_i hmem
      exact List.nodup_append.2 ⟨h, List.nodup_singleton _, fun a ha b hb hab =>
        hmem (by rw [← List.mem_singleton.1 hb, ← hab]; exact ha)⟩

theorem mem_prefixed_cons {t entry : Str} (l : List Str) : t ∈ (entry :: l).map ensureTaskPrefix ↔
    t ∈ [entry].map ensureTaskPrefix ∨ t ∈ l.map ensureTaskPrefix := by
  rw [List.map_cons, List.mem_cons, List.map_singleton, List.mem_singleton]

/-- What is recorded for the tasks of `before.split()`: `task`, in the dependencies of each. -/
structure Prepended (task : Str) (l : List Str) (d d' : Tasks) : Prop where
  bbtasks : d'.bbtasks = d.bbtasks
  flag : d'.task = d.task
  existing : ∀ t x, x ∈ d'.existing t ↔
    x ∈ d.existing t ∨ x = task ∧ t ∈ l.map ensureTaskPrefix
  nodup : (∀ t, (d.existing t).Nodup) → ∀ t, (d'.existing t).Nodup
  isSome : ∀ t, (d.deps t).isSome → (d'.deps t).isSome

theorem prependTask_prepended (task : Str) (d : Tasks) (entry : Str) :
    Prepended task [entry] d (prependTask task d entry) := by
  rw [prependTask]
  split
  · rename_i hmem
    refine ⟨rfl, rfl, fun t x => ⟨.inl, ?_⟩, fun h => h, fun t h => h⟩
    rintro (h | ⟨rfl, h⟩)
    · exact h
    · rw [List.map_singleton, List.mem_singleton] at h
      rw [h]
      exact hmem
  · rename_i hmem
    refine ⟨rfl, rfl, fun t x => ?_, fun h t => ?_, fun t h => ?_⟩
    · rw [Tasks.existing_setDeps, List.map_singleton, List.mem_singleton]
      by_cases ht : t = ensureTaskPrefix entry
      · rw [if_pos ht, ht, Option.getD_some, List.mem_cons]
        simp [or_comm]
      · rw [if_neg ht]
        simp [ht]
    · rw [Tasks.existing_setDeps]
      split
      · exact List.nodup_cons.2 ⟨hmem, h _⟩
      · exact h t
    · rw [Tasks.isSome_setDeps]
      split
      · rfl
      · exact h

theorem foldl_prependTask (task : Str) (l : List Str) (d : Tasks) :
    Prepended task l d (l.foldl (prependTask task) d) := by
  induction l generalizing d with
  | nil => exact ⟨rfl, rfl, by simp, fun h => h, fun t h => h⟩
  | cons entry l ih =>
    have h := prependTask_prepended task d entry
    have h' := ih (prependTask task d entry)
    rw [List.foldl_cons]
    refine ⟨h'.bbtasks.trans h.bbtasks, h'.flag.trans h.flag, fun t x => ?_,
      fun hn => h'.nodup (h.nodup hn), fun t ht => h'.isSome t (h.isSome t ht)⟩
    rw [h'.existing, h.existing, mem_prefixed_cons l, or_assoc, ← and_or_left]

/-- What an `addtask` line does to the tasks, for the names it has been cut into. -/
structure Added (tasks before after : List Str) (d d' : Tasks) : Prop where
  bbtasks : ∀ t, t ∈ d'.bbtasks ↔ t ∈ d.bbtasks ∨ t ∈ tasks.map ensureTaskPrefix
  existing : ∀ t x, x ∈ d'.existing t ↔ x ∈ d.existing t ∨
    t ∈ tasks.map ensureTaskPrefix ∧ x ∈ after.map ensureTaskPrefix ∨
    x ∈ tasks.map ensureTaskPrefix ∧ t ∈ before.map ensureTaskPrefix
  wellFormed : d.WellFormed → d'.WellFormed

/-- `addtask` up to the loop over `before.split()`. -/
def startTask (task : Str) (after : List Str) (d : Tasks) : Tasks :=
  (d.setTask task true (if task ∈ d.bbtasks then d.bbtasks else d.bbtasks ++ [task])).setDeps task
    (some (after.foldl appendEntry (d.existing task)))

theorem addtask_eq (task before after : Str) (d : Tasks) :
    addtask task (some before) (some after) d = (words before).foldl
      (prependTask (ensureTaskPrefix task)) (startTask (ensureTaskPrefix task) (words after) d) := rfl

theorem mem_startTask_bbtasks {task t : Str} {after : List Str} {d : Tasks} :
    t ∈ (startTask task after d).bbtasks ↔ t ∈ d.bbtasks ∨ t = task := by
  show t ∈ (if task ∈ d.bbtasks then d.bbtasks else d.bbtasks ++ [task]) ↔ _
  split
  · rename_i hmem
    constructor
    · exact .inl
    · rintro (h | rfl)
      · exact h
      · exact hmem
  · rw [List.mem_append, List.mem_singleton]

theorem mem_existing_startTask {task t x : Str} {after : List Str} {d : Tasks} :
    x ∈ (startTask task after d).existing t ↔
      x ∈ d.existing t ∨ t = task ∧ x ∈ after.map ensureTaskPrefix := by
  rw [startTask, Tasks.existing_setDeps]
  by_cases ht : t = task
  · rw [if_pos ht, ht, Option.getD_some, mem_foldl_appendEntry]
    simp
  · rw [if_neg ht, Tasks.existing_setTask]
    simp [ht]

theorem nodup_append_singleton {l : List Str} {a : Str} (h : l.Nodup) (ha : a ∉ l) :
    (l ++ [a]).Nodup := by
  rw [← List.concat_eq_append]
  exact h.concat ha

theorem wellFormed_startTask {task : Str} {after : List Str} {d : Tasks} (hd : d.WellFormed) :
    (startTask task after d).WellFormed where
  nodup_bbtasks := by
    show List.Nodup (if task ∈ d.bbtasks then d.bbtasks else d.bbtasks ++ [task])
    split
    · exact hd.nodup_bbtasks
    · exact nodup_append_singleton hd.nodup_bbtasks ‹_›
  task_iff t := by
    rw [mem_startTask_bbtasks, ← hd.task_iff, startTask, Tasks.setDeps_task, Tasks.task_setTask]
    split
    · simp [*]
    · simp [*]
  nodup_deps t := by
    rw [startTask, Tasks.existing_setDeps]
    split
    · exact nodup_foldl_appendEntry (hd.nodup_deps _)
    · exact hd.nodup_deps t
  deps_isSome t ht := by
    rw [startTask, Tasks.isSome_setDeps]
    split
    · rfl
    · exact hd.deps_isSome t ((mem_startTask_bbtasks.1 ht).resolve_right ‹_›)

theorem Prepended.wellFormed {task : Str} {l : List Str} {d d' : Tasks} (h : Prepended task l d d')
    (hd : d.WellFormed) : d'.WellFormed where
  nodup_bbtasks := by rw [h.bbtasks]; exact hd.nodup_bbtasks
  task_iff t := by rw [h.flag, h.bbtasks]; exact hd.task_iff t
  nodup_deps := h.nodup hd.nodup_deps
  deps_isSome t ht := h.isSome t (hd.deps_isSome t (by rwa [h.bbtasks] at ht))

theorem addtask_added (task before after : Str) (d : Tasks) :
    Added [task] (words before) (words after) d (addtask task (some before) (some after) d) := by
  have h := foldl_prependTask (ensureTaskPrefix task) (words before)
    (startTask (ensureTaskPrefix task) (words after) d)
  rw [addtask_eq]
  refine ⟨fun t => ?_, fun t x => ?_, fun hd => h.wellFormed (wellFormed_startTask hd)⟩
  · rw [h.bbtasks, mem_startTask_bbtasks, List.map_singleton, List.mem_singleton]
  · rw [h.existing, mem_existing_startTask, List.map_singleton, List.mem_singleton,
      List.mem_singleton, or_assoc]

theorem foldl_addtask (tasks : List Str) (before after : Str) (d : Tasks) :
    Added tasks (words before) (words after) d
      (tasks.foldl (fun d task => addtask task (some before) (some after) d) d) := by
  induction tasks generalizing d with
  | nil => exact ⟨by simp, by simp, fun h => h⟩
  | cons task tasks ih =>
    have h := addtask_added task before after d
    have h' := ih (addtask task (some before) (some after) d)
    rw [List.foldl_cons]
    refine ⟨fun t => ?_, fun t x => ?_, fun hd => h'.wellFormed (h.wellFormed hd)⟩
    · rw [h'.bbtasks, h.bbtasks, mem_prefixed_cons tasks, or_assoc]
    · rw [h'.existing, h.existing, mem_prefixed_cons tasks, mem_prefixed_cons tasks, or_and_right, or_and_right]
      constructor
      · rintro ((h | h | h) | h | h)
        · exact .inl h
        · exact .inr (.inl (.inl h))
        · exact .inr (.inr (.inl h))
        · exact .inr (.inl (.inr h))
        · exact .inr (.inr (.inr h))
      · rintro (h | (h | h) | h | h)
        · exact .inl (.inl h)
        · exact .inl (.inr (.inl h))
        · exact .inr (.inl h)
        · exact .inl (.inr (.inr h))
        · exact .inr (.inr h)

/-- What the loop of `deltask` over `l` does: `u` is no dependency of these tasks any more. -/
structure Dropped (u : Str) (l : List Str) (d d' : Tasks) : Prop where
  bbtasks : d'.bbtasks = d.bbtasks
  flag : d'.task = d.task
  existing : ∀ t x, x ∈ d'.existing t ↔ x ∈ d.existing t ∧ (t ∈ l → x ≠ u)
  nodup : ∀ t, (d'.existing t).Nodup
  isSome : ∀ t, (d.deps t).isSome → (d'.deps t).isSome

theorem removeDep_dropped (u : Str) {d : Tasks} (hd : ∀ t, (d.existing t).Nodup) (bbtask : Str) :
    Dropped u [bbtask] d (removeDep u d bbtask) := by
  rw [removeDep]
  split
  · refine ⟨rfl, rfl, fun t x => ?_, fun t => ?_, fun t h => ?_⟩
    · rw [Tasks.existing_setDeps, List.mem_singleton]
      by_cases ht : t = bbtask
      · rw [if_pos ht, ht, Option.getD_some, (hd bbtask).mem_erase_iff]
        simp [and_comm]
      · rw [if_neg ht]
        simp [ht]
    · rw [Tasks.existing_setDeps]
      split
      · exact (hd bbtask).erase _
      · exact hd t
    · rw [Tasks.isSome_setDeps]
      split
      · rfl
      · exact h
  · rename_i hmem
    refine ⟨rfl, rfl, fun t x => ⟨fun h => ⟨h, ?_⟩, And.left⟩, hd, fun t h => h⟩
    rintro ht rfl
    rw [List.mem_singleton.1 ht] at h
    exact hmem h

theorem foldl_removeDep (u : Str) (l : List Str) {d : Tasks} (hd : ∀ t, (d.existing t).Nodup) :
    Dropped u l d (l.foldl (removeDep u) d) := by
  induction l generalizing d with
  | nil => exact ⟨rfl, rfl, by simp, hd, fun t h => h⟩
  | cons bbtask l ih =>
    have h := removeDep_dropped u hd bbtask
    have h' := ih h.nodup
    rw [List.foldl_cons]
    refine ⟨h'.bbtasks.trans h.bbtasks, h'.flag.trans h.flag, fun t x => ?_, h'.nodup,
      fun t ht => h'.isSome t (h.isSome t ht)⟩
    simp only [h'.existing, h.existing, List.mem_cons, List.not_mem_nil, or_false, or_imp, and_assoc]

/-- What a `deltask` line does to the tasks. -/
structure Deleted (tasks : List Str) (d d' : Tasks) : Prop where
  bbtasks : ∀ t, t ∈ d'.bbtasks ↔ t ∈ d.bbtasks ∧ t ∉ tasks.map ensureTaskPrefix
  existing : ∀ t x, x ∈ d'.existing t ↔ x ∈ d.existing t ∧ t ∉ tasks.map ensureTaskPrefix ∧
    (t ∈ d.bbtasks → x ∉ tasks.map ensureTaskPrefix)
  wellFormed : d'.WellFormed

/-- `deltask` up to the loop. -/
def dropTask (task : Str) (d : Tasks) : Tasks :=
  (if task ∈ d.bbtasks then d.setTask task false (d.bbtasks.erase task) else d).setDeps task none

theorem deltask_eq (task : Str) (d : Tasks) :
    deltask task d = (dropTask (ensureTaskPrefix task) d).bbtasks.foldl
      (removeDep (ensureTaskPrefix task)) (dropTask (ensureTaskPrefix task) d) := rfl

theorem mem_dropTask_bbtasks {task t : Str} {d : Tasks} (hd : d.WellFormed) :
    t ∈ (dropTask task d).bbtasks ↔ t ∈ d.bbtasks ∧ t ≠ task := by
  rw [dropTask, Tasks.setDeps_bbtasks]
  split
  · rw [Tasks.setTask_bbtasks, hd.nodup_bbtasks.mem_erase_iff, and_comm]
  · rename_i hmem
    refine ⟨fun h => ⟨h, ?_⟩, And.left⟩
    rintro rfl
    exact hmem h

theorem mem_existing_dropTask {task t x : Str} {d : Tasks} :
    x ∈ (dropTask task d).existing t ↔ x ∈ d.existing t ∧ t ≠ task := by
  rw [dropTask, Tasks.existing_setDeps]
  by_cases ht : t = task
  · simp [ht]
  · rw [if_neg ht]
    split <;> simp [ht]

theorem wellFormed_dropTask {task : Str} {d : Tasks} (hd : d.WellFormed) :
    (dropTask task d).WellFormed where
  nodup_bbtasks := by
    rw [dropTask, Tasks.setDeps_bbtasks]
    split
    · exact hd.nodup_bbtasks.erase _
    · exact hd.nodup_bbtasks
  task_iff t := by
    rw [mem_dropTask_bbtasks hd, ← hd.task_iff, dropTask, Tasks.setDeps_task]
    split
    · rw [Tasks.task_setTask]
      split
      · simp [*]
      · simp [*]
    · rename_i hmem
      refine ⟨fun h => ⟨h, ?_⟩, And.left⟩
      rintro rfl
      exact hmem ((hd.task_iff t).1 h)
  nodup_deps t := by
    rw [dropTask, Tasks.existing_setDeps]
    split
    · exact List.nodup_nil
    · split
      · exact hd.nodup_deps t
      · exact hd.nodup_deps t
  deps_isSome t ht := by
    obtain ⟨ht, hne⟩ := (mem_dropTask_bbtasks hd).1 ht
    rw [dropTask, Tasks.isSome_setDeps, if_neg hne]
    split
    · exact hd.deps_isSome t ht
    · exact hd.deps_isSome t ht

theorem Dropped.wellFormed {u : Str} {l : List Str} {d d' : Tasks} (h : Dropped u l d d')
    (hd : d.WellFormed) : d'.WellFormed where
  nodup_bbtasks := by rw [h.bbtasks]; exact hd.nodup_bbtasks
  task_iff t := by rw [h.flag, h.bbtasks]; exact hd.task_iff t
  nodup_deps := h.nodup
  deps_isSome t ht := h.isSome t (hd.deps_isSome t (by rwa [h.bbtasks] at ht))

theorem deltask_deleted (task : Str) {d : Tasks} (hd : d.WellFormed) :
    Deleted [task] d (deltask task d) := by
  have hdrop : (dropTask (ensureTaskPrefix task) d).WellFormed := wellFormed_dropTask hd
  have h := foldl_removeDep (ensureTaskPrefix task)
    (dropTask (ensureTaskPrefix task) d).bbtasks hdrop.nodup_deps
  rw [deltask_eq]
  refine ⟨fun t => ?_, fun t x => ?_, h.wellFormed hdrop⟩
  · rw [h.bbtasks, mem_dropTask_bbtasks hd, List.map_singleton, List.mem_singleton]
  · rw [h.existing, mem_existing_dropTask, mem_dropTask_bbtasks hd, List.map_singleton,
      List.mem_singleton, List.mem_singleton, and_assoc]
    constructor
    · rintro ⟨hx, ht, himp⟩
      exact ⟨hx, ht, fun hbb => himp ⟨hbb, ht⟩⟩
    · rintro ⟨hx, ht, himp⟩
      exact ⟨hx, ht, fun hbb => himp hbb.1⟩

theorem foldl_deltask (tasks : List Str) {d : Tasks} (hd : d.WellFormed) :
    Deleted tasks d (tasks.foldl (fun d task => deltask task d) d) := by
  induction tasks generalizing d with
  | nil => exact ⟨by simp, by simp, hd⟩
  | cons task tasks ih =>
    have h := deltask_deleted task hd
    have h' := ih h.wellFormed
    rw [List.foldl_cons]
    refine ⟨fun t => ?_, fun t x => ?_, h'.wellFormed⟩
    · rw [h'.bbtasks, h.bbtasks, mem_prefixed_cons tasks, not_or, and_assoc]
    · rw [h'.existing, h.existing, h.bbtasks, mem_prefixed_cons tasks, mem_prefixed_cons tasks, not_or, not_or]
      constructor
      · rintro ⟨⟨hx, ht, himp⟩, ht', himp'⟩
        exact ⟨hx, ⟨ht, ht'⟩, fun hbb => ⟨himp hbb, himp' ⟨hbb, ht⟩⟩⟩
      · rintro ⟨hx, ⟨ht, ht'⟩, himp⟩
        exact ⟨⟨hx, ht, fun hbb => (himp hbb).1⟩, ht', fun hbb => (himp hbb.1).2⟩

end TaskLines
end BitBake
end OpenBmc
