import OpenBmc.BitBake.Prepare
import OpenBmc.Lib.Wp

/-!
# Declared dependencies

`Recorded` has the records of `add_tasks` be what the files seen so far declare, and
`prepareTask_resolved` gives the dependencies that the first loop of `prepare` finds for a task. They
are the declared ones exactly where the task has no `mcdepends` flag, or all that the `mcdepends` of
its multiconfig name is declared by the task too (`depends_declared_iff`).
-/

namespace OpenBmc
namespace BitBake
namespace Prepare
open Py

variable {Fn : Type} [DecidableEq Fn]

/-! ### What `add_tasks` records -/

theorem mem_mapM_ok {α β : Type} {f : α → Except Fatal β} {l : List α} {l' : List β}
    (h : l.mapM f = .ok l') {b : β} : b ∈ l' ↔ ∃ a ∈ l, f a = .ok b := by
  induction l generalizing l' with
  | nil =>
    cases h
    simp
  | cons a l ih =>
    rw [List.mapM_cons] at h
    obtain ⟨b', hb', h⟩ := bindExcept_ok_iff.1 h
    obtain ⟨l'', hl'', h⟩ := bindExcept_ok_iff.1 h
    cases h
    rw [List.mem_cons, ih hl'']
    simp [hb', eq_comm]

theorem handleDep_ok {dep : Str} {d : Str × Str} :
    handleDep dep = .ok d ↔ dep.splitOn ':' = [d.1, d.2] := by
  unfold handleDep
  split
  · rename_i heq
    rw [heq]
    constructor
    · rintro ⟨⟩
      rfl
    · intro h
      cases h
      rfl
  · rename_i hne
    constructor
    · intro h
      cases h
    · intro h
      exact absurd h (hne _ _)

/-- The text of the flag names `d.2` in the provider of `d.1`. -/
def FlagNames (flag : Option Str) (d : Str × Str) : Prop :=
  ∃ text, flag = some text ∧ ∃ dep ∈ words text, dep.splitOn ':' = [d.1, d.2]

theorem mem_handleDeps {flag : Option Str} {l : List (Str × Str)} (h : handleDeps flag = .ok l)
    {d : Str × Str} : d ∈ l ↔ FlagNames flag d := by
  rw [mem_mapM_ok h]
  simp only [handleDep_ok]
  cases flag with
  | none => simp [FlagNames]
  | some text => simp [FlagNames]

theorem mem_foldlM_addMcdepend {l r r' : List Str} (h : l.foldlM addMcdepend r = .ok r')
    {dep : Str} : dep ∈ r' ↔ dep ∈ r ∨ dep ∈ l := by
  induction l generalizing r with
  | nil =>
    cases h
    simp
  | cons d l ih =>
    rw [List.foldlM_cons] at h
    obtain ⟨r₁, hr₁, h⟩ := bindExcept_ok_iff.1 h
    rw [ih h, List.mem_cons]
    unfold addMcdepend at hr₁
    split at hr₁
    · cases hr₁
    · cases hr₁
      split
      · rename_i hmem
        constructor
        · rintro (h | h)
          · exact .inl h
          · exact .inr (.inr h)
        · rintro (h | rfl | h)
          · exact .inl h
          · exact .inl hmem
          · exact .inr h
      · rw [List.mem_append, List.mem_singleton, or_assoc]

/-- The task has the entry among its `mcdepends`. -/
def OwnMcdepend (taskDeps : TaskDeps) (task dep : Str) : Prop :=
  ∃ text, taskDeps.mcdepends task = some text ∧ dep ∈ words text

/-- The entry of a task is what its file declares. -/
structure EntryOf (mc : Str) (taskDeps : TaskDeps) (fn : Fn) (task : Str) (e : Entry Fn) : Prop where
  tdepends : ∀ u, u ∈ e.tdepends ↔ ∃ p ∈ taskDeps.parents task, p ∈ taskDeps.tasks ∧ u = ⟨mc, fn, p⟩
  idepends : ∀ k d, d ∈ e.idepends k ↔ FlagNames (taskDeps.depends k task) d

/-- What the loop over the tasks `l` of a file records. -/
structure TasksAdded (mc : Str) (taskDeps : TaskDeps) (fn : Fn) (l : List Str) (r r' : Records Fn) :
    Prop where
  seenfns : r'.seenfns = r.seenfns
  depids : r'.depids = r.depids
  entries : ∀ key e, r'.taskentries.get? key = some e →
    (key.1 = fn ∧ key.2 ∈ l ∧ EntryOf mc taskDeps fn key.2 e) ∨ r.taskentries.get? key = some e
  added : ∀ task ∈ l, (fn, task) ∈ r'.taskentries
  kept : ∀ key ∈ r.taskentries, key ∈ r'.taskentries
  mcdepends : ∀ dep, dep ∈ r'.mcdepends ↔
    dep ∈ r.mcdepends ∨ ∃ task ∈ l, OwnMcdepend taskDeps task dep

theorem addTask_added {mc : Str} {taskDeps : TaskDeps} {fn : Fn} {r r' : Records Fn} {task : Str}
    (h : addTask mc taskDeps fn r task = .ok r') : TasksAdded mc taskDeps fn [task] r r' := by
  rw [addTask] at h
  obtain ⟨idepends, hi, h⟩ := bindExcept_ok_iff.1 h
  obtain ⟨irdepends, hir, h⟩ := bindExcept_ok_iff.1 h
  obtain ⟨mcdepends, hm, h⟩ := bindExcept_ok_iff.1 h
  cases h
  refine ⟨rfl, rfl, fun key e he => ?_, fun t ht => ?_, fun key hkey => ?_, fun dep => ?_⟩
  · rw [Dict.get?_set] at he
    split at he
    · rename_i hkey
      cases he
      rw [hkey]
      refine .inl ⟨rfl, List.mem_singleton_self _, fun u => ?_, fun k d => ?_⟩
      · rw [List.mem_map]
        simp only [List.mem_filter, decide_eq_true_eq]
        constructor
        · rintro ⟨p, ⟨hp, hp'⟩, rfl⟩
          exact ⟨p, hp, hp', rfl⟩
        · rintro ⟨p, hp, hp', rfl⟩
          exact ⟨p, ⟨hp, hp'⟩, rfl⟩
      · cases k with
        | build => exact mem_handleDeps hi
        | run => exact mem_handleDeps hir
    · exact .inr he
  · rw [List.mem_singleton.1 ht]
    exact Dict.mem_set.2 (.inl rfl)
  · exact Dict.mem_set.2 (.inr hkey)
  · rw [mem_foldlM_addMcdepend hm]
    refine or_congr_right ?_
    cases hflag : taskDeps.mcdepends task with
    | none => simp [OwnMcdepend, hflag]
    | some text => simp [OwnMcdepend, hflag]

theorem foldlM_addTask {mc : Str} {taskDeps : TaskDeps} {fn : Fn} {l : List Str}
    {r r' : Records Fn} (h : l.foldlM (addTask mc taskDeps fn) r = .ok r') :
    TasksAdded mc taskDeps fn l r r' := by
  induction l generalizing r with
  | nil =>
    cases h
    exact ⟨rfl, rfl, fun key e he => .inr he, by simp, fun key hkey => hkey, by simp⟩
  | cons task l ih =>
    rw [List.foldlM_cons] at h
    obtain ⟨r₁, hr₁, h⟩ := bindExcept_ok_iff.1 h
    have h₁ := addTask_added hr₁
    have h₂ := ih h
    refine ⟨h₂.seenfns.trans h₁.seenfns, h₂.depids.trans h₁.depids, fun key e he => ?_,
      fun t ht => ?_, fun key hkey => h₂.kept key (h₁.kept key hkey), fun dep => ?_⟩
    · rcases h₂.entries key e he with ⟨hfn, ht, he⟩ | he
      · exact .inl ⟨hfn, List.mem_cons_of_mem _ ht, he⟩
      · rcases h₁.entries key e he with ⟨hfn, ht, he⟩ | he
        · exact .inl ⟨hfn, List.mem_cons.2 (.inl (List.mem_singleton.1 ht)), he⟩
        · exact .inr he
    · rcases List.mem_cons.1 ht with rfl | ht
      · exact h₂.kept _ (h₁.added _ (List.mem_singleton_self _))
      · exact h₂.added t ht
    · rw [h₂.mcdepends, h₁.mcdepends]
      simp [or_assoc]

/-- The records are those of the files seen so far. -/
structure Recorded (mc : Str) (recipes : Recipes Fn) (r : Records Fn) : Prop where
  entries : ∀ key e, r.taskentries.get? key = some e → key.1 ∈ r.seenfns ∧
    key.2 ∈ (recipes.taskDeps key.1).tasks ∧ EntryOf mc (recipes.taskDeps key.1) key.1 key.2 e
  added : ∀ fn ∈ r.seenfns, ∀ task ∈ (recipes.taskDeps fn).tasks, (fn, task) ∈ r.taskentries
  depids : ∀ k, ∀ fn ∈ r.seenfns, (r.depids k).get? fn = some (recipes.deps k fn)
  mcdepends : ∀ dep, dep ∈ r.mcdepends ↔
    ∃ fn ∈ r.seenfns, ∃ task ∈ (recipes.taskDeps fn).tasks, OwnMcdepend (recipes.taskDeps fn) task dep

theorem recorded_empty (mc : Str) (recipes : Recipes Fn) : Recorded mc recipes Records.empty where
  entries key e he := by simp [Records.empty] at he
  added fn hfn := absurd hfn List.not_mem_nil
  depids k fn hfn := absurd hfn List.not_mem_nil
  mcdepends dep := by simp [Records.empty]

theorem Recorded.addTasks {mc : Str} {recipes : Recipes Fn} {r r' : Records Fn} {fn : Fn}
    (hr : Recorded mc recipes r) (h : Prepare.addTasks mc recipes r fn = .ok r') :
    Recorded mc recipes r' := by
  unfold Prepare.addTasks at h
  split at h
  · cases h
    exact hr
  · obtain ⟨r₁, hr₁, h⟩ := bindExcept_ok_iff.1 h
    cases h
    have h₁ := foldlM_addTask hr₁
    have hseen : r₁.seenfns = r.seenfns ++ [fn] := h₁.seenfns
    have hmem : ∀ f, f ∈ r₁.seenfns ↔ f ∈ r.seenfns ∨ f = fn := by
      intro f
      rw [hseen, List.mem_append, List.mem_singleton]
    refine ⟨fun key e he => ?_, fun f hf task ht => ?_, fun k f hf => ?_, fun dep => ?_⟩
    · rcases h₁.entries key e he with ⟨hfn, ht, he⟩ | he
      · rw [hfn]
        exact ⟨(hmem fn).2 (.inr rfl), ht, he⟩
      · obtain ⟨hfn, ht, he⟩ := hr.entries key e he
        exact ⟨(hmem _).2 (.inl hfn), ht, he⟩
    · rcases (hmem f).1 hf with hf | rfl
      · exact h₁.kept _ (hr.added f hf task ht)
      · exact h₁.added task ht
    · show ((r₁.depids k).set fn (recipes.deps k fn)).get? f = _
      rw [Dict.get?_set]
      split
      · rename_i heq
        rw [heq]
      · rename_i hne
        rw [h₁.depids]
        exact hr.depids k f (((hmem f).1 hf).resolve_right hne)
    · show dep ∈ r₁.mcdepends ↔ _
      rw [h₁.mcdepends]
      show dep ∈ r.mcdepends ∨ _ ↔ _
      rw [hr.mcdepends]
      simp only [hmem, or_and_right, exists_or, exists_eq_left]

theorem recorded_of_foldlM {mc : Str} {recipes : Recipes Fn} {files : List Fn} {r r' : Records Fn}
    (hr : Recorded mc recipes r) (h : files.foldlM (Prepare.addTasks mc recipes) r = .ok r') :
    Recorded mc recipes r' := by
  induction files generalizing r with
  | nil =>
    cases h
    exact hr
  | cons fn files ih =>
    rw [List.foldlM_cons] at h
    obtain ⟨r₁, hr₁, h⟩ := bindExcept_ok_iff.1 h
    exact ih (hr.addTasks hr₁) h

theorem McTaskData.isRecorded {mc : Str} (td : McTaskData Fn mc) :
    Recorded mc td.recipes td.records := recorded_of_foldlM (recorded_empty mc td.recipes) td.recorded

/-! ### What a task declares -/

section Declared
variable (taskData : List (Multiconfig Fn)) (m : Multiconfig Fn)

/-- An existing task with one of the names, in the chosen provider of one of the items. -/
def InProviders (k : Kind) (items names : List Str) (u : Tid Fn) : Prop :=
  ∃ item ∈ items, ∃ f, m.2.provider k item = some f ∧ ∃ name ∈ names,
    (f, name) ∈ m.2.records.taskentries ∧ u = ⟨m.1, f, name⟩

/-- What a `deptask` flag of a task of `fn` names. -/
def FlagDepends (k : Kind) (fn : Fn) (flag : Option Str) (u : Tid Fn) : Prop :=
  ∃ text, flag = some text ∧ InProviders m k (m.2.recipes.deps k fn) (words text) u

/-- What an `mcdepends` entry that starts from the multiconfig `mc` names. -/
def McNames (mc dep : Str) (u : Tid Fn) : Prop :=
  mc = (dep.splitOn ':').getD 1 [] ∧ ∃ m', lookup taskData ((dep.splitOn ':').getD 2 []) = some m' ∧
    ∃ f, m'.2.provider .build ((dep.splitOn ':').getD 3 []) = some f ∧
      u = ⟨(dep.splitOn ':').getD 2 [], f, (dep.splitOn ':').getD 4 []⟩

/-- What the task declares to depend on. -/
inductive Declares (fn : Fn) (task : Str) (u : Tid Fn) : Prop
  /-- `addtask`. -/
  | parent (p : Str) (hp : p ∈ (m.2.recipes.taskDeps fn).parents task)
      (hexists : p ∈ (m.2.recipes.taskDeps fn).tasks) (hu : u = ⟨m.1, fn, p⟩)
  /-- `deptask` and `rdeptask`. -/
  | deptask (k : Kind) (h : FlagDepends m k fn ((m.2.recipes.taskDeps fn).deptask k task) u)
  | recrdeptask (k : Kind) (h : FlagDepends m k fn ((m.2.recipes.taskDeps fn).recrdeptask task) u)
  /-- `depends` and `rdepends`. -/
  | depends (k : Kind) (d : Str × Str) (f : Fn)
      (hd : FlagNames ((m.2.recipes.taskDeps fn).depends k task) d)
      (hf : m.2.provider k d.1 = some f) (hu : u = ⟨m.1, f, d.2⟩)
  | mcdepends (dep : Str) (hdep : OwnMcdepend (m.2.recipes.taskDeps fn) task dep)
      (hu : McNames taskData m.1 dep u)

/-- Some task of the multiconfig has the entry among its `mcdepends`. -/
def SomeMcdepend (dep : Str) : Prop :=
  ∃ fn ∈ m.2.records.seenfns, ∃ task ∈ (m.2.recipes.taskDeps fn).tasks,
    OwnMcdepend (m.2.recipes.taskDeps fn) task dep

end Declared

/-! ### The parts of the loop -/

section Parts
variable {taskData : List (Multiconfig Fn)} {m : Multiconfig Fn}

theorem mem_addTasknames {f : Fn} {tasknames : List Str} {depends : Finset (Tid Fn)} {u : Tid Fn} :
    u ∈ tasknames.foldl (fun depends taskname =>
        if (f, taskname) ∈ m.2.records.taskentries then insert ⟨m.1, f, taskname⟩ depends
        else depends) depends ↔
      u ∈ depends ∨
        ∃ name ∈ tasknames, (f, name) ∈ m.2.records.taskentries ∧ u = ⟨m.1, f, name⟩ := by
  induction tasknames generalizing depends with
  | nil => simp
  | cons name tasknames ih =>
    rw [List.foldl_cons, ih]
    by_cases hmem : (f, name) ∈ m.2.records.taskentries
    · rw [if_pos hmem, Finset.mem_insert]
      simp only [List.mem_cons, exists_eq_or_imp, hmem, true_and]
      rw [or_comm (a := u = _), or_assoc]
    · rw [if_neg hmem]
      simp only [List.mem_cons, exists_eq_or_imp, hmem, false_and, false_or]

theorem mem_addDependencies {k : Kind} {depids tasknames : List Str} {depends : Finset (Tid Fn)}
    {u : Tid Fn} : u ∈ addDependencies m k depids tasknames depends ↔
      u ∈ depends ∨ InProviders m k depids tasknames u := by
  induction depids generalizing depends with
  | nil => simp [addDependencies, InProviders]
  | cons depname depids ih =>
    have hcons : addDependencies m k (depname :: depids) tasknames depends =
        addDependencies m k depids tasknames
          (addDependencies m k [depname] tasknames depends) := rfl
    have hone : u ∈ addDependencies m k [depname] tasknames depends ↔
        u ∈ depends ∨ InProviders m k [depname] tasknames u := by
      rw [addDependencies, List.foldl_cons, List.foldl_nil]
      cases hp : m.2.provider k depname with
      | none => simp [InProviders, hp]
      | some f =>
        show u ∈ tasknames.foldl _ depends ↔ _
        rw [mem_addTasknames]
        simp [InProviders, hp]
    rw [hcons, ih, hone, or_assoc]
    refine or_congr_right ?_
    simp [InProviders]

theorem mem_addFlag {k : Kind} {fn : Fn} (hfn : fn ∈ m.2.records.seenfns) {flag : Option Str}
    {depends : Finset (Tid Fn)} {u : Tid Fn} :
    u ∈ addFlag m k fn flag depends ↔ u ∈ depends ∨ FlagDepends m k fn flag u := by
  cases flag with
  | none => simp [addFlag, FlagDepends]
  | some text =>
    show u ∈ addDependencies m k _ _ _ ↔ _
    rw [mem_addDependencies, m.2.isRecorded.depids k fn hfn]
    simp [FlagDepends]

/-- The loop over `idepends` or `irdepends`. -/
theorem mem_addIdepends (hfailed : m.2.failedFns = []) {k : Kind} {l : List (Str × Str)}
    {depends depends' : Finset (Tid Fn)} (h : l.foldlM (addIdepend m k) depends = .ok depends')
    {u : Tid Fn} : u ∈ depends' ↔
      u ∈ depends ∨ ∃ d ∈ l, ∃ f, m.2.provider k d.1 = some f ∧ u = ⟨m.1, f, d.2⟩ := by
  induction l generalizing depends with
  | nil =>
    cases h
    simp
  | cons d l ih =>
    rw [List.foldlM_cons] at h
    obtain ⟨depends₁, h₁, h⟩ := bindExcept_ok_iff.1 h
    have hone : u ∈ depends₁ ↔ u ∈ depends ∨ ∃ f, m.2.provider k d.1 = some f ∧ u = ⟨m.1, f, d.2⟩ := by
      unfold addIdepend at h₁
      cases hp : m.2.provider k d.1 with
      | none =>
        rw [hp] at h₁
        cases h₁
        simp
      | some f =>
        rw [hp] at h₁
        simp only at h₁
        split at h₁
        · -- a failed target has no provider
          rename_i hk
          obtain ⟨rfl, hdep⟩ := hk
          rw [McTaskData.provider, m.2.failed_targets hfailed d.1 hdep] at hp
          cases hp
        · split at h₁
          · cases h₁
          · cases h₁
            rw [Finset.mem_insert]
            simp [or_comm]
    rw [ih h, hone, or_assoc]
    simp

theorem addMcDependency_ok {mc : Str} {tid : Tid Fn} {q q' : Queue Fn} {dep : Str}
    (h : addMcDependency taskData mc tid q dep = .ok q') :
    q'.runtaskentries = q.runtaskentries ∧ (∀ x, x ≠ tid → q'.tdepends x = q.tdepends x) ∧
      ∀ u, u ∈ q'.tdepends tid ↔ u ∈ q.tdepends tid ∨ McNames taskData mc dep u := by
  unfold addMcDependency at h
  simp only at h
  cases hm : lookup taskData ((dep.splitOn ':').getD 2 []) with
  | none =>
    rw [hm] at h
    cases h
  | some m' =>
    rw [hm] at h
    simp only at h
    split at h
    · rename_i hfrom
      cases hp : m'.2.provider .build ((dep.splitOn ':').getD 3 []) with
      | none =>
        rw [hp] at h
        cases h
      | some f =>
        rw [hp] at h
        simp only at h
        split at h
        · cases h
        · cases h
          refine ⟨rfl, fun x hx => Function.update_of_ne hx .., fun u => ?_⟩
          show u ∈ Function.update q.tdepends tid _ tid ↔ _
          rw [Function.update_self, List.mem_append, List.mem_singleton]
          refine or_congr_right ⟨fun hu => ⟨hfrom, m', hm, f, hp, hu⟩, ?_⟩
          rintro ⟨-, m'', hm', f', hp', hu⟩
          rw [hm] at hm'
          cases hm'
          rw [hp] at hp'
          cases hp'
          exact hu
    · rename_i hfrom
      cases h
      refine ⟨rfl, fun x _ => rfl, fun u => (or_iff_left ?_).symm⟩
      exact fun hu => hfrom hu.1

theorem foldlM_addMcDependency {mc : Str} {tid : Tid Fn} {l : List Str} {q q' : Queue Fn}
    (h : l.foldlM (addMcDependency taskData mc tid) q = .ok q') :
    q'.runtaskentries = q.runtaskentries ∧ (∀ x, x ≠ tid → q'.tdepends x = q.tdepends x) ∧
      ∀ u, u ∈ q'.tdepends tid ↔ u ∈ q.tdepends tid ∨ ∃ dep ∈ l, McNames taskData mc dep u := by
  induction l generalizing q with
  | nil =>
    cases h
    simp
  | cons dep l ih =>
    rw [List.foldlM_cons] at h
    obtain ⟨q₁, h₁, h⟩ := bindExcept_ok_iff.1 h
    obtain ⟨hrun, hother, hself⟩ := addMcDependency_ok h₁
    obtain ⟨hrun', hother', hself'⟩ := ih h
    refine ⟨hrun'.trans hrun, fun x hx => (hother' x hx).trans (hother x hx), fun u => ?_⟩
    rw [hself', hself, or_assoc]
    simp

end Parts

/-! ### One task -/

section Loop
variable {taskData : List (Multiconfig Fn)} {m : Multiconfig Fn}

def tidOf (m : Multiconfig Fn) (key : Fn × Str) : Tid Fn := ⟨m.1, key.1, key.2⟩

/-- What the body of the loop finds for a task: what it declares, and what the `mcdepends` of other
tasks name, where it has the flag itself. -/
def Resolved (taskData : List (Multiconfig Fn)) (m : Multiconfig Fn) (key : Fn × Str) (u : Tid Fn) :
    Prop :=
  u ≠ tidOf m key ∧ (Declares taskData m key.1 key.2 u ∨
    ((m.2.recipes.taskDeps key.1).mcdepends key.2).isSome ∧
      ∃ dep, SomeMcdepend m dep ∧ McNames taskData m.1 dep u)

/-- What the body leaves: the task's own entries, and no others, are changed. -/
structure Prepared (taskData : List (Multiconfig Fn)) (m : Multiconfig Fn) (key : Fn × Str)
    (q q' : Queue Fn) : Prop where
  tdepends : ∀ x, x ≠ tidOf m key → q'.tdepends x = q.tdepends x
  others : ∀ x, x ≠ tidOf m key → q'.runtaskentries.get? x = q.runtaskentries.get? x
  own : (∀ e, m.2.records.taskentries.get? key = some e → q.tdepends (tidOf m key) = e.tdepends) →
    ∃ depends, q'.runtaskentries.get? (tidOf m key) = some depends ∧
      ∀ u, u ∈ depends ↔ Resolved taskData m key u

theorem addMcDependencies_ok {tid : Tid Fn} {flag : Option Str} {q q' : Queue Fn}
    (h : addMcDependencies taskData m tid flag q = .ok q') :
    q'.runtaskentries = q.runtaskentries ∧ (∀ x, x ≠ tid → q'.tdepends x = q.tdepends x) ∧
      ∀ u, u ∈ q'.tdepends tid ↔ u ∈ q.tdepends tid ∨
        flag.isSome ∧ ∃ dep, SomeMcdepend m dep ∧ McNames taskData m.1 dep u := by
  unfold addMcDependencies at h
  split at h
  · rename_i hflag
    obtain ⟨hrun, hother, hself⟩ := foldlM_addMcDependency h
    refine ⟨hrun, hother, fun u => ?_⟩
    rw [hself]
    simp only [m.2.isRecorded.mcdepends, hflag, true_and]
    rfl
  · rename_i hflag
    cases h
    refine ⟨rfl, fun x _ => rfl, fun u => (or_iff_left ?_).symm⟩
    exact fun hu => hflag hu.1

theorem mem_resolve (hfailed : m.2.failedFns = []) {key : Fn × Str} {e : Entry Fn}
    (he : m.2.records.taskentries.get? key = some e) {tdepends : List (Tid Fn)}
    {depends : Finset (Tid Fn)} (h : resolve m key tdepends = .ok depends) {u : Tid Fn} :
    u ∈ depends ↔ u ∈ tdepends ∨
      (∃ k, FlagDepends m k key.1 ((m.2.recipes.taskDeps key.1).deptask k key.2) u) ∨
      (∃ k d f, FlagNames ((m.2.recipes.taskDeps key.1).depends k key.2) d ∧
        m.2.provider k d.1 = some f ∧ u = ⟨m.1, f, d.2⟩) ∨
      ∃ k, FlagDepends m k key.1 ((m.2.recipes.taskDeps key.1).recrdeptask key.2) u := by
  obtain ⟨hseen, htask, hentry⟩ := m.2.isRecorded.entries key e he
  unfold resolve at h
  rw [he] at h
  obtain ⟨depends₁, h₁, h⟩ := bindExcept_ok_iff.1 h
  obtain ⟨depends₂, h₂, h⟩ := bindExcept_ok_iff.1 h
  cases h
  rw [mem_addFlag hseen, mem_addFlag hseen, mem_addIdepends hfailed h₂, mem_addIdepends hfailed h₁,
    mem_addFlag hseen, mem_addFlag hseen, List.mem_toFinset]
  simp only [Option.map_some, Option.getD_some, hentry.idepends]
  constructor
  · rintro ((((((hu | hu) | hu) | ⟨d, hd, f, hf, hu⟩) | ⟨d, hd, f, hf, hu⟩) | hu) | hu)
    · exact .inl hu
    · exact .inr (.inl ⟨.build, hu⟩)
    · exact .inr (.inl ⟨.run, hu⟩)
    · exact .inr (.inr (.inl ⟨.build, d, f, hd, hf, hu⟩))
    · exact .inr (.inr (.inl ⟨.run, d, f, hd, hf, hu⟩))
    · exact .inr (.inr (.inr ⟨.build, hu⟩))
    · exact .inr (.inr (.inr ⟨.run, hu⟩))
  · rintro (hu | ⟨k, hu⟩ | ⟨k, d, f, hd, hf, hu⟩ | ⟨k, hu⟩)
    · exact .inl (.inl (.inl (.inl (.inl (.inl hu)))))
    · cases k with
      | build => exact .inl (.inl (.inl (.inl (.inl (.inr hu)))))
      | run => exact .inl (.inl (.inl (.inl (.inr hu))))
    · cases k with
      | build => exact .inl (.inl (.inl (.inr ⟨d, hd, f, hf, hu⟩)))
      | run => exact .inl (.inl (.inr ⟨d, hd, f, hf, hu⟩))
    · cases k with
      | build => exact .inl (.inr hu)
      | run => exact .inr hu

/-- A task that declares an `mcdepends` entry has the flag, and its multiconfig has the entry. -/
theorem someMcdepend_of_own {key : Fn × Str} {e : Entry Fn} {dep : Str}
    (he : m.2.records.taskentries.get? key = some e)
    (h : OwnMcdepend (m.2.recipes.taskDeps key.1) key.2 dep) :
    ((m.2.recipes.taskDeps key.1).mcdepends key.2).isSome ∧ SomeMcdepend m dep := by
  obtain ⟨hseen, htask, -⟩ := m.2.isRecorded.entries key e he
  obtain ⟨text, htext, hdep⟩ := h
  refine ⟨by rw [htext]; rfl, key.1, hseen, key.2, htask, text, htext, hdep⟩

theorem prepareTask_prepared (hfailed : m.2.failedFns = []) {key : Fn × Str}
    (hkey : key ∈ m.2.records.taskentries) {q q' : Queue Fn}
    (h : prepareTask taskData m q key = .ok q') : Prepared taskData m key q q' := by
  obtain ⟨entry, hentry⟩ := Dict.mem_iff_get?_isSome.1 hkey
  have hentryOf := (m.2.isRecorded.entries key entry hentry).2.2
  unfold prepareTask at h
  simp only [hfailed, List.not_mem_nil, if_false] at h
  obtain ⟨q₁, hq₁, h⟩ := bindExcept_ok_iff.1 h
  obtain ⟨depends, hdepends, h⟩ := bindExcept_ok_iff.1 h
  cases h
  obtain ⟨hrun, hother, hself⟩ := addMcDependencies_ok hq₁
  refine ⟨hother, fun x hx => ?_, fun hstart => ⟨_, Dict.get?_set_self .., fun u => ?_⟩⟩
  · show (q₁.runtaskentries.set (tidOf m key) _).get? x = _
    rw [Dict.get?_set_ne _ hx, hrun]
    exact Dict.get?_set_ne _ hx _
  · rw [Finset.mem_erase, mem_resolve hfailed hentry hdepends, hself]
    refine and_congr_right fun _ => ?_
    have htd : u ∈ q.tdepends (tidOf m key) ↔ u ∈ entry.tdepends := by rw [hstart entry hentry]
    constructor
    · rintro ((hu | hu) | ⟨k, hu⟩ | ⟨k, d, f, hd, hf, hu⟩ | ⟨k, hu⟩)
      · obtain ⟨p, hp, hexists, hu⟩ := (hentryOf.tdepends u).1 (htd.1 hu)
        exact .inl (.parent p hp hexists hu)
      · exact .inr hu
      · exact .inl (.deptask k hu)
      · exact .inl (.depends k d f hd hf hu)
      · exact .inl (.recrdeptask k hu)
    · rintro (hdecl | hu)
      · cases hdecl with
        | parent p hp hexists hu =>
          exact .inl (.inl (htd.2 ((hentryOf.tdepends u).2 ⟨p, hp, hexists, hu⟩)))
        | deptask k hu => exact .inr (.inl ⟨k, hu⟩)
        | recrdeptask k hu => exact .inr (.inr (.inr ⟨k, hu⟩))
        | depends k d f hd hf hu => exact .inr (.inr (.inl ⟨k, d, f, hd, hf, hu⟩))
        | mcdepends dep hdep hu =>
          obtain ⟨hflag, hsome⟩ := someMcdepend_of_own hentry hdep
          exact .inl (.inr ⟨hflag, dep, hsome, hu⟩)
      · exact .inl (.inr hu)

/-! ### The loop -/

/-- The tasks in the order of the loop. -/
def allKeys (taskData : List (Multiconfig Fn)) : List (Multiconfig Fn × (Fn × Str)) :=
  taskData.flatMap fun m => m.2.records.taskentries.keys.map (Prod.mk m)

def prepareOne (taskData : List (Multiconfig Fn)) (q : Queue Fn) (p : Multiconfig Fn × (Fn × Str)) :
    Except Fatal (Queue Fn) := prepareTask taskData p.1 q p.2

theorem firstLoop_eq (taskData : List (Multiconfig Fn)) :
    firstLoop taskData = (allKeys taskData).foldlM (prepareOne taskData) (start taskData) := by
  suffices h : ∀ (l : List (Multiconfig Fn)) (q : Queue Fn),
      l.foldlM (fun q m => m.2.records.taskentries.keys.foldlM (prepareTask taskData m) q) q =
        (allKeys l).foldlM (prepareOne taskData) q from h taskData _
  intro l
  induction l with
  | nil => intro q; rfl
  | cons m l ih =>
    intro q
    rw [List.foldlM_cons, allKeys, List.flatMap_cons, List.foldlM_append, List.foldlM_map]
    exact bind_congr ih

theorem lookup_of_mem {taskData : List (Multiconfig Fn)} (hn : (taskData.map Sigma.fst).Nodup)
    {m : Multiconfig Fn} (hm : m ∈ taskData) : lookup taskData m.1 = some m := by
  induction taskData with
  | nil => exact absurd hm List.not_mem_nil
  | cons m' l ih =>
    rw [List.map_cons, List.nodup_cons] at hn
    unfold lookup at ih ⊢
    rcases List.mem_cons.1 hm with rfl | hm
    · rw [List.find?_cons_of_pos (by simp)]
    · have hne : m'.1 ≠ m.1 := fun h => hn.1 (h ▸ List.mem_map_of_mem hm)
      rw [List.find?_cons_of_neg (by simpa using hne)]
      exact ih hn.2 hm

theorem nodup_tids {taskData : List (Multiconfig Fn)} (hn : (taskData.map Sigma.fst).Nodup) :
    ((allKeys taskData).map fun p => tidOf p.1 p.2).Nodup := by
  induction taskData with
  | nil => exact List.nodup_nil
  | cons m l ih =>
    rw [List.map_cons, List.nodup_cons] at hn
    rw [allKeys, List.flatMap_cons, List.map_append, List.map_map, List.nodup_append]
    refine ⟨?_, ih hn.2, ?_⟩
    · refine (Dict.keys_nodup _).map fun a b h => ?_
      exact Prod.ext (congrArg Tid.fn h) (congrArg Tid.task h)
    · intro a ha b hb hab
      obtain ⟨key, -, rfl⟩ := List.mem_map.1 ha
      obtain ⟨p, hp, rfl⟩ := List.mem_map.1 hb
      obtain ⟨m', hm', hp⟩ := List.mem_flatMap.1 hp
      obtain ⟨key', -, rfl⟩ := List.mem_map.1 hp
      have hmc : m.1 = m'.1 := congrArg Tid.mc hab
      exact hn.1 (hmc ▸ List.mem_map_of_mem hm')

/-- Tasks that are not visited keep their entries. -/
theorem foldlM_prepareOne_frame (hfailed : ∀ m ∈ taskData, m.2.failedFns = [])
    {l : List (Multiconfig Fn × (Fn × Str))} (hl : ∀ p ∈ l, p ∈ allKeys taskData) {q q' : Queue Fn}
    (h : l.foldlM (prepareOne taskData) q = .ok q') {x : Tid Fn}
    (hx : x ∉ l.map fun p => tidOf p.1 p.2) :
    q'.tdepends x = q.tdepends x ∧ q'.runtaskentries.get? x = q.runtaskentries.get? x := by
  induction l generalizing q with
  | nil =>
    cases h
    exact ⟨rfl, rfl⟩
  | cons p l ih =>
    rw [List.map_cons, List.mem_cons, not_or] at hx
    rw [List.foldlM_cons] at h
    obtain ⟨q₁, hq₁, hrest⟩ := bindExcept_ok_iff.1 h
    obtain ⟨m, hm, hp⟩ := List.mem_flatMap.1 (hl p (List.mem_cons_self ..))
    obtain ⟨key, hkey, rfl⟩ := List.mem_map.1 hp
    have hprep := prepareTask_prepared (hfailed m hm) hkey hq₁
    obtain ⟨htd, hrun⟩ := ih (fun p hp => hl p (List.mem_cons_of_mem _ hp)) hrest hx.2
    exact ⟨htd.trans (hprep.tdepends x hx.1), hrun.trans (hprep.others x hx.1)⟩

theorem firstLoop_resolved (hn : (taskData.map Sigma.fst).Nodup)
    (hfailed : ∀ m ∈ taskData, m.2.failedFns = []) {q : Queue Fn} (h : firstLoop taskData = .ok q)
    {m : Multiconfig Fn} (hm : m ∈ taskData) {key : Fn × Str}
    (hkey : key ∈ m.2.records.taskentries) :
    ∃ depends, q.runtaskentries.get? (tidOf m key) = some depends ∧
      ∀ u, u ∈ depends ↔ Resolved taskData m key u := by
  rw [firstLoop_eq] at h
  have hmem : (m, key) ∈ allKeys taskData :=
    List.mem_flatMap.2 ⟨m, hm, List.mem_map_of_mem hkey⟩
  obtain ⟨pre, post, hsplit⟩ := List.append_of_mem hmem
  have hnodup := nodup_tids hn
  rw [hsplit, List.map_append, List.map_cons] at hnodup
  have hpre : tidOf m key ∉ pre.map fun p => tidOf p.1 p.2 := fun hin =>
    (List.nodup_append.1 hnodup).2.2 _ hin _ (List.mem_cons_self ..) rfl
  have hpost : tidOf m key ∉ post.map fun p => tidOf p.1 p.2 :=
    (List.nodup_cons.1 (List.nodup_append.1 hnodup).2.1).1
  have hsub : ∀ p ∈ pre ++ (m, key) :: post, p ∈ allKeys taskData := fun p hp => hsplit ▸ hp
  rw [hsplit, List.foldlM_append] at h
  obtain ⟨q₁, hq₁, h⟩ := bindExcept_ok_iff.1 h
  rw [List.foldlM_cons] at h
  obtain ⟨q₂, hq₂, h⟩ := bindExcept_ok_iff.1 h
  have hframe := foldlM_prepareOne_frame hfailed
    (fun p hp => hsub p (List.mem_append_left _ hp)) hq₁ hpre
  have hframe' := foldlM_prepareOne_frame hfailed
    (fun p hp => hsub p (List.mem_append_right _ (List.mem_cons_of_mem _ hp))) h hpost
  rw [hframe'.2]
  refine (prepareTask_prepared (hfailed m hm) hkey hq₂).own fun e he => ?_
  have hlookup : lookup taskData (tidOf m key).mc = some m := lookup_of_mem hn hm
  rw [hframe.1, start]
  simp only [hlookup, Option.bind_some]
  show ((m.2.records.taskentries.get? key).map Entry.tdepends).getD [] = _
  rw [he]
  rfl

/-- The dependencies of a task are the declared ones exactly where the task has no `mcdepends` flag,
or declares all that the `mcdepends` entries of its multiconfig name. -/
theorem depends_declared_iff (hn : (taskData.map Sigma.fst).Nodup)
    (hfailed : ∀ m ∈ taskData, m.2.failedFns = []) {q : Queue Fn} (h : firstLoop taskData = .ok q)
    {m : Multiconfig Fn} (hm : m ∈ taskData) {fn : Fn} (hfn : fn ∈ m.2.records.seenfns) {task : Str}
    (htask : task ∈ (m.2.recipes.taskDeps fn).tasks) :
    ∃ depends, q.runtaskentries.get? ⟨m.1, fn, task⟩ = some depends ∧
      ((∀ u, u ∈ depends ↔ u ≠ ⟨m.1, fn, task⟩ ∧ Declares taskData m fn task u) ↔
        ((m.2.recipes.taskDeps fn).mcdepends task = none ∨
          ∀ dep, SomeMcdepend m dep → ∀ u, McNames taskData m.1 dep u →
            u = ⟨m.1, fn, task⟩ ∨ Declares taskData m fn task u)) := by
  obtain ⟨depends, hget, hmem⟩ := firstLoop_resolved hn hfailed h hm
    (m.2.isRecorded.added fn hfn task htask)
  refine ⟨depends, hget, ?_⟩
  constructor
  · intro hall
    cases hflag : (m.2.recipes.taskDeps fn).mcdepends task with
    | none => exact .inl rfl
    | some text =>
      refine .inr fun dep hdep u hu => ?_
      by_cases hself : u = ⟨m.1, fn, task⟩
      · exact .inl hself
      · refine .inr ((hall u).1 ((hmem u).2 ⟨hself, .inr ⟨?_, dep, hdep, hu⟩⟩)).2
        show ((m.2.recipes.taskDeps fn).mcdepends task).isSome = true
        rw [hflag]
        rfl
  · intro hcond u
    rw [hmem]
    refine and_congr_right fun hself => ⟨?_, .inl⟩
    rintro (hdecl | ⟨hflag, dep, hdep, hu⟩)
    · exact hdecl
    · rcases hcond with hnone | hall
      · have hflag : ((m.2.recipes.taskDeps fn).mcdepends task).isSome = true := hflag
        rw [hnone] at hflag
        cases hflag
      · exact (hall dep hdep u hu).resolve_left hself

end Loop

/-! ### Two tasks with `mcdepends` -/

/-- In the files 0 and 1 a task each with an `mcdepends` flag, in file 2 the tasks they name. -/
def mcTaskDeps (fn : Nat) : TaskDeps where
  tasks := if fn = 0 then ["do_a".toList] else if fn = 1 then ["do_b".toList]
    else ["do_s".toList, "do_t".toList]
  parents _ := []
  depends _ _ := none
  deptask _ _ := none
  recrdeptask _ := none
  mcdepends _ := if fn = 0 then some "mc:x:y:p:do_s".toList
    else if fn = 1 then some "mc:x:y:p:do_t".toList else none

def mcRecipes : Recipes Nat where
  taskDeps := mcTaskDeps
  deps _ _ := []

def mcRecords (mc : Str) (files : List Nat) : Records Nat :=
  (files.foldlM (addTasks mc mcRecipes) Records.empty).toOption.getD Records.empty

theorem mcRecords_from : [0, 1].foldlM (addTasks "x".toList mcRecipes) Records.empty =
    .ok (mcRecords "x".toList [0, 1]) := rfl

theorem mcRecords_to : [2].foldlM (addTasks "y".toList mcRecipes) Records.empty =
    .ok (mcRecords "y".toList [2]) := rfl

def mcTargets (_ : Kind) : Dict Str (List Nat) := .ofList [("p".toList, [2])]

theorem mcTargets_failed : ([] : List Nat) = [] →
    ∀ item ∈ ([] : List Str), ((mcTargets .build).get? item).getD [] = [] := by
  intro _ item hitem
  exact absurd hitem List.not_mem_nil

def mcFrom : Multiconfig Nat := ⟨"x".toList,
  ⟨mcRecipes, [0, 1], mcRecords "x".toList [0, 1], mcRecords_from, mcTargets, [], [],
    mcTargets_failed⟩⟩

def mcTo : Multiconfig Nat := ⟨"y".toList,
  ⟨mcRecipes, [2], mcRecords "y".toList [2], mcRecords_to, mcTargets, [], [], mcTargets_failed⟩⟩

theorem firstLoop_mc : ∃ q, firstLoop [mcFrom, mcTo] = .ok q := ⟨_, rfl⟩

theorem depends_declared_iff_mc : ∃ q, firstLoop [mcFrom, mcTo] = .ok q ∧
    ∃ depends, q.runtaskentries.get? ⟨"y".toList, 2, "do_s".toList⟩ = some depends ∧
      ((∀ u, u ∈ depends ↔
          u ≠ ⟨"y".toList, 2, "do_s".toList⟩ ∧ Declares [mcFrom, mcTo] mcTo 2 "do_s".toList u) ↔
        ((mcTo.2.recipes.taskDeps 2).mcdepends "do_s".toList = none ∨
          ∀ dep, SomeMcdepend mcTo dep → ∀ u, McNames [mcFrom, mcTo] mcTo.1 dep u →
            u = ⟨"y".toList, 2, "do_s".toList⟩ ∨ Declares [mcFrom, mcTo] mcTo 2 "do_s".toList u)) := by
  obtain ⟨q, hq⟩ := firstLoop_mc
  have hmem : mcTo ∈ [mcFrom, mcTo] := List.mem_cons_of_mem _ (List.mem_singleton_self _)
  have hfn : 2 ∈ mcTo.2.records.seenfns := by decide
  have htask : "do_s".toList ∈ (mcTo.2.recipes.taskDeps 2).tasks := by decide
  refine ⟨q, hq, depends_declared_iff (by decide) ?_ hq hmem hfn htask⟩
  intro m hm
  rcases List.mem_cons.1 hm with rfl | hm
  · rfl
  · rw [List.mem_singleton.1 hm]
    rfl

/-- The task of file 0 depends on the task that only the `mcdepends` of file 1 names. -/
theorem depends_not_declared : ∃ q depends, firstLoop [mcFrom, mcTo] = .ok q ∧
    q.runtaskentries.get? ⟨"x".toList, 0, "do_a".toList⟩ = some depends ∧
    ⟨"y".toList, 2, "do_t".toList⟩ ∈ depends ∧
    ¬ Declares [mcFrom, mcTo] mcFrom 0 "do_a".toList ⟨"y".toList, 2, "do_t".toList⟩ := by
  refine ⟨_, _, rfl, rfl, by decide, ?_⟩
  intro h
  cases h with
  | parent p hp => exact absurd hp List.not_mem_nil
  | deptask k hu =>
    obtain ⟨text, htext, -⟩ := hu
    cases htext
  | recrdeptask k hu =>
    obtain ⟨text, htext, -⟩ := hu
    cases htext
  | depends k d f hd =>
    obtain ⟨text, htext, -⟩ := hd
    cases htext
  | mcdepends dep hdep hu =>
    obtain ⟨text, htext, hdep⟩ := hdep
    cases htext
    have hwords : words "mc:x:y:p:do_s".toList = ["mc:x:y:p:do_s".toList] := by decide
    rw [hwords] at hdep
    rw [List.mem_singleton.1 hdep] at hu
    obtain ⟨-, m', -, f, -, hu⟩ := hu
    have htask : "do_t".toList = ("mc:x:y:p:do_s".toList.splitOn ':').getD 4 [] :=
      congrArg Tid.task hu
    exact absurd htask (by decide)

end Prepare
end BitBake
end OpenBmc
