import OpenBmc.BitBake.Scheduler
import OpenBmc.Lib.Thread

/-!
# The orders of the schedulers

The speed scheduler lists the tasks by weight. The completion scheduler merges the task names of the
recipes, as `Thread` does, and moves the tasks of each name together, keeping their order. The merged
list keeps the order of all recipes only where their names are placed in it (`completion_order`).
-/

namespace OpenBmc
namespace BitBake
namespace Scheduler
open Py Names

/-! ### Grouping -/

section Group
variable {α κ β : Type} [DecidableEq κ]

theorem get?_foldl_push (key : α → κ) (val : α → β) (l : List α) (d : Dict κ (List β)) (k : κ) :
    (l.foldl (fun d a => push d (key a) (val a)) d).get? k =
      if l.filter (fun a => key a = k) = [] then d.get? k
      else some ((d.get? k).getD [] ++ (l.filter fun a => key a = k).map val) := by
  induction l generalizing d with
  | nil => simp
  | cons a l ih =>
    rw [List.foldl_cons, ih, push, Dict.get?_set]
    by_cases ha : key a = k
    · subst ha
      by_cases hl : l.filter (fun b => key b = key a) = [] <;> simp [hl]
    · have ha' : ¬ k = key a := fun h => ha h.symm
      simp [ha, ha']

theorem getD_foldl_push (key : α → κ) (val : α → β) (l : List α) (k : κ) :
    ((l.foldl (fun d a => push d (key a) (val a)) Dict.empty).get? k).getD [] =
      (l.filter fun a => key a = k).map val := by
  rw [get?_foldl_push]
  split
  case isTrue hl => rw [hl]; rfl
  case isFalse => simp

theorem mem_foldl_push (key : α → κ) (val : α → β) (l : List α) (k : κ) :
    k ∈ l.foldl (fun d a => push d (key a) (val a)) Dict.empty ↔ ∃ a ∈ l, key a = k := by
  rw [Dict.mem_iff_get?_isSome, get?_foldl_push]
  by_cases hl : l.filter (fun a => key a = k) = []
  · rw [if_pos hl]
    rw [List.filter_eq_nil_iff] at hl
    simpa using hl
  · rw [if_neg hl]
    obtain ⟨a, ha⟩ := List.exists_mem_of_ne_nil _ hl
    rw [List.mem_filter, decide_eq_true_iff] at ha
    exact iff_of_true ⟨_, rfl⟩ ⟨a, ha⟩

/-- The groups of all keys are the whole list. -/
theorem perm_flatMap_filter {keys : List κ} {l : List α} {key : α → κ} (hkeys : keys.Nodup)
    (h : ∀ a ∈ l, key a ∈ keys) : (keys.flatMap fun k => l.filter fun a => key a = k).Perm l := by
  induction keys generalizing l with
  | nil =>
    rw [List.eq_nil_iff_forall_not_mem.2 fun a ha => absurd (h a ha) List.not_mem_nil]
    rfl
  | cons k keys ih =>
    obtain ⟨hk, hkeys⟩ := List.nodup_cons.1 hkeys
    have hrest : ∀ a ∈ l.filter (fun a => ¬ key a = k), key a ∈ keys := by
      intro a ha
      rw [List.mem_filter, decide_eq_true_iff] at ha
      exact (List.mem_cons.1 (h a ha.1)).resolve_left ha.2
    have hsame : (keys.flatMap fun k' => l.filter fun a => key a = k') =
        keys.flatMap fun k' => (l.filter fun a => ¬ key a = k).filter fun a => key a = k' := by
      refine List.flatMap_congr fun k' hk' => ?_
      rw [List.filter_filter]
      refine List.filter_congr fun a _ => ?_
      have hne : key a = k' → key a ≠ k := fun heq heq' => hk (heq' ▸ heq ▸ hk')
      by_cases ha : key a = k' <;> simp [ha] at hne ⊢
      exact hne
    rw [List.flatMap_cons, hsame]
    refine ((ih hkeys hrest).append_left _).trans ?_
    simpa using List.filter_append_perm (fun a => decide (key a = k)) l

end Group

/-! ### The speed scheduler -/

theorem speedOrder_perm (d : RunQueueData) : (speedOrder d).Perm d.tids := by
  rw [speedOrder]
  refine (List.reverse_perm _).trans ?_
  have hgroup : ∀ weight, ((d.tids.foldl (fun weights tid => push weights (d.weight tid) tid)
      Dict.empty).get? weight).getD [] = d.tids.filter fun tid => d.weight tid = weight := by
    intro weight
    have hfold := getD_foldl_push d.weight (fun tid => tid) d.tids weight
    rwa [List.map_id'] at hfold
  simp only [hgroup]
  refine perm_flatMap_filter (nodup_sorted _) fun tid htid => ?_
  rw [mem_sorted, List.mem_toFinset]
  exact (mem_foldl_push d.weight (fun tid => tid) d.tids (d.weight tid)).2 ⟨tid, htid, rfl⟩

/-! ### The merge -/

open Thread

/-- The variables of the merge as a list with a gap. -/
def mergeOf (z : Gap Str) : Merge where
  allTasks := z.list
  index := z.before.length
  oldTask := z.after.head?

theorem getElem?_length (l l' : List Str) : (l ++ l')[l.length]? = l'.head? := by
  rw [List.getElem?_append_right le_rfl, Nat.sub_self, List.head?_eq_getElem?]

theorem idxOf?_eq_takeWhile {l : List Str} {x : Str} (h : x ∈ l) :
    l.idxOf? x = some (l.takeWhile (· ≠ x)).length := by
  induction l with
  | nil => exact absurd h List.not_mem_nil
  | cons a l ih =>
    rw [List.idxOf?_cons]
    by_cases ha : a = x
    · simp [ha]
    · have hmem : x ∈ l := (List.mem_cons.1 h).resolve_left (Ne.symm ha)
      simp [ha, ih hmem]

theorem insertIdx_length_append {α : Type} (l r : List α) (x : α) :
    (l ++ r).insertIdx l.length x = l ++ x :: r := by
  induction l with
  | nil => rfl
  | cons a l ih => rw [List.cons_append, List.length_cons, List.insertIdx_succ_cons, ih]; rfl

theorem mergeOf_behind (l : List Str) (x : Str) (r : List Str) :
    mergeOf ⟨l ++ [x], r⟩ = ⟨l ++ x :: r, l.length + 1, (l ++ x :: r)[l.length + 1]?⟩ := by
  have happ : l ++ x :: r = (l ++ [x]) ++ r := by simp
  have hlen : l.length + 1 = (l ++ [x]).length := by simp
  rw [happ, hlen, getElem?_length]
  rfl

theorem mergeTask_mergeOf {z : Gap Str} (h : z.list.Nodup) (newTask : Str) :
    mergeTask (mergeOf z) newTask = mergeOf (z.visit newTask) := by
  obtain ⟨before, after⟩ := z
  rw [mergeTask]
  split
  case isTrue hold =>
    obtain ⟨rest, rfl⟩ : ∃ rest, after = newTask :: rest := by
      cases after with
      | nil => cases hold
      | cons a rest => exact ⟨rest, by rw [Option.some.inj hold]⟩
    have hnot : newTask ∉ before := by
      intro hmem
      exact (List.nodup_append.1 h).2.2 newTask hmem newTask (List.mem_cons_self ..) rfl
    rw [visit_of_split rfl hnot, mergeOf_behind]
    rfl
  case isFalse hold =>
    by_cases hmem : newTask ∈ (⟨before, after⟩ : Gap Str).list
    · have hindex : (mergeOf ⟨before, after⟩).allTasks.idxOf? newTask = some _ := idxOf?_eq_takeWhile hmem
      rw [hindex, Gap.visit, if_pos hmem, mergeOf_behind, ← split_at hmem]
      rfl
    · have hindex : (mergeOf ⟨before, after⟩).allTasks.idxOf? newTask = none :=
        List.idxOf?_eq_none_iff.2 hmem
      have hlen : before.length + 1 = (before ++ [newTask]).length := by simp
      have happ : before ++ newTask :: after = before ++ [newTask] ++ after := by simp
      rw [hindex, Gap.visit, if_neg hmem]
      show Merge.mk ((before ++ after).insertIdx before.length newTask) (before.length + 1) after.head? = _
      rw [insertIdx_length_append, hlen, happ]
      rfl

theorem mergeRecipe_eq {allTasks newTasks : List Str} (h : allTasks.Nodup) :
    mergeRecipe allTasks newTasks = thread allTasks newTasks := by
  suffices hfold : ∀ z : Gap Str, z.list.Nodup →
      newTasks.foldl mergeTask (mergeOf z) = mergeOf (newTasks.foldl Gap.visit z) by
    have hstart : mergeOf ⟨[], allTasks⟩ = ⟨allTasks, 0, allTasks[0]?⟩ := by
      rw [← List.head?_eq_getElem?]
      rfl
    rw [mergeRecipe, ← hstart, hfold ⟨[], allTasks⟩ h]
    rfl
  induction newTasks with
  | nil => exact fun _ _ => rfl
  | cons newTask newTasks ih =>
    intro z hz
    rw [List.foldl_cons, mergeTask_mergeOf hz, ih _ (nodup_visit hz newTask)]
    rfl

theorem nodup_thread {l : List Str} (h : l.Nodup) (xs : List Str) : (thread l xs).Nodup := by
  suffices hfold : ∀ z : Gap Str, z.list.Nodup → (xs.foldl Gap.visit z).list.Nodup from hfold ⟨[], l⟩ h
  induction xs with
  | nil => exact fun _ hz => hz
  | cons x xs ih => exact fun z hz => ih _ (nodup_visit hz x)

theorem mergedTasks_eq (prioMap : List Tid) :
    mergedTasks prioMap = threadAll (taskLists prioMap).values := by
  suffices hfold : ∀ (ls : List (List Str)) (l : List Str), l.Nodup →
      ls.foldl mergeRecipe l = ls.foldl thread l from hfold _ [] List.nodup_nil
  intro ls
  induction ls with
  | nil => exact fun _ _ => rfl
  | cons xs ls ih =>
    intro l hl
    rw [List.foldl_cons, List.foldl_cons, mergeRecipe_eq hl, ih _ (nodup_thread hl xs)]

/-! ### The task lists -/

theorem tid_eq (tid : Tid) : tid.1 = fn tid ++ ':' :: taskname tid := by
  have hjoin := @rpartition_join ':' tid.1
  obtain ⟨b, hb⟩ : ∃ b, (rpartition ':' tid.1).1 = some b := by
    rcases h : rpartition ':' tid.1 with ⟨_ | b, a⟩
    · exact absurd tid.2 (rpartition_none h).2
    · exact ⟨b, rfl⟩
  rw [fn, taskname, fnFromTid, tasknameFromTid, rsplit, hb]
  rw [hb] at hjoin
  simpa using hjoin

theorem mem_values_taskLists {prioMap : List Tid} {xs : List Str}
    (h : xs ∈ (taskLists prioMap).values) :
    ∃ recipe, xs = (prioMap.filter fun tid => fn tid = recipe).map taskname := by
  obtain ⟨recipe, hget⟩ := Dict.mem_values_iff.1 h
  have hgroup := getD_foldl_push fn taskname prioMap recipe
  have hget' : (prioMap.foldl (fun d tid => push d (fn tid) (taskname tid)) Dict.empty).get? recipe =
      some xs := hget
  rw [hget', Option.getD_some] at hgroup
  exact ⟨recipe, hgroup⟩

theorem taskLists_nodup {prioMap : List Tid} (h : prioMap.Nodup) :
    ∀ xs ∈ (taskLists prioMap).values, xs.Nodup := by
  intro xs hxs
  obtain ⟨recipe, rfl⟩ := mem_values_taskLists hxs
  refine List.Nodup.map_on ?_ (h.filter _)
  intro t ht u hu heq
  have ht' := of_decide_eq_true (List.mem_filter.1 ht).2
  have hu' := of_decide_eq_true (List.mem_filter.1 hu).2
  refine Subtype.ext ?_
  rw [tid_eq t, tid_eq u, ht', hu', heq]

theorem exists_mem_taskLists {prioMap : List Tid} {name : Str} :
    (∃ xs ∈ (taskLists prioMap).values, name ∈ xs) ↔ ∃ tid ∈ prioMap, taskname tid = name := by
  constructor
  · rintro ⟨xs, hxs, hname⟩
    obtain ⟨recipe, rfl⟩ := mem_values_taskLists hxs
    obtain ⟨tid, htid, rfl⟩ := List.mem_map.1 hname
    exact ⟨tid, (List.mem_filter.1 htid).1, rfl⟩
  · rintro ⟨tid, htid, rfl⟩
    have hmem : fn tid ∈ taskLists prioMap := (mem_foldl_push fn taskname prioMap (fn tid)).2 ⟨tid, htid, rfl⟩
    obtain ⟨xs, hxs⟩ := Dict.mem_iff_get?_isSome.1 hmem
    have hgroup := getD_foldl_push fn taskname prioMap (fn tid)
    have hxs' : (prioMap.foldl (fun d tid => push d (fn tid) (taskname tid)) Dict.empty).get? (fn tid) =
        some xs := hxs
    rw [hxs', Option.getD_some] at hgroup
    refine ⟨xs, Dict.mem_values_of_get? hxs, ?_⟩
    rw [hgroup]
    exact List.mem_map_of_mem (List.mem_filter.2 ⟨htid, decide_eq_true rfl⟩)

/-! ### The regrouping -/

theorem groupAt_eq {task : Str} {A U R : List Tid} {tid : Tid} :
    groupAt task (A ++ U ++ tid :: R, A.length) (A.length + U.length) =
      if taskname tid = task then (A ++ tid :: (U ++ R), A.length + 1)
      else (A ++ U ++ tid :: R, A.length) := by
  have hlen : A.length + U.length = (A ++ U).length := List.length_append.symm
  have hget : (A ++ U ++ tid :: R)[A.length + U.length]? = some tid := by
    rw [hlen, List.getElem?_append_right le_rfl]
    simp
  have herase : (A ++ U ++ tid :: R).eraseIdx (A.length + U.length) = A ++ (U ++ R) := by
    rw [hlen, List.eraseIdx_append_of_length_le le_rfl, List.append_assoc]
    simp
  simp only [groupAt, hget, herase, insertIdx_length_append]

theorem groupAt_foldl (task : Str) (A U R : List Tid) :
    (List.range' (A.length + U.length) R.length).foldl (groupAt task) (A ++ U ++ R, A.length) =
      (A ++ R.filter (fun tid => taskname tid = task) ++
          (U ++ R.filter fun tid => taskname tid ≠ task),
        (A ++ R.filter fun tid => taskname tid = task).length) := by
  induction R generalizing A U with
  | nil => simp
  | cons tid R ih =>
    rw [List.length_cons, List.range'_succ, List.foldl_cons, groupAt_eq]
    by_cases htid : taskname tid = task
    · rw [if_pos htid]
      have hA : A.length + 1 = (A ++ [tid]).length := by simp
      have hindex : A.length + U.length + 1 = (A ++ [tid]).length + U.length := by
        rw [← hA]
        omega
      have happ : A ++ tid :: (U ++ R) = A ++ [tid] ++ U ++ R := by simp
      rw [hindex, happ, hA, ih]
      simp [htid]
    · rw [if_neg htid]
      have hindex : A.length + U.length + 1 = A.length + (U ++ [tid]).length := by
        rw [List.length_append]
        rfl
      have happ : A ++ U ++ tid :: R = A ++ (U ++ [tid]) ++ R := by simp
      rw [hindex, happ, ih]
      simp [htid]

theorem groupTask_eq (task : Str) (A R : List Tid) :
    groupTask (A ++ R).length (A ++ R, A.length) task =
      (A ++ R.filter (fun tid => taskname tid = task) ++ R.filter (fun tid => taskname tid ≠ task),
        (A ++ R.filter fun tid => taskname tid = task).length) := by
  have hlen : (A ++ R).length - A.length = R.length := by
    rw [List.length_append]
    omega
  have hfold := groupAt_foldl task A [] R
  simpa [groupTask, hlen] using hfold

theorem groupTask_foldl {names : List Str} (hnames : names.Nodup) (A R : List Tid) :
    names.foldl (groupTask (A ++ R).length) (A ++ R, A.length) =
      (A ++ (names.flatMap fun name => R.filter fun tid => taskname tid = name) ++
          R.filter (fun tid => taskname tid ∉ names),
        (A ++ names.flatMap fun name => R.filter fun tid => taskname tid = name).length) := by
  induction names generalizing A R with
  | nil => simp
  | cons name names ih =>
    obtain ⟨hname, hnames⟩ := List.nodup_cons.1 hnames
    rw [List.foldl_cons, groupTask_eq]
    have hlen : (A ++ R).length = (A ++ R.filter (fun tid => taskname tid = name) ++
        R.filter (fun tid => taskname tid ≠ name)).length := by
      have hperm := (List.filter_append_perm (fun tid => decide (taskname tid = name)) R).length_eq
      simp only [List.length_append] at hperm ⊢
      simp only [decide_not] at hperm ⊢
      omega
    have hgroup : (names.flatMap fun name' => (R.filter fun tid => taskname tid ≠ name).filter
        fun tid => taskname tid = name') =
        names.flatMap fun name' => R.filter fun tid => taskname tid = name' := by
      refine List.flatMap_congr fun name' hname' => ?_
      rw [List.filter_filter]
      refine List.filter_congr fun tid _ => ?_
      have hne : name' ≠ name := fun heq => hname (heq ▸ hname')
      by_cases htid : taskname tid = name' <;> simp [htid, hne]
    have hrest : (R.filter fun tid => taskname tid ≠ name).filter (fun tid => taskname tid ∉ names) =
        R.filter fun tid => taskname tid ∉ name :: names := by
      rw [List.filter_filter]
      refine List.filter_congr fun tid _ => ?_
      rw [← Bool.decide_and, decide_eq_decide, List.mem_cons, not_or, and_comm]
    rw [hlen, ih hnames, hgroup, hrest]
    simp [List.append_assoc]

theorem mem_mergedTasks {prioMap : List Tid} (h : prioMap.Nodup) {name : Str} :
    name ∈ mergedTasks prioMap ↔ ∃ tid ∈ prioMap, taskname tid = name := by
  rw [mergedTasks_eq, (threadAll_spec (taskLists_nodup h)).2, exists_mem_taskLists]

theorem nodup_mergedTasks {prioMap : List Tid} (h : prioMap.Nodup) : (mergedTasks prioMap).Nodup := by
  rw [mergedTasks_eq]
  exact threadAll_nodup (taskLists_nodup h)

/-- The groups in the reverse order of the merged list, each in the order of the speed scheduler. -/
theorem completionOrder_eq {prioMap : List Tid} (h : prioMap.Nodup) :
    completionOrder prioMap =
      (mergedTasks prioMap).reverse.flatMap fun name => prioMap.filter fun tid => taskname tid = name := by
  have hfold := groupTask_foldl (List.nodup_reverse.2 (nodup_mergedTasks h)) [] prioMap
  have hnone : prioMap.filter (fun tid => taskname tid ∉ (mergedTasks prioMap).reverse) = [] := by
    refine List.filter_eq_nil_iff.2 fun tid htid => ?_
    simpa using (mem_mergedTasks h).2 ⟨tid, htid, rfl⟩
  rw [hnone] at hfold
  rw [completionOrder]
  simpa using congrArg Prod.fst hfold

theorem completionOrder_perm {prioMap : List Tid} (h : prioMap.Nodup) :
    (completionOrder prioMap).Perm prioMap := by
  rw [completionOrder_eq h]
  refine perm_flatMap_filter (List.nodup_reverse.2 (nodup_mergedTasks h)) fun tid htid => ?_
  exact List.mem_reverse.2 ((mem_mergedTasks h).2 ⟨tid, htid, rfl⟩)

/-! ### Common extensions -/

/-- `l` lists the names of all recipes, in the order of each. -/
structure CommonExtension (lists : List (List Str)) (l : List Str) : Prop where
  nodup : l.Nodup
  mem : ∀ name, name ∈ l ↔ ∃ xs ∈ lists, name ∈ xs
  sublist : ∀ xs ∈ lists, xs.Sublist l

theorem commonExtension_mergedTasks_iff {prioMap : List Tid} (h : prioMap.Nodup) :
    CommonExtension (taskLists prioMap).values (mergedTasks prioMap) ↔
      Ascending (taskLists prioMap).values := by
  have hlists := taskLists_nodup h
  rw [← sublist_threadAll_iff hlists, ← mergedTasks_eq]
  refine ⟨CommonExtension.sublist, fun hsub => ⟨nodup_mergedTasks h, fun name => ?_, hsub⟩⟩
  rw [mergedTasks_eq, (threadAll_spec hlists).2]

/-- The merged list has every task name once, and the order of the completion scheduler is that of the
speed scheduler with the names grouped in its reverse order. Where the recipes have a common extension
the merged list is one exactly if the names of each recipe are placed in its order. -/
theorem completion_order (speed : {l : List Tid // l.Nodup}) :
    (mergedTasks speed.1).Nodup ∧
    (∀ name, name ∈ mergedTasks speed.1 ↔ ∃ tid ∈ speed.1, taskname tid = name) ∧
    (completionOrder speed.1).Perm speed.1 ∧
    completionOrder speed.1 =
      ((mergedTasks speed.1).reverse.flatMap fun name =>
        speed.1.filter fun tid => taskname tid = name) ∧
    (((∃ l, CommonExtension (taskLists speed.1).values l) →
        CommonExtension (taskLists speed.1).values (mergedTasks speed.1)) ↔
      ((∃ l, CommonExtension (taskLists speed.1).values l) →
        Ascending (taskLists speed.1).values)) := by
  refine ⟨nodup_mergedTasks speed.2, fun name => mem_mergedTasks speed.2,
    completionOrder_perm speed.2, completionOrder_eq speed.2, ?_⟩
  rw [commonExtension_mergedTasks_iff speed.2]

def threeRecipes : List Tid :=
  [⟨"p.bb:do_a".toList, by decide⟩, ⟨"p.bb:do_b".toList, by decide⟩, ⟨"q.bb:do_x".toList, by decide⟩,
    ⟨"q.bb:do_y".toList, by decide⟩, ⟨"r.bb:do_b".toList, by decide⟩, ⟨"r.bb:do_x".toList, by decide⟩]

/-- The names of the second recipe go to the front, also where the third has them behind those of the
first. -/
theorem merged_not_extension : threeRecipes.Nodup ∧
    (∃ l, CommonExtension (taskLists threeRecipes).values l) ∧
    ¬ CommonExtension (taskLists threeRecipes).values (mergedTasks threeRecipes) := by
  have hlists : (taskLists threeRecipes).values =
      [["do_a".toList, "do_b".toList], ["do_x".toList, "do_y".toList],
        ["do_b".toList, "do_x".toList]] := by decide
  have hmerged : mergedTasks threeRecipes =
      ["do_x".toList, "do_y".toList, "do_a".toList, "do_b".toList] := by decide
  rw [hlists, hmerged]
  refine ⟨by decide, ⟨["do_a".toList, "do_b".toList, "do_x".toList, "do_y".toList], by decide, ?_, ?_⟩, ?_⟩
  · intro name
    simp only [List.mem_cons, List.not_mem_nil, or_false, exists_eq_or_imp, exists_eq_left]
    tauto
  · intro xs hxs
    simp only [List.mem_cons, List.not_mem_nil, or_false] at hxs
    rcases hxs with rfl | rfl | rfl <;> decide
  · intro h
    have hsub := h.sublist ["do_b".toList, "do_x".toList] (by decide)
    exact absurd hsub (by decide)

end Scheduler
end BitBake
end OpenBmc
