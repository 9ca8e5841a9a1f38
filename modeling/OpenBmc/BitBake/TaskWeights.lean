import Mathlib

/-!
# Task weights

`calculate_task_weights` counts the tasks off from the endpoints: a task is ready when every task
that depends on it has been counted. `Counted` says what the loop has done when the edges `c` have
been followed. `rounds_counted` is the result: the loop ends, exactly the tasks without an infinite
descent of dependents are done, and each of these weighs what its dependents weigh, and its own.
-/

namespace OpenBmc
namespace BitBake

/-- The tasks of a run, with the tasks each depends on and the tasks that depend on it. -/
structure RunTasks (α : Type) where
  tids : List α
  depends : α → List α
  revdeps : α → List α
  nodup_tids : tids.Nodup
  nodup_depends : ∀ t, (depends t).Nodup
  nodup_revdeps : ∀ t, (revdeps t).Nodup
  symm : ∀ t r, t ∈ depends r ↔ r ∈ revdeps t
  closed : ∀ t r, r ∈ revdeps t → t ∈ tids ∧ r ∈ tids

/-- The dictionaries of the loop, and the tasks found ready in this round. -/
structure Weights (α : Type) where
  weight : α → Nat
  depsLeft : α → Int
  taskDone : α → Bool
  nextPoints : List α

variable {α : Type} [DecidableEq α]

/-- The body of the inner loop: `revdep` has one dependent fewer to wait for. -/
def countEdge (tid : α) (w : Weights α) (revdep : α) : Weights α :=
  let weight := Function.update w.weight revdep (w.weight revdep + w.weight tid)
  let depsLeft := Function.update w.depsLeft revdep (w.depsLeft revdep - 1)
  if depsLeft revdep = 0 then
    { weight, depsLeft
      nextPoints := w.nextPoints ++ [revdep]
      taskDone := Function.update w.taskDone revdep true }
  else { w with weight, depsLeft }

theorem countEdge_weight (tid : α) (w : Weights α) (t : α) : (countEdge tid w t).weight =
    Function.update w.weight t (w.weight t + w.weight tid) := by
  simp only [countEdge]
  split <;> rfl

theorem countEdge_depsLeft (tid : α) (w : Weights α) (t : α) : (countEdge tid w t).depsLeft =
    Function.update w.depsLeft t (w.depsLeft t - 1) := by
  simp only [countEdge]
  split <;> rfl

theorem countEdge_nextPoints (tid : α) (w : Weights α) (t : α) : (countEdge tid w t).nextPoints =
    if w.depsLeft t - 1 = 0 then w.nextPoints ++ [t] else w.nextPoints := by
  simp only [countEdge, Function.update_self]
  split <;> rfl

theorem countEdge_taskDone (tid : α) (w : Weights α) (t : α) : (countEdge tid w t).taskDone =
    if w.depsLeft t - 1 = 0 then Function.update w.taskDone t true else w.taskDone := by
  simp only [countEdge, Function.update_self]
  split <;> rfl

namespace RunTasks
variable (g : RunTasks α)

/-- The tasks nothing depends on. -/
def endpoints : List α := g.tids.filter fun t => g.revdeps t = []

/-- `r` depends on `t`. -/
def Dependent (r t : α) : Prop := r ∈ g.revdeps t

def startWeight (endpoints : List α) (t : α) : Nat := if t ∈ endpoints then 10 else 1

def startWeights (endpoints : List α) : Weights α where
  weight := startWeight endpoints
  depsLeft := fun t => (g.revdeps t).length
  taskDone := fun t => t ∈ endpoints
  nextPoints := []

def countTask (w : Weights α) (tid : α) : Weights α := (g.depends tid).foldl (countEdge tid) w

def countRound (endpoints : List α) (w : Weights α) : Weights α :=
  endpoints.foldl g.countTask { w with nextPoints := [] }

/-- The `while True` loop; `none` when the fuel does not suffice. -/
def countRounds : Nat → List α → Weights α → Option (Weights α)
  | 0, _, _ => none
  | fuel + 1, endpoints, w =>
    let w := g.countRound endpoints w
    if w.nextPoints = [] then some w else countRounds fuel w.nextPoints w

def problemTasks (w : Weights α) : List α :=
  g.tids.filter fun t => w.taskDone t = false ∨ w.depsLeft t ≠ 0

/-- The tasks that depend on `t`. -/
def revdepSet (t : α) : Finset α := (g.revdeps t).toFinset

variable {g}

omit [DecidableEq α] in
theorem mem_endpoints {t : α} : t ∈ g.endpoints ↔ t ∈ g.tids ∧ ∀ r, ¬ g.Dependent r t := by
  rw [endpoints, List.mem_filter, decide_eq_true_eq, List.eq_nil_iff_forall_not_mem]
  rfl

theorem mem_revdepSet {t r : α} : r ∈ g.revdepSet t ↔ g.Dependent r t := List.mem_toFinset

end RunTasks

open RunTasks Classical

/-- The edges `c`, and the edge from `tid` to `t`. -/
def follow (c : α → α → Prop) (tid t : α) : α → α → Prop := fun r u => c r u ∨ r = tid ∧ u = t

/-- The state of the loop when the edges `c` have been followed, in a round that began when the tasks
of `old` were ready. -/
structure Counted (g : RunTasks α) (old : Finset α) (c : α → α → Prop) (w : Weights α) : Prop where
  edge : ∀ r t, c r t → g.Dependent r t
  /-- A task is followed once its own weight is final. -/
  final : ∀ r t, c r t → ∀ q, g.Dependent q r → c q r
  left : ∀ t, w.depsLeft t = ((g.revdepSet t).filter fun r => ¬ c r t).card
  weight : ∀ t, w.weight t = startWeight g.endpoints t + ∑ r ∈ (g.revdepSet t).filter fun r => c r t, w.weight r
  done : ∀ t ∈ g.tids, w.taskDone t = true ↔ w.depsLeft t = 0
  ready : ∀ t ∈ g.tids, w.depsLeft t = 0 ↔ t ∈ old ∨ t ∈ w.nextPoints
  next_tid : ∀ t ∈ w.nextPoints, t ∈ g.tids
  next_new : ∀ t ∈ w.nextPoints, t ∉ old
  next_nodup : w.nextPoints.Nodup

namespace Counted
variable {g : RunTasks α} {old : Finset α} {c : α → α → Prop} {w : Weights α}

theorem left_eq_zero (h : Counted g old c w) {t : α} :
    w.depsLeft t = 0 ↔ ∀ r, g.Dependent r t → c r t := by
  rw [h.left, Nat.cast_eq_zero, Finset.card_eq_zero, Finset.filter_eq_empty_iff]
  simp only [mem_revdepSet, not_not]

theorem congr {c' : α → α → Prop} (h : Counted g old c w) (hc : ∀ r t, c r t ↔ c' r t) :
    Counted g old c' w := by
  have he : c = c' := funext fun r => funext fun t => propext (hc r t)
  exact he ▸ h

section step
variable (h : Counted g old c w) {tid t : α} (hedge : g.Dependent tid t) (hnew : ¬ c tid t)
include h hedge hnew

/-- What is followed out of a task has its weight, so nothing is followed out of `t` yet. -/
theorem not_from {u : α} : ¬ c t u := fun hc => hnew (h.final t u hc tid hedge)

theorem left_pos : 0 < w.depsLeft t := by
  rw [h.left]
  exact Nat.cast_pos.2 (Finset.card_pos.2
    ⟨tid, Finset.mem_filter.2 ⟨mem_revdepSet.2 hedge, hnew⟩⟩)

theorem left_step (u : α) : (BitBake.countEdge tid w t).depsLeft u =
    ((g.revdepSet u).filter fun r => ¬ follow c tid t r u).card := by
  rw [countEdge_depsLeft]
  by_cases hu : u = t
  · subst hu
    have hmem : tid ∈ (g.revdepSet u).filter fun r => ¬ c r u :=
      Finset.mem_filter.2 ⟨mem_revdepSet.2 hedge, hnew⟩
    have hset : ((g.revdepSet u).filter fun r => ¬ follow c tid u r u) =
        ((g.revdepSet u).filter fun r => ¬ c r u).erase tid := by
      ext r
      simp only [follow, Finset.mem_filter, Finset.mem_erase, not_or, and_true]
      exact ⟨fun hr => ⟨hr.2.2, hr.1, hr.2.1⟩, fun hr => ⟨hr.2.1, hr.2.2, hr.1⟩⟩
    rw [Function.update_self, h.left, hset, Finset.card_erase_of_mem hmem]
    have hpos := Finset.card_pos.2 ⟨tid, hmem⟩
    omega
  · rw [Function.update_of_ne hu, h.left]
    simp only [follow, hu, and_false, or_false]

theorem weight_step (hfinal : ∀ q, g.Dependent q tid → c q tid) (u : α) :
    (BitBake.countEdge tid w t).weight u = startWeight g.endpoints u +
      ∑ r ∈ (g.revdepSet u).filter fun r => follow c tid t r u,
        (BitBake.countEdge tid w t).weight r := by
  rw [countEdge_weight]
  have hne : tid ≠ t := by
    rintro rfl
    exact hnew (hfinal tid hedge)
  have hold : ∀ r, c r u → Function.update w.weight t (w.weight t + w.weight tid) r = w.weight r :=
    fun r hr => Function.update_of_ne (fun he => h.not_from hedge hnew (he ▸ hr)) ..
  have hsum : ∑ r ∈ (g.revdepSet u).filter fun r => c r u,
      Function.update w.weight t (w.weight t + w.weight tid) r =
      ∑ r ∈ (g.revdepSet u).filter fun r => c r u, w.weight r :=
    Finset.sum_congr rfl fun r hr => hold r (Finset.mem_filter.1 hr).2
  by_cases hu : u = t
  · subst hu
    have hset : ((g.revdepSet u).filter fun r => follow c tid u r u) =
        insert tid ((g.revdepSet u).filter fun r => c r u) := by
      ext r
      simp only [Finset.mem_filter, Finset.mem_insert, mem_revdepSet]
      constructor
      · rintro ⟨hr, hc | ⟨he, -⟩⟩
        · exact .inr ⟨hr, hc⟩
        · exact .inl he
      · rintro (rfl | ⟨hr, hc⟩)
        · exact ⟨hedge, .inr ⟨rfl, rfl⟩⟩
        · exact ⟨hr, .inl hc⟩
    have hnot : tid ∉ (g.revdepSet u).filter fun r => c r u := fun hm =>
      hnew (Finset.mem_filter.1 hm).2
    rw [hset, Finset.sum_insert hnot, hsum, Function.update_self, Function.update_of_ne hne,
      h.weight u]
    omega
  · simp only [follow, hu, and_false, or_false]
    rw [hsum, Function.update_of_ne hu, h.weight u]

/-- One edge more, from a task whose weight is final. -/
theorem countEdge (hfinal : ∀ q, g.Dependent q tid → c q tid) :
    Counted g old (follow c tid t) (BitBake.countEdge tid w t) := by
  have ht : t ∈ g.tids := (g.closed t tid hedge).1
  have hpos := h.left_pos hedge hnew
  have hwait : ¬ (t ∈ old ∨ t ∈ w.nextPoints) := fun hr => by
    have := (h.ready t ht).2 hr
    omega
  obtain ⟨hold, hnext⟩ := not_or.1 hwait
  refine
    { edge := ?_, final := ?_, left := h.left_step hedge hnew
      weight := h.weight_step hedge hnew hfinal, done := ?_, ready := ?_, next_tid := ?_
      next_new := ?_, next_nodup := ?_ }
  · rintro r u (hc | ⟨rfl, rfl⟩)
    · exact h.edge r u hc
    · exact hedge
  · rintro r u (hc | ⟨rfl, rfl⟩) q hq
    · exact .inl (h.final r u hc q hq)
    · exact .inl (hfinal q hq)
  · intro u hu
    rw [countEdge_taskDone, countEdge_depsLeft]
    by_cases hut : u = t
    · subst hut
      rw [Function.update_self]
      split
      · simp [*]
      · rw [h.done u hu]
        omega
    · rw [Function.update_of_ne hut]
      split
      · rw [Function.update_of_ne hut, h.done u hu]
      · exact h.done u hu
  · intro u hu
    rw [countEdge_nextPoints, countEdge_depsLeft]
    by_cases hut : u = t
    · subst hut
      rw [Function.update_self]
      split
      · simp [*]
      · simp [*]
    · rw [Function.update_of_ne hut, h.ready u hu]
      split
      · simp [hut]
      · rfl
  all_goals rw [countEdge_nextPoints]; split
  · intro u hu
    rcases List.mem_append.1 hu with hu | hu
    · exact h.next_tid u hu
    · exact (List.mem_singleton.1 hu) ▸ ht
  · exact h.next_tid
  · intro u hu
    rcases List.mem_append.1 hu with hu | hu
    · exact h.next_new u hu
    · exact (List.mem_singleton.1 hu) ▸ hold
  · exact h.next_new
  · exact List.nodup_append.2 ⟨h.next_nodup, List.nodup_singleton t, fun a ha b hb he =>
      hnext (List.mem_singleton.1 hb ▸ he ▸ ha)⟩
  · exact h.next_nodup

end step

/-- All the edges from one task whose weight is final. -/
theorem countEdges (h : Counted g old c w) {tid : α} {l : List α} (hl : l.Nodup)
    (hedge : ∀ t ∈ l, g.Dependent tid t) (hnew : ∀ t ∈ l, ¬ c tid t)
    (hfinal : ∀ q, g.Dependent q tid → c q tid) :
    Counted g old (fun r u => c r u ∨ r = tid ∧ u ∈ l) (l.foldl (BitBake.countEdge tid) w) := by
  induction l generalizing c w with
  | nil => exact h.congr fun r u => by simp
  | cons t l ih =>
    obtain ⟨htl, hl⟩ := List.nodup_cons.1 hl
    have hstep := h.countEdge (hedge t List.mem_cons_self) (hnew t List.mem_cons_self) hfinal
    have hnew' : ∀ u ∈ l, ¬ follow c tid t tid u := by
      rintro u hu (hc | ⟨-, rfl⟩)
      · exact hnew u (List.mem_cons_of_mem t hu) hc
      · exact htl hu
    refine (ih hstep hl (fun u hu => hedge u (List.mem_cons_of_mem t hu)) hnew'
      fun q hq => .inl (hfinal q hq)).congr fun r u => ?_
    simp only [follow, List.mem_cons, or_assoc, and_or_left]

/-- A whole round: all the edges from the tasks that were found ready in the last one. -/
theorem countRound {l : List α} (h : Counted g old c w) (hl : l.Nodup)
    (hnew : ∀ r ∈ l, ∀ t, ¬ c r t) (hfinal : ∀ r ∈ l, ∀ q, g.Dependent q r → c q r) :
    Counted g old (fun r u => c r u ∨ r ∈ l ∧ g.Dependent r u) (l.foldl g.countTask w) := by
  induction l generalizing c w with
  | nil => exact h.congr fun r u => by simp
  | cons r l ih =>
    obtain ⟨hrl, hl⟩ := List.nodup_cons.1 hl
    have hdep : ∀ t, t ∈ g.depends r ↔ g.Dependent r t := fun t => g.symm t r
    have hstep := h.countEdges (g.nodup_depends r) (fun t ht => (hdep t).1 ht)
      (fun t _ => hnew r List.mem_cons_self t) (hfinal r List.mem_cons_self)
    have hnew' : ∀ q ∈ l, ∀ t, ¬ (c q t ∨ q = r ∧ t ∈ g.depends r) := by
      rintro q hq t (hc | ⟨rfl, -⟩)
      · exact hnew q (List.mem_cons_of_mem r hq) t hc
      · exact hrl hq
    refine (ih hstep hl hnew' fun q hq p hp =>
      .inl (hfinal q (List.mem_cons_of_mem r hq) p hp)).congr fun q u => ?_
    by_cases hq : q = r
    · subst hq
      simp [hdep, hrl]
    · simp [hq]

end Counted

/-- The edges out of the tasks of `done`. -/
def edgesFrom (g : RunTasks α) (done : Finset α) (r t : α) : Prop := r ∈ done ∧ g.Dependent r t

/-- Between two rounds: the tasks of `done` are followed, those of `endpoints` are ready. -/
structure Round (g : RunTasks α) (done : Finset α) (endpoints : List α) (w : Weights α) : Prop where
  counted : Counted g (done ∪ endpoints.toFinset) (edgesFrom g done) { w with nextPoints := [] }
  nodup : endpoints.Nodup
  fresh : ∀ t ∈ endpoints, t ∉ done
  tids : ∀ t ∈ done ∪ endpoints.toFinset, t ∈ g.tids
  acc : ∀ t ∈ done ∪ endpoints.toFinset, Acc g.Dependent t

namespace Round
variable {g : RunTasks α} {done : Finset α} {endpoints : List α} {w : Weights α}

/-- What depends on a ready task is done. -/
theorem final (h : Round g done endpoints w) {r : α} (hr : r ∈ endpoints) :
    ∀ q, g.Dependent q r → edgesFrom g done q r := by
  have hmem : r ∈ done ∪ endpoints.toFinset :=
    Finset.mem_union_right _ (List.mem_toFinset.2 hr)
  exact h.counted.left_eq_zero.1 ((h.counted.ready r (h.tids r hmem)).2 (.inl hmem))

theorem countRound (h : Round g done endpoints w) :
    Counted g (done ∪ endpoints.toFinset) (edgesFrom g (done ∪ endpoints.toFinset))
      (g.countRound endpoints w) := by
  refine (h.counted.countRound h.nodup (fun r hr t hc => h.fresh r hr hc.1)
    fun r hr => h.final hr).congr fun r u => ?_
  simp only [edgesFrom, Finset.mem_union, List.mem_toFinset, or_and_right]

/-- The tasks found ready are the endpoints of the next round. -/
theorem next (h : Round g done endpoints w) :
    Round g (done ∪ endpoints.toFinset) (g.countRound endpoints w).nextPoints
      (g.countRound endpoints w) := by
  have hc := h.countRound
  set w' := g.countRound endpoints w
  have hready : ∀ t ∈ w'.nextPoints, ∀ r, g.Dependent r t → r ∈ done ∪ endpoints.toFinset :=
    fun t ht r hr => (hc.left_eq_zero.1 ((hc.ready t (hc.next_tid t ht)).2 (.inr ht)) r hr).1
  refine
    { counted := { hc with ready := ?_, next_tid := ?_, next_new := ?_, next_nodup := ?_ }
      nodup := hc.next_nodup, fresh := hc.next_new, tids := ?_, acc := ?_ }
  · intro t ht
    simp [hc.ready t ht, or_assoc]
  · exact fun t ht => absurd ht List.not_mem_nil
  · exact fun t ht => absurd ht List.not_mem_nil
  · exact List.nodup_nil
  · intro t ht
    rcases Finset.mem_union.1 ht with ht | ht
    · exact h.tids t ht
    · exact hc.next_tid t (List.mem_toFinset.1 ht)
  · intro t ht
    rcases Finset.mem_union.1 ht with ht | ht
    · exact h.acc t ht
    · exact ⟨t, fun r hr => h.acc r (hready t (List.mem_toFinset.1 ht) r hr)⟩

/-- The loop ends, with some tasks done and none of the others ready. -/
theorem countRounds (h : Round g done endpoints w) :
    ∃ w' done', Round g done' [] w' ∧ ∀ fuel,
      (g.tids.toFinset \ (done ∪ endpoints.toFinset)).card < fuel →
        g.countRounds fuel endpoints w = some w' := by
  generalize hn : (g.tids.toFinset \ (done ∪ endpoints.toFinset)).card = n
  induction n using Nat.strong_induction_on generalizing done endpoints w with
  | _ n ih =>
    have hnext := h.next
    have hunfold : ∀ fuel, g.countRounds (fuel + 1) endpoints w =
        if (g.countRound endpoints w).nextPoints = [] then some (g.countRound endpoints w)
        else g.countRounds fuel (g.countRound endpoints w).nextPoints (g.countRound endpoints w) :=
      fun _ => rfl
    by_cases hend : (g.countRound endpoints w).nextPoints = []
    · refine ⟨g.countRound endpoints w, done ∪ endpoints.toFinset, hend ▸ hnext, ?_⟩
      rintro (_ | fuel) hfuel
      · exact absurd hfuel (Nat.not_lt_zero _)
      · rw [hunfold, if_pos hend]
    · obtain ⟨t, ht⟩ := List.exists_mem_of_ne_nil _ hend
      -- the tasks of the next round leave those that are not ready
      have hlt : (g.tids.toFinset \ (done ∪ endpoints.toFinset ∪
          (g.countRound endpoints w).nextPoints.toFinset)).card < n := by
        rw [← hn]
        refine Finset.card_lt_card (Finset.ssubset_iff_of_subset
          (Finset.sdiff_subset_sdiff subset_rfl Finset.subset_union_left) |>.2 ⟨t, ?_, ?_⟩)
        · exact Finset.mem_sdiff.2
            ⟨List.mem_toFinset.2 (h.countRound.next_tid t ht), hnext.fresh t ht⟩
        · exact fun hm => (Finset.mem_sdiff.1 hm).2
            (Finset.mem_union_right _ (List.mem_toFinset.2 ht))
      obtain ⟨w', done', hw', hrun⟩ := ih _ hlt hnext rfl
      refine ⟨w', done', hw', ?_⟩
      rintro (_ | fuel) hfuel
      · exact absurd hfuel (Nat.not_lt_zero _)
      · rw [hunfold, if_neg hend]
        exact hrun fuel (by omega)

/-! ### The state in which the loop ends -/

variable (h : Round g done [] w)
include h

theorem depsLeft_eq_zero {t : α} (ht : t ∈ g.tids) : w.depsLeft t = 0 ↔ t ∈ done := by
  have := h.counted.ready t ht
  simpa using this

theorem mem_done {t : α} (ht : t ∈ g.tids) : t ∈ done ↔ Acc g.Dependent t := by
  constructor
  · exact fun hd => h.acc t (Finset.mem_union_left _ hd)
  · intro hacc
    induction hacc with
    | intro t _ ih =>
      refine (h.depsLeft_eq_zero ht).1 (h.counted.left_eq_zero.2 fun r hr => ?_)
      exact ⟨ih r hr (g.closed t r hr).2, hr⟩

theorem mem_problemTasks {t : α} : t ∈ g.problemTasks w ↔ t ∈ g.tids ∧ ¬ Acc g.Dependent t := by
  rw [problemTasks, List.mem_filter, decide_eq_true_eq]
  refine and_congr_right fun ht => ?_
  rw [← h.mem_done ht, ← h.depsLeft_eq_zero ht]
  have hdone : w.taskDone t = true ↔ w.depsLeft t = 0 := h.counted.done t ht
  rw [← Bool.not_eq_true, hdone, or_self]

theorem weight_eq {t : α} (hacc : Acc g.Dependent t) :
    w.weight t = startWeight g.endpoints t + ((g.revdeps t).map w.weight).sum := by
  have hall : (g.revdepSet t).filter (fun r => edgesFrom g done r t) = g.revdepSet t := by
    refine Finset.filter_true_of_mem fun r hr => ?_
    have hdep := mem_revdepSet.1 hr
    exact ⟨(h.mem_done (g.closed t r hdep).2).2 (hacc.inv hdep), hdep⟩
  have hw := h.counted.weight t
  rw [hall] at hw
  rw [← List.sum_toFinset _ (g.nodup_revdeps t)]
  exact hw

end Round

namespace RunTasks
variable {g : RunTasks α}

/-- Before the first round: nothing is done, the tasks nothing depends on are ready. -/
theorem startRound : Round g ∅ g.endpoints (g.startWeights g.endpoints) := by
  have hnone : ∀ r t, ¬ edgesFrom g ∅ r t := fun r t h => absurd h.1 (Finset.notMem_empty r)
  have hacc : ∀ t ∈ g.endpoints, Acc g.Dependent t := fun t ht =>
    ⟨t, fun r hr => absurd hr ((mem_endpoints.1 ht).2 r)⟩
  have hzero : ∀ t ∈ g.tids, (g.startWeights g.endpoints).depsLeft t = 0 ↔ t ∈ g.endpoints := by
    intro t ht
    rw [mem_endpoints, and_iff_right ht]
    show ((g.revdeps t).length : Int) = 0 ↔ _
    rw [Nat.cast_eq_zero, List.length_eq_zero_iff, List.eq_nil_iff_forall_not_mem]
    rfl
  refine
    { counted := ?_, nodup := g.nodup_tids.filter _, fresh := fun t _ => Finset.notMem_empty t
      tids := ?_, acc := ?_ }
  · refine
      { edge := fun r t h => absurd h (hnone r t), final := fun r t h => absurd h (hnone r t)
        left := ?_, weight := ?_, done := ?_, ready := ?_
        next_tid := fun t ht => absurd ht List.not_mem_nil
        next_new := fun t ht => absurd ht List.not_mem_nil, next_nodup := List.nodup_nil }
    · intro t
      rw [Finset.filter_true_of_mem fun r _ => hnone r t]
      exact congrArg Nat.cast (List.toFinset_card_of_nodup (g.nodup_revdeps t)).symm
    · intro t
      rw [Finset.filter_false_of_mem fun r _ => hnone r t]
      rfl
    · intro t ht
      rw [hzero t ht]
      exact decide_eq_true_iff
    · intro t ht
      simp [hzero t ht]
  all_goals
    intro t ht
    rw [Finset.empty_union, List.mem_toFinset] at ht
  · exact (mem_endpoints.1 ht).1
  · exact hacc t ht

/-- With fuel for every task, the loop ends. -/
theorem exists_countRounds (g : RunTasks α) : ∃ w done, Round g done [] w ∧ ∀ fuel,
    g.tids.length < fuel →
      g.countRounds fuel g.endpoints (g.startWeights g.endpoints) = some w := by
  obtain ⟨w, done, hw, hrun⟩ := (startRound (g := g)).countRounds
  refine ⟨w, done, hw, fun fuel hfuel => hrun fuel (lt_of_le_of_lt ?_ hfuel)⟩
  exact (Finset.card_le_card Finset.sdiff_subset).trans (List.toFinset_card_le g.tids)

end RunTasks

end BitBake
end OpenBmc
