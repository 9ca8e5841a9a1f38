import OpenBmc.BitBake.RecursiveDeps
import Mathlib.Data.Finset.Card

/-!
# The files below each task

`Collating` is the invariant of the rounds: the tasks followed so far are closed under dependencies,
the endpoints are the next ones whose dependencies are all followed, and each task has collected the
files of its followed dependencies and all below these. In an acyclic graph the rounds end when every
task was followed (`collateRounds_spec`).
-/

namespace OpenBmc
namespace BitBake
namespace RecursiveDeps
open Py Relation RunTasks

variable {Fn : Type} [DecidableEq Fn]

namespace RunTasks
variable (g : RunTasks Fn)

/-- `u` is a dependency of `t`. -/
def Below (t u : Fn × Str) : Prop := t ∈ g.tids ∧ u ∈ g.depends t

/-- Some task of the file is in the closure of the dependencies of `t`. -/
def FileBelow (t : Fn × Str) (f : Fn) : Prop := ∃ u, TransGen g.Below t u ∧ u.1 = f

end RunTasks

variable {g : RunTasks Fn} {o : Orders Fn}

omit [DecidableEq Fn] in
theorem fileBelow_iff {t : Fn × Str} {f : Fn} :
    g.FileBelow t f ↔ ∃ u, g.Below t u ∧ (f = u.1 ∨ g.FileBelow u f) := by
  constructor
  · rintro ⟨u, hu, rfl⟩
    obtain ⟨v, hv, hvu⟩ := TransGen.head'_iff.1 hu
    rcases reflTransGen_iff_eq_or_transGen.1 hvu with rfl | hvu
    · exact ⟨u, hv, .inl rfl⟩
    · exact ⟨v, hv, .inr ⟨u, hvu, rfl⟩⟩
  · rintro ⟨u, hu, rfl | ⟨v, hv, rfl⟩⟩
    · exact ⟨u, .single hu, rfl⟩
    · exact ⟨v, .head hu hv, rfl⟩

omit [DecidableEq Fn] in
theorem RunTasks.Below.mem {t u : Fn × Str} (h : g.Below t u) : u ∈ g.tids := g.closed t h.1 u h.2

/-! ### One round -/

/-- What following the edges `es` does. -/
structure Collated (es : List ((Fn × Str) × (Fn × Str))) (c c' : Chains Fn) : Prop where
  deps : ∀ d x, x ∈ c'.deps d ↔ x ∈ c.deps d ∧ (x, d) ∉ es
  cumulativedeps : ∀ d f, f ∈ c'.cumulativedeps d ↔ f ∈ c.cumulativedeps d ∨
    ∃ tid, (tid, d) ∈ es ∧ (f = tid.1 ∨ f ∈ c.cumulativedeps tid)
  next : ∀ d, d ∈ c'.next ↔ d ∈ c.next ∨ (∃ tid, (tid, d) ∈ es) ∧ c'.deps d = []

theorem collate_deps (c : Chains Fn) (e : (Fn × Str) × (Fn × Str)) (d : Fn × Str) :
    (collate c e).deps d = if d = e.2 then (c.deps d).filter (· ≠ e.1) else c.deps d := by
  show Function.update c.deps e.2 _ d = _
  rw [Function.update_apply]
  split
  · rename_i h
    rw [h]
  · rfl

theorem collate_cumulativedeps (c : Chains Fn) (e : (Fn × Str) × (Fn × Str)) (d : Fn × Str) :
    (collate c e).cumulativedeps d =
      if d = e.2 then c.cumulativedeps d ++ e.1.1 :: c.cumulativedeps e.1
      else c.cumulativedeps d := by
  show Function.update c.cumulativedeps e.2 _ d = _
  rw [Function.update_apply]
  split
  · rename_i h
    rw [h]
  · rfl

theorem mem_collate_next (c : Chains Fn) (e : (Fn × Str) × (Fn × Str)) (d : Fn × Str) :
    d ∈ (collate c e).next ↔ d ∈ c.next ∨ d = e.2 ∧ (collate c e).deps e.2 = [] := by
  show d ∈ (if (collate c e).deps e.2 = [] then c.next ++ [e.2] else c.next) ↔ _
  split
  · rename_i h
    rw [List.mem_append, List.mem_singleton]
    simp [h]
  · rename_i h
    simp [h]

/-- No edge leads to a task that another one comes from, so what is collected from is settled. -/
theorem foldl_collate {es : List ((Fn × Str) × (Fn × Str))} (c : Chains Fn)
    (hes : ∀ e ∈ es, ∀ e' ∈ es, e.1 ≠ e'.2) : Collated es c (es.foldl collate c) := by
  induction es generalizing c with
  | nil => exact ⟨by simp, by simp, by simp⟩
  | cons e es ih =>
    have h := ih (collate c e) fun a ha b hb =>
      hes a (List.mem_cons_of_mem _ ha) b (List.mem_cons_of_mem _ hb)
    rw [List.foldl_cons]
    have hdeps : ∀ d x, x ∈ (es.foldl collate (collate c e)).deps d ↔
        x ∈ c.deps d ∧ (x, d) ∉ e :: es := by
      intro d x
      rw [h.deps, collate_deps, List.mem_cons, not_or]
      by_cases hd : d = e.2
      · have hpair : (x, d) = e ↔ x = e.1 := ⟨congrArg Prod.fst, fun h => Prod.ext h hd⟩
        rw [if_pos hd, List.mem_filter, hpair]
        simp [and_assoc]
      · have hpair : (x, d) ≠ e := fun h => hd (congrArg Prod.snd h)
        rw [if_neg hd]
        simp [hpair]
    refine ⟨hdeps, fun d f => ?_, fun d => ?_⟩
    · have hsame : ∀ tid, (tid, d) ∈ es →
          (collate c e).cumulativedeps tid = c.cumulativedeps tid := by
        intro tid hmem
        rw [collate_cumulativedeps, if_neg]
        exact hes (tid, d) (List.mem_cons_of_mem _ hmem) e (List.mem_cons_self ..)
      have hrest : (∃ tid, (tid, d) ∈ es ∧ (f = tid.1 ∨ f ∈ (collate c e).cumulativedeps tid)) ↔
          ∃ tid, (tid, d) ∈ es ∧ (f = tid.1 ∨ f ∈ c.cumulativedeps tid) := by
        refine exists_congr fun tid => and_congr_right fun hmem => ?_
        rw [hsame tid hmem]
      rw [h.cumulativedeps, hrest, collate_cumulativedeps]
      by_cases hd : d = e.2
      · rw [if_pos hd, List.mem_append, List.mem_cons, or_assoc]
        refine or_congr_right ⟨?_, ?_⟩
        · rintro (hf | ⟨tid, hmem, hf⟩)
          · exact ⟨e.1, List.mem_cons.2 (.inl (Prod.ext rfl hd)), hf⟩
          · exact ⟨tid, List.mem_cons_of_mem _ hmem, hf⟩
        · rintro ⟨tid, hmem, hf⟩
          rcases List.mem_cons.1 hmem with heq | hmem
          · rw [← heq]
            exact .inl hf
          · exact .inr ⟨tid, hmem, hf⟩
      · rw [if_neg hd]
        refine or_congr_right (exists_congr fun tid => and_congr_left fun _ => ?_)
        rw [List.mem_cons]
        exact ⟨.inr, fun h => h.resolve_left fun heq => hd (congrArg Prod.snd heq)⟩
    · rw [h.next, mem_collate_next, or_assoc]
      refine or_congr_right ⟨?_, ?_⟩
      · rintro (⟨rfl, hnil⟩ | ⟨⟨tid, hmem⟩, hnil⟩)
        · refine ⟨⟨e.1, List.mem_cons_self ..⟩, List.eq_nil_iff_forall_not_mem.2 fun x hx => ?_⟩
          have hx' := ((h.deps _ x).1 hx).1
          rw [hnil] at hx'
          exact List.not_mem_nil hx'
        · exact ⟨⟨tid, List.mem_cons_of_mem _ hmem⟩, hnil⟩
      · rintro ⟨⟨tid, hmem⟩, hnil⟩
        by_cases hrest : ∃ tid, (tid, d) ∈ es
        · exact .inr ⟨hrest, hnil⟩
        · -- the first edge is the last one to lead to `d`
          refine .inl ?_
          rcases List.mem_cons.1 hmem with heq | hmem
          · have hd : d = e.2 := congrArg Prod.snd heq
            refine ⟨hd, List.eq_nil_iff_forall_not_mem.2 fun x hx => ?_⟩
            rw [← hd] at hx
            have hx' := (h.deps d x).2 ⟨hx, fun hmem => hrest ⟨x, hmem⟩⟩
            rw [hnil] at hx'
            exact List.not_mem_nil hx'
          · exact absurd ⟨tid, hmem⟩ hrest

/-! ### The rounds -/

/-- The state of the loop when the tasks of `P` have been followed. -/
structure Collating (g : RunTasks Fn) (P : Fn × Str → Prop) (endpoints : List (Fn × Str))
    (c : Chains Fn) : Prop where
  closed : ∀ t u, P t → g.Below t u → P u
  deps : ∀ t x, x ∈ c.deps t ↔ g.Below t x ∧ ¬ P x
  cumulativedeps : ∀ t f, f ∈ c.cumulativedeps t ↔
    ∃ u, g.Below t u ∧ P u ∧ (f = u.1 ∨ g.FileBelow u f)
  endpoints : ∀ t, t ∈ endpoints ↔ t ∈ g.tids ∧ ¬ P t ∧ ∀ u, g.Below t u → P u

theorem collating_start : Collating g (fun _ => False) g.endpoints g.startChains where
  closed t u h _ := h
  deps t x := by
    show x ∈ (if t ∈ g.tids then g.depends t else []) ↔ _
    split
    · simp [Below, *]
    · simp [Below, *]
  cumulativedeps t f := by simp [startChains]
  endpoints t := by
    rw [RunTasks.endpoints, List.mem_filter, decide_eq_true_eq, List.eq_nil_iff_forall_not_mem]
    refine and_congr_right fun ht => ?_
    simp [Below, ht]

theorem mem_roundEdges {endpoints : List (Fn × Str)} {x d : Fn × Str} :
    (x, d) ∈ g.roundEdges o endpoints ↔ x ∈ endpoints ∧ g.Below d x := by
  rw [roundEdges, List.mem_flatMap]
  constructor
  · rintro ⟨tid, htid, hmem⟩
    obtain ⟨d', hd', heq⟩ := List.mem_map.1 hmem
    cases heq
    rw [o.mem_tids, revdeps, List.mem_filter, decide_eq_true_eq] at hd'
    exact ⟨(o.mem_tids _ _).1 htid, hd'⟩
  · rintro ⟨hx, hbelow⟩
    refine ⟨x, (o.mem_tids _ _).2 hx, List.mem_map.2 ⟨d, ?_, rfl⟩⟩
    rw [o.mem_tids, revdeps, List.mem_filter, decide_eq_true_eq]
    exact hbelow

theorem Collating.round {P : Fn × Str → Prop} {endpoints : List (Fn × Str)} {c : Chains Fn}
    (h : Collating g P endpoints c) :
    Collating g (fun t => P t ∨ t ∈ endpoints) (g.collateRound o endpoints c).next
      (g.collateRound o endpoints c) := by
  have hapart : ∀ e ∈ g.roundEdges o endpoints, ∀ e' ∈ g.roundEdges o endpoints, e.1 ≠ e'.2 := by
    rintro ⟨x, d⟩ he ⟨x', d'⟩ he' rfl
    obtain ⟨hx, -⟩ := mem_roundEdges.1 he
    obtain ⟨hx', hbelow⟩ := mem_roundEdges.1 he'
    exact ((h.endpoints x').1 hx').2.1 (((h.endpoints x).1 hx).2.2 x' hbelow)
  have hc : Collated (g.roundEdges o endpoints) { c with next := [] }
      (g.collateRound o endpoints c) := foldl_collate _ hapart
  have hdeps : ∀ t x, x ∈ (g.collateRound o endpoints c).deps t ↔
      g.Below t x ∧ ¬ (P x ∨ x ∈ endpoints) := by
    intro t x
    rw [hc.deps, mem_roundEdges]
    show x ∈ c.deps t ∧ _ ↔ _
    rw [h.deps, and_assoc, not_or]
    refine and_congr_right fun hbelow => and_congr_right fun _ => ?_
    simp [hbelow]
  refine ⟨?_, hdeps, fun t f => ?_, fun t => ?_⟩
  · rintro t u (ht | ht) hbelow
    · exact .inl (h.closed t u ht hbelow)
    · exact .inl (((h.endpoints t).1 ht).2.2 u hbelow)
  · have hfile : ∀ u, u ∈ endpoints → (f ∈ c.cumulativedeps u ↔ g.FileBelow u f) := by
      intro u hu
      rw [h.cumulativedeps, fileBelow_iff]
      refine exists_congr fun v => and_congr_right fun hbelow => ?_
      exact and_iff_right (((h.endpoints u).1 hu).2.2 v hbelow)
    rw [hc.cumulativedeps]
    show f ∈ c.cumulativedeps t ∨ (∃ tid, (tid, t) ∈ _ ∧ (f = tid.1 ∨ f ∈ c.cumulativedeps tid)) ↔ _
    rw [h.cumulativedeps]
    constructor
    · rintro (⟨u, hbelow, hP, hf⟩ | ⟨u, hmem, hf⟩)
      · exact ⟨u, hbelow, .inl hP, hf⟩
      · obtain ⟨hu, hbelow⟩ := mem_roundEdges.1 hmem
        rw [hfile u hu] at hf
        exact ⟨u, hbelow, .inr hu, hf⟩
    · rintro ⟨u, hbelow, hP | hu, hf⟩
      · exact .inl ⟨u, hbelow, hP, hf⟩
      · rw [← hfile u hu] at hf
        exact .inr ⟨u, mem_roundEdges.2 ⟨hu, hbelow⟩, hf⟩
  · rw [hc.next]
    show t ∈ [] ∨ _ ↔ _
    rw [List.eq_nil_iff_forall_not_mem]
    simp only [List.not_mem_nil, false_or, mem_roundEdges, hdeps]
    constructor
    · rintro ⟨⟨x, hx, hbelow⟩, hall⟩
      have hxP := ((h.endpoints x).1 hx).2.1
      refine ⟨hbelow.1, ?_, fun u hu => ?_⟩
      · rintro (ht | ht)
        · exact hxP (h.closed t x ht hbelow)
        · exact hxP (((h.endpoints t).1 ht).2.2 x hbelow)
      · by_contra hnot
        exact hall u ⟨hu, hnot⟩
    · rintro ⟨htids, hnot, hall⟩
      rw [not_or] at hnot
      refine ⟨?_, fun x hx => hx.2 (hall x hx.1)⟩
      -- not yet an endpoint, so a dependency is followed in this round
      by_contra hnone
      refine hnot.2 ((h.endpoints t).2 ⟨htids, hnot.1, fun u hu => ?_⟩)
      rcases hall u hu with hP | hmem
      · exact hP
      · exact absurd ⟨u, hmem, hu⟩ hnone

/-- Without endpoints every task has been followed. -/
theorem Collating.finished {P : Fn × Str → Prop} {c : Chains Fn} (h : Collating g P [] c)
    (hac : ∀ t, ¬ TransGen g.Below t t) : ∀ t ∈ g.tids, P t := by
  have hacyclic : Dag.Acyclic (fun u t => g.Below t u) g.tids.toFinset := by
    refine ⟨fun u t hbelow => ?_, fun u t hbelow => ?_, fun t ht => ?_⟩
    · exact List.mem_toFinset.2 (Below.mem hbelow)
    · exact List.mem_toFinset.2 hbelow.1
    · exact hac t (transGen_swap.1 ht)
  intro t
  refine hacyclic.induction (q := fun t => t ∈ g.tids → P t) (fun t ih ht => ?_) t
  by_contra hnot
  exact List.not_mem_nil ((h.endpoints t).2 ⟨ht, hnot, fun u hu => ih u hu (Below.mem hu)⟩)

open Classical in
/-- The number of tasks that have not been followed. -/
noncomputable def unfollowed (g : RunTasks Fn) (P : Fn × Str → Prop) : ℕ :=
  (g.tids.toFinset.filter fun t => ¬ P t).card

theorem unfollowed_le (P : Fn × Str → Prop) : unfollowed g P ≤ g.tids.length := by
  classical
  exact (Finset.card_filter_le ..).trans (List.toFinset_card_le _)

theorem unfollowed_lt {P P' : Fn × Str → Prop} (hP : ∀ u, P u → P' u) {t : Fn × Str}
    (ht : t ∈ g.tids) (hnot : ¬ P t) (ht' : P' t) : unfollowed g P' < unfollowed g P := by
  classical
  refine Finset.card_lt_card (Finset.ssubset_iff_subset_ne.2 ⟨fun u hu => ?_, fun heq => ?_⟩)
  · rw [Finset.mem_filter] at hu ⊢
    exact ⟨hu.1, fun hPu => hu.2 (hP u hPu)⟩
  · have hmem : t ∈ g.tids.toFinset.filter fun t => ¬ P t :=
      Finset.mem_filter.2 ⟨List.mem_toFinset.2 ht, hnot⟩
    rw [← heq, Finset.mem_filter] at hmem
    exact hmem.2 ht'

theorem collateRounds_ok {fuel : ℕ} {P : Fn × Str → Prop} {endpoints : List (Fn × Str)}
    {c : Chains Fn} (h : Collating g P endpoints c) (hfuel : unfollowed g P < fuel) :
    ∃ c' P', g.collateRounds o fuel endpoints c = some c' ∧ Collating g P' [] c' := by
  induction fuel generalizing P endpoints c with
  | zero => omega
  | succ fuel ih =>
    rw [collateRounds]
    by_cases hend : endpoints = []
    · subst hend
      exact ⟨c, P, by rw [if_pos rfl], h⟩
    · rw [if_neg hend]
      obtain ⟨t, ht⟩ := List.exists_mem_of_ne_nil _ hend
      obtain ⟨htids, hP, -⟩ := (h.endpoints t).1 ht
      refine ih h.round (lt_of_lt_of_le ?_ (Nat.lt_succ_iff.1 hfuel))
      exact unfollowed_lt (fun u => .inl) htids hP (.inr ht)

theorem collateRounds_spec (o : Orders Fn) (hac : ∀ t, ¬ TransGen g.Below t t) :
    ∃ c, g.collateRounds o (g.tids.length + 1) g.endpoints g.startChains = some c ∧
      ∀ t f, f ∈ c.cumulativedeps t ↔ g.FileBelow t f := by
  obtain ⟨c, P, hc, h⟩ := @collateRounds_ok Fn _ g o _ _ _ _ collating_start
    (Nat.lt_succ_iff.2 (unfollowed_le _))
  refine ⟨c, hc, fun t f => ?_⟩
  rw [h.cumulativedeps, fileBelow_iff]
  refine exists_congr fun u => and_congr_right fun hbelow => ?_
  exact and_iff_right (h.finished hac u (Below.mem hbelow))

end RecursiveDeps
end BitBake
end OpenBmc
