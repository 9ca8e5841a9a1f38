import OpenBmc.BitBake.Deferral

/-!
# Deferrals and sstate objects

The index tells two tasks apart exactly where they do not clash (`pendingHashIndex_eq_iff`). The
set-up defers after the first task of the same index, which is not deferred itself. Later a task may
be deferred after any task that `hashes` has recorded, so no cycle arises as long as the recorded task
does not wait for it (`deferral_pairs`).
-/

namespace OpenBmc
namespace BitBake
namespace Deferral
open Py Names Relation RunData

/-! ### The index -/

theorem sep_append_eq {h h' a : Str} (heq : ":taskname".toList ++ h = a ++ (":taskname".toList ++ h')) :
    a = [] ∧ h = h' ∨ ∃ w, a = ":taskname".toList ++ w ∧ h = w ++ (":taskname".toList ++ h') := by
  rcases List.append_eq_append_iff.1 heq with ⟨w, ha, hw⟩ | ⟨v, hsep, hv⟩
  · exact .inr ⟨w, ha, hw⟩
  · cases a with
    | nil =>
      rw [List.nil_append] at hsep
      rw [← hsep] at hv
      exact .inl ⟨rfl, (List.append_cancel_left hv).symm⟩
    | cons c a =>
      cases v with
      | nil =>
        rw [List.append_nil] at hsep
        exact .inr ⟨[], by rw [hsep, List.append_nil], hv.symm⟩
      | cons x v =>
        -- the text has its only colon in front, so no end of it begins like the whole
        have htail : "taskname".toList = a ++ x :: v := (List.cons.inj hsep).2
        have hx : x = ':' := (List.cons.inj hv).1.symm
        have hmem : ':' ∈ "taskname".toList := by
          rw [htail, hx]
          exact List.mem_append_right _ (List.mem_cons_self ..)
        exact absurd hmem (by decide)

theorem index_eq_iff {p p' h h' : Str} :
    p ++ (":taskname".toList ++ h) = p' ++ (":taskname".toList ++ h') ↔
      p = p' ∧ h = h' ∨ (∃ w, p' = p ++ ":taskname".toList ++ w ∧ h = w ++ ":taskname".toList ++ h') ∨
        ∃ w, p = p' ++ ":taskname".toList ++ w ∧ h' = w ++ ":taskname".toList ++ h := by
  constructor
  · intro heq
    rcases List.append_eq_append_iff.1 heq with ⟨a, hp, ha⟩ | ⟨a, hp, ha⟩
    · rcases sep_append_eq ha with ⟨rfl, rfl⟩ | ⟨w, rfl, rfl⟩
      · exact .inl ⟨by rw [hp, List.append_nil], rfl⟩
      · exact .inr (.inl ⟨w, by rw [hp, List.append_assoc], by rw [List.append_assoc]⟩)
    · rcases sep_append_eq ha with ⟨rfl, rfl⟩ | ⟨w, rfl, rfl⟩
      · exact .inl ⟨by rw [hp, List.append_nil], rfl⟩
      · exact .inr (.inr ⟨w, by rw [hp, List.append_assoc], by rw [List.append_assoc]⟩)
  · rintro (⟨rfl, rfl⟩ | ⟨w, rfl, rfl⟩ | ⟨w, rfl, rfl⟩)
    · rfl
    · simp only [List.append_assoc]
    · simp only [List.append_assoc]

variable {d : RunData} {unihash : Tid → Str} {s : State} {t u : Tid}

theorem pendingHashIndex_eq_iff :
    d.pendingHashIndex unihash t = d.pendingHashIndex unihash u ↔
      d.pn t = d.pn u ∧ unihash t = unihash u ∨ Straddle d unihash t u ∨ Straddle d unihash u t := by
  have hindex : ∀ t, d.pendingHashIndex unihash t =
      d.pn t ++ (":taskname".toList ++ unihash t) := by
    intro t
    have hsep : ":taskname".toList = ":".toList ++ "taskname".toList := by decide
    rw [hsep, pendingHashIndex]
    simp only [List.append_assoc]
  rw [hindex, hindex, index_eq_iff]
  rfl

theorem Straddle.pn_ne (h : Straddle d unihash t u) : d.pn t ≠ d.pn u := by
  obtain ⟨w, hpn, -⟩ := h
  intro heq
  have hlen := congrArg List.length (heq.trans hpn)
  simp only [List.length_append] at hlen
  have hsep : ":taskname".toList.length = 9 := by decide
  omega

theorem Clash.not_same (h : Clash d unihash t u) : ¬ Same d unihash t u := by
  rintro ⟨hpn, htask, -⟩
  rcases h with ⟨-, -, hne⟩ | h | h
  · exact hne htask
  · exact h.pn_ne hpn
  · exact h.pn_ne hpn.symm

theorem Clash.index_eq (h : Clash d unihash t u) :
    d.pendingHashIndex unihash t = d.pendingHashIndex unihash u := by
  refine pendingHashIndex_eq_iff.2 ?_
  exact h.imp_left fun h => ⟨h.1, h.2.1⟩

theorem same_of_index (hclash : ¬ Clash d unihash t u)
    (h : d.pendingHashIndex unihash t = d.pendingHashIndex unihash u) : Same d unihash t u := by
  rcases pendingHashIndex_eq_iff.1 h with ⟨hpn, hhash⟩ | h
  · have htask : taskname t = taskname u := by
      by_contra hne
      exact hclash (.inl ⟨hpn, hhash, hne⟩)
    exact ⟨hpn, htask, hhash⟩
  · exact absurd (.inr h) hclash

/-- The index tells exactly those tasks apart that do not clash. -/
theorem index_iff_same :
    (d.pendingHashIndex unihash t = d.pendingHashIndex unihash u ↔ Same d unihash t u) ↔
      ¬ Clash d unihash t u := by
  constructor
  · intro h hclash
    exact hclash.not_same (h.1 hclash.index_eq)
  · intro hclash
    refine ⟨same_of_index hclash, ?_⟩
    rintro ⟨hpn, -, hhash⟩
    exact pendingHashIndex_eq_iff.2 (.inl ⟨hpn, hhash⟩)

theorem Same.symm (h : Same d unihash t u) : Same d unihash u t := ⟨h.1.symm, h.2.1.symm, h.2.2.symm⟩

theorem Same.trans {v : Tid} (h : Same d unihash t u) (h' : Same d unihash u v) :
    Same d unihash t v :=
  ⟨h.1.trans h'.1, h.2.1.trans h'.2.1, h.2.2.trans h'.2.2⟩

/-! ### The set-up -/

theorem mem_byMulticonfig : t ∈ d.byMulticonfig d.setsceneTids ↔ t ∈ d.setsceneTids := by
  rw [byMulticonfig, List.mem_flatMap]
  constructor
  · rintro ⟨mc, -, ht⟩
    exact mem_sorted.1 (List.mem_filter.1 ht).1
  · intro ht
    refine ⟨mcFromTid t.1, mem_sorted.2 (Finset.mem_image_of_mem _ ht), ?_⟩
    exact List.mem_filter.2 ⟨mem_sorted.2 ht, decide_eq_true rfl⟩

theorem nodup_byMulticonfig (tids : Finset Tid) : (d.byMulticonfig tids).Nodup := by
  rw [byMulticonfig, List.nodup_flatMap]
  refine ⟨fun mc _ => (nodup_sorted tids).filter _, ?_⟩
  refine (nodup_sorted d.multiconfigs).imp fun {mc mc'} hne => ?_
  intro t ht ht'
  have hmc := of_decide_eq_true (List.mem_filter.1 ht).2
  have hmc' := of_decide_eq_true (List.mem_filter.1 ht').2
  exact hne (hmc.symm.trans hmc')

/-- The state of the set-up after the tasks of `l`. -/
structure Paired (d : RunData) (unihash : Tid → Str) (l : List Tid) (s : State) : Prop where
  unihash_eq : s.unihash = unihash
  hashes : ∀ h first, s.hashes.get? h = some first →
    first ∈ l ∧ d.pendingHashIndex unihash first = h ∧ ∀ u, ¬ s.After first u
  after : ∀ t u, s.After t u →
    t ∈ l ∧ u ≠ t ∧ s.hashes.get? (d.pendingHashIndex unihash t) = some u
  recorded : ∀ t ∈ l, ∃ first, s.hashes.get? (d.pendingHashIndex unihash t) = some first ∧
    (first = t ∨ s.After t first)

theorem Paired.pairUp {l : List Tid} (h : Paired d unihash l s) (ht : t ∉ l) :
    Paired d unihash (t :: l) (d.pairUp s t) := by
  have hnew : ∀ u, ¬ s.After t u := fun u htu => ht (h.after t u htu).1
  rw [RunData.pairUp, h.unihash_eq]
  split
  case h_1 hnone =>
    have hkeep : ∀ {h' first}, s.hashes.get? h' = some first →
        (s.hashes.set (d.pendingHashIndex unihash t) t).get? h' = some first := by
      intro h' first hfirst
      have hne : h' ≠ d.pendingHashIndex unihash t := by
        rintro rfl
        rw [hnone] at hfirst
        exact absurd hfirst (by simp)
      rw [Dict.get?_set_ne _ hne, hfirst]
    refine ⟨rfl, ?_, ?_, ?_⟩
    · intro h' first hfirst
      rw [Dict.get?_set] at hfirst
      split at hfirst
      case isTrue heq =>
        obtain rfl := Option.some.inj hfirst
        exact ⟨List.mem_cons_self .., heq.symm, hnew⟩
      case isFalse =>
        obtain ⟨hmem, hindex, hnot⟩ := h.hashes h' first hfirst
        exact ⟨List.mem_cons_of_mem _ hmem, hindex, hnot⟩
    · intro t' u' htu
      obtain ⟨hmem, hne, hget⟩ := h.after t' u' htu
      exact ⟨List.mem_cons_of_mem _ hmem, hne, hkeep hget⟩
    · intro t' ht'
      rcases List.mem_cons.1 ht' with rfl | ht'
      · exact ⟨t', Dict.get?_set_self .., .inl rfl⟩
      · obtain ⟨first, hget, hor⟩ := h.recorded t' ht'
        exact ⟨first, hkeep hget, hor⟩
  case h_2 first hfirst =>
    have hne : first ≠ t := fun heq => ht (heq ▸ (h.hashes _ _ hfirst).1)
    have hget : ∀ t' u', (s.sqDeferred.set t first).get? t' = some u' ↔
        (t' = t ∧ u' = first) ∨ t' ≠ t ∧ s.After t' u' := by
      intro t' u'
      rw [Dict.get?_set]
      by_cases ht' : t' = t
      · simp [ht', eq_comm]
      · simp [ht', State.After]
    refine ⟨rfl, ?_, ?_, ?_⟩
    · intro h' first' hfirst'
      obtain ⟨hmem, hindex, hnot⟩ := h.hashes h' first' hfirst'
      refine ⟨List.mem_cons_of_mem _ hmem, hindex, fun u' hu' => ?_⟩
      rcases (hget first' u').1 hu' with ⟨rfl, -⟩ | ⟨-, hu'⟩
      · exact ht hmem
      · exact hnot u' hu'
    · intro t' u' htu
      rcases (hget t' u').1 htu with ⟨rfl, rfl⟩ | ⟨-, htu⟩
      · exact ⟨List.mem_cons_self .., hne, hfirst⟩
      · obtain ⟨hmem, hne, hget⟩ := h.after t' u' htu
        exact ⟨List.mem_cons_of_mem _ hmem, hne, hget⟩
    · intro t' ht'
      rcases List.mem_cons.1 ht' with rfl | ht'
      · exact ⟨first, hfirst, .inr ((hget t' first).2 (.inl ⟨rfl, rfl⟩))⟩
      · have hne' : t' ≠ t := fun heq => ht (heq ▸ ht')
        obtain ⟨first', hget', hor⟩ := h.recorded t' ht'
        exact ⟨first', hget', hor.imp_right fun hor => (hget t' first').2 (.inr ⟨hne', hor⟩)⟩

theorem paired_build : Paired d unihash (d.byMulticonfig d.setsceneTids).reverse (d.build unihash) := by
  have hfold : ∀ (l l' : List Tid) (s : State), (l' ++ l).Nodup → Paired d unihash l'.reverse s →
      Paired d unihash (l' ++ l).reverse (l.foldl d.pairUp s) := by
    intro l
    induction l with
    | nil => intro l' s _ h; simpa using h
    | cons t l ih =>
      intro l' s hnodup h
      have hsplit : l' ++ t :: l = (l' ++ [t]) ++ l := by simp
      have ht : t ∉ l'.reverse := by
        rw [List.mem_reverse]
        exact fun hmem => (List.nodup_append.1 hnodup).2.2 t hmem t (List.mem_cons_self ..) rfl
      rw [hsplit] at hnodup ⊢
      refine ih (l' ++ [t]) _ hnodup ?_
      rw [List.reverse_append]
      exact h.pairUp ht
  have hstart : Paired d unihash [] { unihash, hashes := .empty, sqDeferred := .empty } :=
    ⟨rfl, fun _ _ h => (Option.some_ne_none _ h.symm).elim, fun _ _ h => (Option.some_ne_none _ h.symm).elim,
      fun t ht => absurd ht List.not_mem_nil⟩
  exact hfold _ [] _ (nodup_byMulticonfig _) hstart

theorem build_same_iff :
    (∀ t u, (d.build unihash).After t u → Same d unihash t u) ↔
      ∀ t ∈ d.setsceneTids, ∀ u ∈ d.setsceneTids, ¬ Clash d unihash t u := by
  have h := @paired_build d unihash
  have hmem : ∀ t, t ∈ (d.byMulticonfig d.setsceneTids).reverse ↔ t ∈ d.setsceneTids := by
    intro t
    rw [List.mem_reverse, mem_byMulticonfig]
  constructor
  · intro hall t ht u hu hclash
    have hfirst : ∀ v ∈ d.setsceneTids, ∃ first,
        (d.build unihash).hashes.get? (d.pendingHashIndex unihash v) = some first ∧
          Same d unihash v first := by
      intro v hv
      obtain ⟨first, hget, rfl | hafter⟩ := h.recorded v ((hmem v).2 hv)
      · exact ⟨first, hget, rfl, rfl, rfl⟩
      · exact ⟨first, hget, hall v first hafter⟩
    obtain ⟨first, hget, hsame⟩ := hfirst t ht
    obtain ⟨first', hget', hsame'⟩ := hfirst u hu
    rw [hclash.index_eq, hget'] at hget
    obtain rfl := Option.some.inj hget
    exact hclash.not_same (hsame.trans hsame'.symm)
  · intro hall t u hafter
    obtain ⟨ht, -, hget⟩ := h.after t u hafter
    obtain ⟨hu, hindex, -⟩ := h.hashes _ _ hget
    exact same_of_index (hall t ((hmem t).1 ht) u ((hmem u).1 hu)) hindex.symm

theorem build_acyclic (t : Tid) : ¬ TransGen (d.build unihash).After t t := by
  intro hcycle
  obtain ⟨u, htu, hut⟩ := TransGen.head'_iff.1 hcycle
  have hnot := ((@paired_build d unihash).hashes _ _ ((@paired_build d unihash).after t u htu).2.2).2.2
  rcases reflTransGen_iff_eq_or_transGen.1 hut with rfl | hut
  · exact hnot _ htu
  · obtain ⟨v, huv, -⟩ := TransGen.head'_iff.1 hut
    exact hnot v huv

/-! ### The steps -/

theorem after_set {v : Tid} {a b : Tid}
    (h : State.After { s with sqDeferred := s.sqDeferred.set t v } a b) :
    s.After a b ∨ a = t ∧ b = v := by
  rw [State.After, Dict.get?_set] at h
  split at h
  case isTrue ha => exact .inr ⟨ha, (Option.some.inj h).symm⟩
  case isFalse ha => exact .inl h

theorem after_erase {a b : Tid}
    (h : State.After { s with sqDeferred := s.sqDeferred.erase t } a b) : a ≠ t ∧ s.After a b := by
  rw [State.After, Dict.get?_erase] at h
  split at h
  case isTrue ha => exact absurd h.symm (Option.some_ne_none b)
  case isFalse ha => exact ⟨ha, h⟩

theorem not_transGen_of_last {r : Tid → Tid → Prop} (h : ∀ b, ¬ r t b) : ¬ TransGen r t u := by
  intro htu
  obtain ⟨b, hb, -⟩ := TransGen.head'_iff.1 htu
  exact h b hb

theorem acyclic_set {v : Tid} (h : ∀ a, ¬ TransGen s.After a a) (hne : v ≠ t)
    (hback : ¬ TransGen s.After v t) (a : Tid) :
    ¬ TransGen (State.After { s with sqDeferred := s.sqDeferred.set t v }) a a :=
  Dag.irrefl_of_edge h (fun _ _ => after_set) hne hback a

theorem acyclic_erase (h : ∀ a, ¬ TransGen s.After a a) (a : Tid) :
    ¬ TransGen (State.After { s with sqDeferred := s.sqDeferred.erase t }) a a := by
  intro hcycle
  have hsub : State.After { s with sqDeferred := s.sqDeferred.erase t } ≤ s.After :=
    fun _ _ hab => (after_erase hab).2
  exact h a (TransGen.mono hsub a a hcycle)

/-- The state of a hand-over before the tasks of `l`. -/
structure Handing (s₀ : State) (task : Tid) (l : List Tid) (s : State × Option Tid) : Prop where
  acyclic : ∀ a, ¬ TransGen s.1.After a a
  ahead : ∀ t ∈ l, ∀ u, s.1.After t u → s₀.After t u
  old : ∀ t u, s.1.After t u → s₀.After t u ∨ s₀.After t task ∧ s₀.After u task
  found : ∀ f, s.2 = some f → f ∉ l ∧ s₀.After f task ∧ ∀ u, ¬ s.1.After f u

theorem Handing.step {s₀ : State} {task : Tid} {l : List Tid} {s : State × Option Tid}
    (h : Handing s₀ task (t :: l) s) (ht : t ∉ l) : Handing s₀ task l (handOverTo task s t) := by
  have hrest : ∀ t' ∈ l, t' ≠ t := fun t' ht' heq => ht (heq ▸ ht')
  rw [handOverTo]
  split
  case isFalse =>
    exact ⟨h.acyclic, fun t' ht' => h.ahead t' (List.mem_cons_of_mem _ ht'), h.old,
      fun f hf => ⟨fun hmem => (h.found f hf).1 (List.mem_cons_of_mem _ hmem), (h.found f hf).2⟩⟩
  case isTrue hafter =>
    have htask : s₀.After t task := h.ahead t (List.mem_cons_self ..) task hafter
    split
    case h_1 =>
      refine ⟨acyclic_erase h.acyclic, ?_, ?_, ?_⟩
      · intro t' ht' u hu
        exact h.ahead t' (List.mem_cons_of_mem _ ht') u (after_erase hu).2
      · intro t' u hu
        exact h.old t' u (after_erase hu).2
      · intro f hf
        obtain rfl := Option.some.inj hf
        exact ⟨ht, htask, fun u hu => (after_erase hu).1 rfl⟩
    case h_2 found hfound =>
      obtain ⟨hmem, hfoundTask, hlast⟩ := h.found found hfound
      have hne : found ≠ t := fun heq => hmem (heq ▸ List.mem_cons_self ..)
      refine ⟨acyclic_set h.acyclic hne (not_transGen_of_last hlast), ?_, ?_, ?_⟩
      · intro t' ht' u hu
        rcases after_set hu with hu | ⟨heq, -⟩
        · exact h.ahead t' (List.mem_cons_of_mem _ ht') u hu
        · exact absurd heq (hrest t' ht')
      · intro t' u hu
        rcases after_set hu with hu | ⟨rfl, rfl⟩
        · exact h.old t' u hu
        · exact .inr ⟨htask, hfoundTask⟩
      · intro f hf
        obtain rfl := Option.some.inj hf
        refine ⟨fun hl => hmem (List.mem_cons_of_mem _ hl), hfoundTask, fun u hu => ?_⟩
        rcases after_set hu with hu | ⟨heq, -⟩
        · exact hlast u hu
        · exact hne heq

/-- A hand-over keeps the deferrals acyclic, and pairs only tasks that were deferred after `task`. -/
theorem handOver_spec (h : ∀ a, ¬ TransGen s.After a a) (task : Tid) :
    (∀ a, ¬ TransGen (handOver s task).After a a) ∧
      ∀ t u, (handOver s task).After t u → s.After t u ∨ s.After t task ∧ s.After u task := by
  have hfold : ∀ (l : List Tid) (s' : State × Option Tid), l.Nodup → Handing s task l s' →
      Handing s task [] (l.foldl (handOverTo task) s') := by
    intro l
    induction l with
    | nil => exact fun _ _ h => h
    | cons t l ih =>
      intro s' hnodup h
      obtain ⟨ht, hnodup⟩ := List.nodup_cons.1 hnodup
      exact ih _ hnodup (h.step ht)
  have hstart : Handing s task (sorted s.sqDeferred.keys.toFinset) (s, none) :=
    ⟨h, fun _ _ _ hu => hu, fun _ _ hu => .inl hu, fun f hf => absurd hf.symm (Option.some_ne_none f)⟩
  have hend := hfold _ _ (nodup_sorted _) hstart
  exact ⟨hend.acyclic, hend.old⟩

theorem redefer_eq (d : RunData) (s : State) (tid : Tid) : d.redefer s tid = s ∨
    ∃ first, s.hashes.get? (d.pendingHashIndex s.unihash tid) = some first ∧ first ≠ tid ∧
      d.redefer s tid = { s with sqDeferred := s.sqDeferred.set tid first } := by
  rw [redefer]
  split
  case h_1 => exact .inl rfl
  case h_2 first hfirst =>
    split
    case isTrue hne => exact .inr ⟨first, hfirst, hne.symm, rfl⟩
    case isFalse => exact .inl rfl

/-! ### The runs -/

theorem Reach.acyclic (h : Reach d unihash s) : ∀ a, ¬ TransGen s.After a a := by
  induction h with
  | build => exact build_acyclic
  | @step s e _ hfits ih =>
    cases e with
    | report => exact ih
    | rehash => exact ih
    | redefer tid =>
      show ∀ a, ¬ TransGen (d.redefer s tid).After a a
      rcases redefer_eq d s tid with heq | ⟨first, hfirst, hne, heq⟩
      · rw [heq]
        exact ih
      · rw [heq]
        exact acyclic_set ih hne (hfits tid rfl first hfirst hne).2.2
    | complete task => exact (handOver_spec ih task).1
    | drop tid => exact acyclic_erase ih

/-- The index tells tasks apart exactly where they do not clash, and the set-up defers only after the
same sstate object exactly where no two tasks clash. In a run whose steps meet the condition no task
is deferred after itself, also not through others; a task is deferred again only after the same sstate
object, and a hand-over pairs tasks with the object that both waited for. -/
theorem deferral_pairs (d : RunData) :
    (∀ unihash t u,
      (d.pendingHashIndex unihash t = d.pendingHashIndex unihash u ↔ Same d unihash t u) ↔
        ¬ Clash d unihash t u) ∧
    (∀ unihash, (∀ t u, (d.build unihash).After t u → Same d unihash t u) ↔
      ∀ t ∈ d.setsceneTids, ∀ u ∈ d.setsceneTids, ¬ Clash d unihash t u) ∧
    ∀ unihash s, Reach d unihash s →
      (∀ t, ¬ s.After t t) ∧ (∀ t, ¬ TransGen s.After t t) ∧
      (∀ tid, Fits d s tid → ∀ t u, (d.redefer s tid).After t u → ¬ s.After t u →
        Same d s.unihash t u) ∧
      ∀ task, (∀ t, s.After t task → Same d s.unihash t task) →
        ∀ t u, (handOver s task).After t u → ¬ s.After t u → Same d s.unihash t u := by
  refine ⟨fun unihash t u => index_iff_same, fun unihash => build_same_iff, fun unihash s h => ?_⟩
  have hacyclic := h.acyclic
  refine ⟨fun t ht => hacyclic t (.single ht), hacyclic, ?_, ?_⟩
  · intro tid hfits t u htu hnew
    rcases redefer_eq d s tid with heq | ⟨first, hfirst, hne, heq⟩
    · exact absurd (heq ▸ htu) hnew
    · rw [heq] at htu
      obtain ⟨rfl, rfl⟩ := (after_set htu).resolve_left hnew
      obtain ⟨hindex, hclash, -⟩ := hfits u hfirst hne
      exact same_of_index hclash hindex.symm
  · intro task hsame t u htu hnew
    obtain ⟨ht, hu⟩ := ((handOver_spec hacyclic task).2 t u htu).resolve_left hnew
    exact (hsame t ht).trans (hsame u hu).symm

/-! ### Two tasks -/

def doX : Tid := ⟨"a.bb:do_x".toList, by decide⟩
def doY : Tid := ⟨"a.bb:do_y".toList, by decide⟩

def oneRecipe : RunData := ⟨fun _ _ => "a".toList, {doX, doY}⟩

/-- Two tasks of one recipe with the same unihash are paired, and the set-up defers one of them. -/
theorem names_not_told_apart :
    oneRecipe.pendingHashIndex (fun _ => "1f".toList) doX =
      oneRecipe.pendingHashIndex (fun _ => "1f".toList) doY ∧
    taskname doX ≠ taskname doY ∧
    (oneRecipe.build fun _ => "1f".toList).After doY doX := by
  decide

def mcX : Tid := ⟨"mc:x:a.bb:do_x".toList, by decide⟩
def mcY : Tid := ⟨"mc:y:a.bb:do_x".toList, by decide⟩

def twoMulticonfigs : RunData := ⟨fun _ _ => "a".toList, {mcX, mcY}⟩

/-- Where two recorded tasks exchange their unihashes, each is deferred after the other. -/
theorem stale_index_cycle :
    let s := [Event.rehash mcX "2e".toList, .rehash mcY "1f".toList, .redefer mcX, .redefer mcY].foldl
      (step twoMulticonfigs)
      (twoMulticonfigs.build fun t => if t = mcX then "1f".toList else "2e".toList)
    s.After mcX mcY ∧ s.After mcY mcX := by
  decide

end Deferral
end BitBake
end OpenBmc
