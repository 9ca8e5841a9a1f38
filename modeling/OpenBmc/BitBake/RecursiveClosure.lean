import OpenBmc.BitBake.RecursiveFiles

/-!
# The added dependencies

`Derived` are the rules of part B on the graph before it: what a task depends on, the named tasks of
the files below what is derived, and what other recursive tasks depend on. The loop ends with exactly
the derived dependencies (`passes_spec`). They are complete for a task where the file of each direct
dependency is found by these rules too (`recursive_complete_iff`).
-/

namespace OpenBmc
namespace BitBake
namespace RecursiveDeps
open Py Relation RunTasks

variable {Fn : Type} [DecidableEq Fn] {g : RunTasks Fn} {o : Orders Fn}

/-- The dependencies that part B gives a task, before it prunes. -/
inductive Derived (g : RunTasks Fn) : Fn × Str → Fn × Str → Prop
  | direct {t u : Fn × Str} (h : u ∈ g.depends t) : Derived g t u
  /-- The named task of a file below a dependency. -/
  | file {t v : Fn × Str} {f : Fn} {n : Str} {names : List Str} (hv : Derived g t v)
      (ht : g.recursivetasks.get? t = some names) (hf : g.FileBelow v f) (hn : n ∈ names)
      (htids : (f, n) ∈ g.tids) (hne : (f, n) ≠ t) : Derived g t (f, n)
  /-- The same, below a task of the `recideptask` flag. -/
  | itask {t v : Fn × Str} {f : Fn} {n : Str} {names : List Str}
      (hv : v ∈ (g.recursiveitasks.get? t).getD [])
      (ht : g.recursivetasks.get? t = some names) (hf : g.FileBelow v f) (hn : n ∈ names)
      (htids : (f, n) ∈ g.tids) (hne : (f, n) ≠ t) : Derived g t (f, n)
  /-- The same, below a dependency of such a task. -/
  | idepend {t i v : Fn × Str} {f : Fn} {n : Str} {names : List Str}
      (hi : i ∈ (g.recursiveitasks.get? t).getD []) (hit : i ∈ g.tids) (hv : Derived g i v)
      (ht : g.recursivetasks.get? t = some names) (hf : g.FileBelow v f) (hn : n ∈ names)
      (htids : (f, n) ∈ g.tids) (hne : (f, n) ≠ t) : Derived g t (f, n)
  /-- A dependency of another recursive task. -/
  | other {t r u : Fn × Str} {names : List Str} (hr : Derived g t r) (hrec : r ∈ g.recursivetasks)
      (hu : Derived g r u) (ht : g.recursivetasks.get? t = some names) (hn : u.2 ∈ names)
      (htids : u ∈ g.tids) : Derived g t u

theorem Derived.mem_tids {t u : Fn × Str} (ht : t ∈ g.tids) (h : Derived g t u) : u ∈ g.tids := by
  cases h with
  | direct h => exact g.closed t ht u h
  | file _ _ _ _ htids => exact htids
  | itask _ _ _ _ htids => exact htids
  | idepend _ _ _ _ _ _ htids => exact htids
  | other _ _ _ _ _ htids => exact htids

/-! ### How the state grows -/

/-- What a part of the loop does: the dependencies grow, and where the counter does, a task of
`recursivetasks` has got one that it did not have. -/
structure Grows (g : RunTasks Fn) (s s' : Extra Fn) : Prop where
  subset : ∀ t u, u ∈ s.depends t → u ∈ s'.depends t
  le : s.extradeps ≤ s'.extradeps
  added : s.extradeps < s'.extradeps →
    ∃ t ∈ g.recursivetasks, ∃ u ∈ g.tids, u ∉ s.depends t ∧ u ∈ s'.depends t
  same : s.extradeps = s'.extradeps → s'.depends = s.depends

omit [DecidableEq Fn] in
theorem Grows.refl (s : Extra Fn) : Grows g s s :=
  ⟨fun _ _ h => h, le_rfl, fun h => absurd h (lt_irrefl _), fun _ => rfl⟩

omit [DecidableEq Fn] in
theorem Grows.trans {s s' s'' : Extra Fn} (h : Grows g s s') (h' : Grows g s' s'') :
    Grows g s s'' where
  subset t u hu := h'.subset t u (h.subset t u hu)
  le := h.le.trans h'.le
  added hlt := by
    by_cases hlt' : s.extradeps < s'.extradeps
    · obtain ⟨t, ht, u, hu, hnot, hmem⟩ := h.added hlt'
      exact ⟨t, ht, u, hu, hnot, h'.subset t u hmem⟩
    · obtain ⟨t, ht, u, hu, hnot, hmem⟩ := h'.added (by have := h.le; omega)
      exact ⟨t, ht, u, hu, fun hs => hnot (h.subset t u hs), hmem⟩
  same heq := by
    have hle := h.le
    have hle' := h'.le
    rw [h'.same (by omega), h.same (by omega)]

omit [DecidableEq Fn] in
theorem Grows.eq_of_idle {s s' : Extra Fn} (h : Grows g s s') (heq : s'.extradeps = s.extradeps) :
    s' = s := by
  have hdepends := h.same heq.symm
  cases s
  cases s'
  cases heq
  cases hdepends
  rfl

theorem mem_add_depends {s : Extra Fn} {tid newtid t u : Fn × Str} :
    u ∈ (s.add tid newtid).depends t ↔ u ∈ s.depends t ∨ t = tid ∧ u = newtid := by
  show u ∈ Function.update s.depends tid _ t ↔ _
  rw [Function.update_apply]
  split
  · rename_i h
    rw [List.mem_append, List.mem_singleton, h]
    simp
  · rename_i h
    simp [h]

theorem grows_add {s : Extra Fn} {tid newtid : Fn × Str} (ht : tid ∈ g.recursivetasks)
    (hu : newtid ∈ g.tids) (hnot : newtid ∉ s.depends tid) : Grows g s (s.add tid newtid) where
  subset _ _ h := mem_add_depends.2 (.inl h)
  le := Nat.le_succ _
  added _ := ⟨tid, ht, newtid, hu, hnot, mem_add_depends.2 (.inr ⟨rfl, rfl⟩)⟩
  same h := absurd h (Nat.succ_ne_self _).symm

omit [DecidableEq Fn] in
theorem grows_foldl {α : Type} {f : Extra Fn → α → Extra Fn} {l : List α}
    (h : ∀ a ∈ l, ∀ s, Grows g s (f s a)) (s : Extra Fn) : Grows g s (l.foldl f s) := by
  induction l generalizing s with
  | nil => exact .refl s
  | cons a l ih =>
    exact (h a (List.mem_cons_self ..) s).trans (ih (fun b hb => h b (List.mem_cons_of_mem _ hb)) _)

omit [DecidableEq Fn] in
/-- What each step keeps holds after the loop. -/
theorem foldl_keeps {α : Type} {f : Extra Fn → α → Extra Fn} {P : Extra Fn → Prop} {l : List α}
    (h : ∀ a ∈ l, ∀ s, P s → P (f s a)) {s : Extra Fn} (hs : P s) : P (l.foldl f s) := by
  induction l generalizing s with
  | nil => exact hs
  | cons a l ih => exact ih (fun b hb => h b (List.mem_cons_of_mem _ hb)) (h a (List.mem_cons_self ..) s hs)

omit [DecidableEq Fn] in
/-- A loop that counts nothing has no step that counts. -/
theorem foldl_idle {α : Type} {f : Extra Fn → α → Extra Fn} {Q : Extra Fn → α → Prop} {l : List α}
    (hgrows : ∀ a ∈ l, ∀ s, Grows g s (f s a))
    (hidle : ∀ a ∈ l, ∀ s, (f s a).extradeps = s.extradeps → Q s a) {s : Extra Fn}
    (h : (l.foldl f s).extradeps = s.extradeps) : ∀ a ∈ l, Q s a := by
  induction l generalizing s with
  | nil => simp
  | cons a l ih =>
    have hrest : ∀ b ∈ l, ∀ s, Grows g s (f s b) := fun b hb => hgrows b (List.mem_cons_of_mem _ hb)
    have hfirst := hgrows a (List.mem_cons_self ..) s
    have htail := grows_foldl hrest (f s a)
    rw [List.foldl_cons] at h
    have heq : (f s a).extradeps = s.extradeps := by
      have hle := hfirst.le
      have hle' := htail.le
      omega
    rw [hfirst.eq_of_idle heq] at h
    intro b hb
    rcases List.mem_cons.1 hb with rfl | hb
    · exact hidle b (List.mem_cons_self ..) s heq
    · exact ih hrest (fun c hc => hidle c (List.mem_cons_of_mem _ hc)) h b hb

omit [DecidableEq Fn] in
theorem foldl_counts {α : Type} {f : Extra Fn → α → Extra Fn} {l : List α}
    (hle : ∀ a ∈ l, ∀ s, s.extradeps ≤ (f s a).extradeps) (s : Extra Fn) :
    s.extradeps ≤ (l.foldl f s).extradeps ∧
      ((l.foldl f s).extradeps = s.extradeps →
        ∀ a ∈ l, ∃ s', (f s' a).extradeps = s'.extradeps) := by
  induction l generalizing s with
  | nil => exact ⟨le_rfl, by simp⟩
  | cons a l ih =>
    obtain ⟨hrest, hidle⟩ := ih (fun b hb => hle b (List.mem_cons_of_mem _ hb)) (f s a)
    have hfirst := hle a (List.mem_cons_self ..) s
    refine ⟨hfirst.trans hrest, fun heq b hb => ?_⟩
    rw [List.foldl_cons] at heq
    rcases List.mem_cons.1 hb with rfl | hb
    · exact ⟨s, by omega⟩
    · exact hidle (by omega) b hb

/-! ### The parts of the loop -/

section Parts
variable {cumulativedeps : Fn × Str → List Fn}

/-- Nothing is recorded that is not derived. -/
def Sound (g : RunTasks Fn) (s : Extra Fn) : Prop := ∀ t u, u ∈ s.depends t → Derived g t u

theorem Sound.add {s : Extra Fn} (hs : Sound g s) {tid newtid : Fn × Str}
    (h : Derived g tid newtid) : Sound g (s.add tid newtid) := by
  intro t u hu
  rcases mem_add_depends.1 hu with hu | ⟨rfl, rfl⟩
  · exact hs t u hu
  · exact h

theorem grows_addNamed {tid : Fn × Str} (ht : tid ∈ g.recursivetasks) (f : Fn) (n : Str)
    (s : Extra Fn) : Grows g s (g.addNamed tid f s n) := by
  unfold addNamed
  simp only
  split
  · exact .refl s
  · split
    · rename_i h
      exact grows_add ht h.1 h.2
    · exact .refl s

theorem sound_addNamed {tid : Fn × Str} {f : Fn} {n : Str} {s : Extra Fn} (hs : Sound g s)
    (h : (f, n) ∈ g.tids → (f, n) ≠ tid → Derived g tid (f, n)) :
    Sound g (g.addNamed tid f s n) := by
  unfold addNamed
  simp only
  split
  · exact hs
  · rename_i hne
    split
    · rename_i hadd
      exact hs.add (h hadd.1 hne)
    · exact hs

theorem addNamed_idle {tid : Fn × Str} {f : Fn} {n : Str} {s : Extra Fn}
    (h : (g.addNamed tid f s n).extradeps = s.extradeps) (hne : (f, n) ≠ tid)
    (htids : (f, n) ∈ g.tids) : (f, n) ∈ s.depends tid := by
  unfold addNamed at h
  simp only [if_neg hne] at h
  by_contra hnot
  rw [if_pos ⟨htids, hnot⟩] at h
  exact absurd h (Nat.succ_ne_self _)

theorem mem_totaldeps {s : Extra Fn} {t v : Fn × Str} : v ∈ g.totaldeps s t ↔
    v ∈ s.depends t ∨ v ∈ (g.recursiveitasks.get? t).getD [] ∨
      ∃ i ∈ (g.recursiveitasks.get? t).getD [], i ∈ g.tids ∧ v ∈ s.depends i := by
  rw [totaldeps, List.mem_append, List.mem_append, List.mem_flatMap, or_assoc]
  refine or_congr_right (or_congr_right (exists_congr fun i => and_congr_right fun _ => ?_))
  split
  · simp [*]
  · simp [*]

/-- A named task of a file below what is known is derived. -/
theorem derived_of_total {s : Extra Fn} (hs : Sound g s) {t v : Fn × Str} {names : List Str}
    (ht : g.recursivetasks.get? t = some names) (hv : v ∈ g.totaldeps s t) {f : Fn}
    (hf : g.FileBelow v f) {n : Str} (hn : n ∈ names) (htids : (f, n) ∈ g.tids) (hne : (f, n) ≠ t) :
    Derived g t (f, n) := by
  rcases mem_totaldeps.1 hv with hv | hv | ⟨i, hi, hit, hv⟩
  · exact .file (hs t v hv) ht hf hn htids hne
  · exact .itask hv ht hf hn htids hne
  · exact .idepend hi hit (hs i v hv) ht hf hn htids hne

variable {e : (Fn × Str) × List Str}

theorem grows_addFiles (he : e.1 ∈ g.recursivetasks) (s : Extra Fn) :
    Grows g s (g.addFiles o cumulativedeps s e) :=
  grows_foldl (fun f _ s => grows_foldl (fun n _ s => grows_addNamed he f n s) s) s

theorem sound_addFiles (hcum : ∀ t f, f ∈ cumulativedeps t ↔ g.FileBelow t f)
    (he : g.recursivetasks.get? e.1 = some e.2) {s : Extra Fn} (hs : Sound g s) :
    Sound g (g.addFiles o cumulativedeps s e) := by
  refine foldl_keeps (fun f hf s' hs' => foldl_keeps (fun n hn s' hs' => ?_) hs') hs
  rw [o.mem_fns, List.mem_flatMap] at hf
  obtain ⟨v, hv, hf⟩ := hf
  exact sound_addNamed hs' (derived_of_total hs he hv ((hcum v f).1 hf) hn)

theorem addFiles_idle (he : e.1 ∈ g.recursivetasks) {s : Extra Fn}
    (h : (g.addFiles o cumulativedeps s e).extradeps = s.extradeps) {v : Fn × Str}
    (hv : v ∈ g.totaldeps s e.1) {f : Fn} (hf : f ∈ cumulativedeps v) {n : Str} (hn : n ∈ e.2)
    (hne : (f, n) ≠ e.1) (htids : (f, n) ∈ g.tids) : (f, n) ∈ s.depends e.1 := by
  have hmem : f ∈ o.fns ((g.totaldeps s e.1).flatMap cumulativedeps) :=
    (o.mem_fns _ _).2 (List.mem_flatMap.2 ⟨v, hv, hf⟩)
  refine foldl_idle (Q := fun s f => ∀ n ∈ e.2, (f, n) ≠ e.1 → (f, n) ∈ g.tids →
    (f, n) ∈ s.depends e.1) (fun f _ s => grows_foldl (fun n _ s => grows_addNamed he f n s) s)
    (fun f _ s hidle => ?_) h f hmem n hn hne htids
  exact foldl_idle (Q := fun s n => (f, n) ≠ e.1 → (f, n) ∈ g.tids → (f, n) ∈ s.depends e.1)
    (fun n _ s => grows_addNamed he f n s) (fun n _ s => addNamed_idle) hidle

/-- What the second half goes through: dependencies of recursive tasks that are missing. -/
theorem mem_others {s : Extra Fn} {u : Fn × Str} :
    u ∈ o.tids (((((s.depends e.1).filter fun dep => dep ∈ g.recursivetasks)).flatMap
        s.depends).filter fun t => t ∉ s.depends e.1) ↔
      (∃ r ∈ s.depends e.1, r ∈ g.recursivetasks ∧ u ∈ s.depends r) ∧ u ∉ s.depends e.1 := by
  rw [o.mem_tids, List.mem_filter, List.mem_flatMap, decide_eq_true_eq]
  refine and_congr_left fun _ => exists_congr fun r => ?_
  rw [List.mem_filter, decide_eq_true_eq, and_assoc]

theorem le_addRecursive (tid newtid : Fn × Str) (s : Extra Fn) (n : Str) :
    s.extradeps ≤ (g.addRecursive tid newtid s n).extradeps := by
  unfold addRecursive
  split
  · exact le_rfl
  · split
    · exact Nat.le_succ _
    · exact le_rfl

theorem grows_addRecursive {tid newtid : Fn × Str} (ht : tid ∈ g.recursivetasks) {s₀ s : Extra Fn}
    (h : Grows g s₀ s) (hnot : newtid ∉ s₀.depends tid) (n : Str) :
    Grows g s₀ (g.addRecursive tid newtid s n) := by
  unfold addRecursive
  split
  · exact h
  · split
    · rename_i htids
      refine ⟨fun t u hu => mem_add_depends.2 (.inl (h.subset t u hu)),
        h.le.trans (Nat.le_succ _), fun _ => ?_, fun heq => ?_⟩
      · exact ⟨tid, ht, newtid, htids, hnot, mem_add_depends.2 (.inr ⟨rfl, rfl⟩)⟩
      · have hle := h.le
        have heq : s₀.extradeps = s.extradeps + 1 := heq
        omega
    · exact h

theorem grows_addOthers (he : e.1 ∈ g.recursivetasks) (s : Extra Fn) :
    Grows g s (g.addOthers o s e) := by
  refine foldl_keeps (fun u hu s' hs' => foldl_keeps (fun n _ s' hs' => ?_) hs') (.refl s)
  exact grows_addRecursive he hs' (mem_others.1 hu).2 n

theorem sound_addOthers (he : g.recursivetasks.get? e.1 = some e.2) {s : Extra Fn}
    (hs : Sound g s) : Sound g (g.addOthers o s e) := by
  refine foldl_keeps (fun u hu s' hs' => foldl_keeps (fun n hn s' hs' => ?_) hs') hs
  obtain ⟨⟨r, hr, hrec, hu⟩, -⟩ := mem_others.1 hu
  unfold addRecursive
  split
  · exact hs'
  · rename_i heq
    rw [not_not] at heq
    split
    · rename_i htids
      exact hs'.add (.other (hs _ r hr) hrec (hs r u hu) he (heq ▸ hn) htids)
    · exact hs'

theorem addOthers_idle {s : Extra Fn} (h : (g.addOthers o s e).extradeps = s.extradeps)
    {r u : Fn × Str} (hr : r ∈ s.depends e.1) (hrec : r ∈ g.recursivetasks) (hu : u ∈ s.depends r)
    (hn : u.2 ∈ e.2) (htids : u ∈ g.tids) : u ∈ s.depends e.1 := by
  by_contra hnot
  have hmem := (mem_others (o := o)).2 ⟨⟨r, hr, hrec, hu⟩, hnot⟩
  have hle : ∀ (u : Fn × Str) (s : Extra Fn),
      s.extradeps ≤ (e.2.foldl (g.addRecursive e.1 u) s).extradeps := fun u s =>
    (foldl_counts (fun n _ s => le_addRecursive e.1 u s n) s).1
  obtain ⟨s', hidle⟩ := (foldl_counts (fun u _ s => hle u s) s).2 h u hmem
  obtain ⟨s'', hidle⟩ := (foldl_counts (fun n _ s => le_addRecursive e.1 u s n) s').2 hidle u.2 hn
  unfold addRecursive at hidle
  rw [if_neg (not_not.2 rfl), if_pos htids] at hidle
  exact absurd hidle (Nat.succ_ne_self _)

/-- Nothing is to be added for the task. -/
structure ClosedAt (g : RunTasks Fn) (s : Extra Fn) (e : (Fn × Str) × List Str) : Prop where
  files : ∀ v ∈ g.totaldeps s e.1, ∀ f, g.FileBelow v f → ∀ n ∈ e.2, (f, n) ≠ e.1 →
    (f, n) ∈ g.tids → (f, n) ∈ s.depends e.1
  others : ∀ r ∈ s.depends e.1, r ∈ g.recursivetasks → ∀ u ∈ s.depends r, u.2 ∈ e.2 →
    u ∈ g.tids → u ∈ s.depends e.1

theorem grows_visit (he : e.1 ∈ g.recursivetasks) (s : Extra Fn) :
    Grows g s (g.visit o cumulativedeps s e) :=
  (grows_addFiles he s).trans (grows_addOthers he _)

theorem visit_idle (hcum : ∀ t f, f ∈ cumulativedeps t ↔ g.FileBelow t f)
    (he : e.1 ∈ g.recursivetasks) {s : Extra Fn}
    (h : (g.visit o cumulativedeps s e).extradeps = s.extradeps) : ClosedAt g s e := by
  have hfiles : Grows g s (g.addFiles o cumulativedeps s e) := grows_addFiles he s
  have hothers := grows_addOthers (o := o) he (g.addFiles o cumulativedeps s e)
  have hle := hfiles.le
  have hle' := hothers.le
  unfold visit at h
  have heq : (g.addFiles o cumulativedeps s e).extradeps = s.extradeps := by omega
  have hsame := hfiles.eq_of_idle heq
  rw [hsame] at h
  exact ⟨fun v hv f hf n hn => addFiles_idle he heq hv ((hcum v f).2 hf) hn,
    fun r hr hrec u hu => addOthers_idle h hr hrec hu⟩

end Parts

/-! ### The loop -/

/-- The dependencies that the tasks of `recursivetasks` do not have. -/
def missing (g : RunTasks Fn) (s : Extra Fn) : Finset ((Fn × Str) × (Fn × Str)) :=
  (g.recursivetasks.keys.toFinset ×ˢ g.tids.toFinset).filter fun p => (s.depends p.1).contains p.2 = false

theorem mem_missing {s : Extra Fn} {t u : Fn × Str} :
    (t, u) ∈ missing g s ↔ (t ∈ g.recursivetasks ∧ u ∈ g.tids) ∧ u ∉ s.depends t := by
  rw [missing, Finset.mem_filter, Finset.mem_product, List.mem_toFinset, List.mem_toFinset,
    List.contains_eq_mem, decide_eq_false_iff_not]
  rfl

theorem card_missing_le (s : Extra Fn) :
    (missing g s).card ≤ g.recursivetasks.entries.length * g.tids.length := by
  refine (Finset.card_filter_le ..).trans ?_
  rw [Finset.card_product, ← Dict.length_keys]
  exact Nat.mul_le_mul (List.toFinset_card_le _) (List.toFinset_card_le _)

theorem Grows.missing_lt {s s' : Extra Fn} (h : Grows g s s') (hlt : s.extradeps < s'.extradeps) :
    (missing g s').card < (missing g s).card := by
  obtain ⟨t, ht, u, hu, hnot, hmem⟩ := h.added hlt
  have hin : (t, u) ∈ missing g s := mem_missing.2 ⟨⟨ht, hu⟩, hnot⟩
  refine Finset.card_lt_card (Finset.ssubset_iff_subset_ne.2 ⟨?_, fun heq => ?_⟩)
  · rintro ⟨t', u'⟩ hp
    rw [mem_missing] at hp ⊢
    exact ⟨hp.1, fun h' => hp.2 (h.subset t' u' h')⟩
  · rw [← heq, mem_missing] at hin
    exact hin.2 hmem

section Loop
variable {cumulativedeps : Fn × Str → List Fn}

theorem grows_pass (s : Extra Fn) :
    Grows g { s with extradeps := 0 } (g.pass o cumulativedeps s) :=
  grows_foldl (fun _ he s => grows_visit (Dict.mem_keys_of_mem_entries he) s) _

theorem sound_pass (hcum : ∀ t f, f ∈ cumulativedeps t ↔ g.FileBelow t f) {s : Extra Fn}
    (hs : Sound g s) : Sound g (g.pass o cumulativedeps s) := by
  have hstart : Sound g { s with extradeps := 0 } := hs
  refine foldl_keeps (fun e he s' hs' => ?_) hstart
  have hget : g.recursivetasks.get? e.1 = some e.2 := Dict.get?_eq_some_iff.2 he
  exact sound_addOthers hget (sound_addFiles hcum hget hs')

theorem pass_idle (hcum : ∀ t f, f ∈ cumulativedeps t ↔ g.FileBelow t f) {s : Extra Fn}
    (h : (g.pass o cumulativedeps s).extradeps = 0) :
    ∀ e ∈ g.recursivetasks.entries, ClosedAt g (g.pass o cumulativedeps s) e := by
  rw [(grows_pass s).eq_of_idle h]
  exact foldl_idle (fun _ he s => grows_visit (Dict.mem_keys_of_mem_entries he) s)
    (fun _ he s => visit_idle hcum (Dict.mem_keys_of_mem_entries he)) h

/-- The loop ends, in a state to which nothing is to be added. -/
theorem passes_ok (hcum : ∀ t f, f ∈ cumulativedeps t ↔ g.FileBelow t f) {fuel : ℕ} {s : Extra Fn}
    (hs : Sound g s) (hfuel : (missing g s).card < fuel) :
    ∃ s', g.passes o cumulativedeps fuel s = some s' ∧ Sound g s' ∧
      (∀ t u, u ∈ s.depends t → u ∈ s'.depends t) ∧
      ∀ e ∈ g.recursivetasks.entries, ClosedAt g s' e := by
  induction fuel generalizing s with
  | zero => omega
  | succ fuel ih =>
    have hgrows : Grows g { s with extradeps := 0 } (g.pass o cumulativedeps s) := grows_pass s
    rw [passes]
    by_cases hidle : (g.pass o cumulativedeps s).extradeps = 0
    · rw [if_pos hidle]
      exact ⟨_, rfl, sound_pass hcum hs, hgrows.subset, pass_idle hcum hidle⟩
    · rw [if_neg hidle]
      have hlt : (missing g (g.pass o cumulativedeps s)).card < (missing g s).card :=
        hgrows.missing_lt (Nat.pos_of_ne_zero hidle)
      obtain ⟨s', hs', hsound, hsubset, hclosed⟩ := ih (sound_pass (o := o) hcum hs) (by omega)
      exact ⟨s', hs', hsound, fun t u hu => hsubset t u (hgrows.subset t u hu), hclosed⟩

/-- All that is derived has been recorded. -/
theorem mem_of_derived {s : Extra Fn} (hstart : ∀ t u, u ∈ g.depends t → u ∈ s.depends t)
    (hclosed : ∀ e ∈ g.recursivetasks.entries, ClosedAt g s e) {t u : Fn × Str}
    (h : Derived g t u) : u ∈ s.depends t := by
  induction h with
  | direct h => exact hstart _ _ h
  | file hv ht hf hn htids hne ih =>
    exact (hclosed _ (Dict.get?_eq_some_iff.1 ht)).files _ (mem_totaldeps.2 (.inl ih)) _ hf _ hn hne
      htids
  | itask hv ht hf hn htids hne =>
    exact (hclosed _ (Dict.get?_eq_some_iff.1 ht)).files _ (mem_totaldeps.2 (.inr (.inl hv))) _ hf _
      hn hne htids
  | idepend hi hit hv ht hf hn htids hne ih =>
    exact (hclosed _ (Dict.get?_eq_some_iff.1 ht)).files _
      (mem_totaldeps.2 (.inr (.inr ⟨_, hi, hit, ih⟩))) _ hf _ hn hne htids
  | other hr hrec hu ht hn htids ihr ihu =>
    exact (hclosed _ (Dict.get?_eq_some_iff.1 ht)).others _ ihr hrec _ ihu hn htids

theorem passes_spec (hcum : ∀ t f, f ∈ cumulativedeps t ↔ g.FileBelow t f) :
    ∃ s, g.passes o cumulativedeps (g.recursivetasks.entries.length * g.tids.length + 1)
        { depends := g.depends, extradeps := 0 } = some s ∧
      ∀ t u, u ∈ s.depends t ↔ Derived g t u := by
  have hsound : Sound g { depends := g.depends, extradeps := 0 } := fun _ _ hu => .direct hu
  obtain ⟨s, hs, hs', hstart, hclosed⟩ :=
    @passes_ok Fn _ g o _ hcum _ _ hsound (Nat.lt_succ_iff.2 (card_missing_le _))
  exact ⟨s, hs, fun t u => ⟨hs' t u, mem_of_derived hstart hclosed⟩⟩

end Loop

/-! ### The result -/

theorem mem_selfref {t : Fn × Str} :
    t ∈ g.selfref ↔ ∃ names, g.recursivetasks.get? t = some names ∧ t.2 ∈ names := by
  rw [selfref, List.mem_map]
  constructor
  · rintro ⟨e, he, rfl⟩
    obtain ⟨he, hn⟩ := List.mem_filter.1 he
    exact ⟨e.2, Dict.get?_eq_some_iff.2 he, by simpa using hn⟩
  · rintro ⟨names, ht, hn⟩
    exact ⟨(t, names), List.mem_filter.2 ⟨Dict.get?_eq_some_iff.1 ht, by simpa using hn⟩, rfl⟩

theorem mem_prune {depends : Fn × Str → List (Fn × Str)} {t u : Fn × Str} :
    u ∈ g.prune depends t ↔ u ∈ depends t ∧ (t ∈ g.selfref → u ∉ g.selfref) := by
  suffices hfold : ∀ (l : List (Fn × Str)) (depends : Fn × Str → List (Fn × Str)),
      u ∈ (l.foldl (fun depends tid =>
        Function.update depends tid ((depends tid).filter fun t => t ∉ g.selfref)) depends) t ↔
      u ∈ depends t ∧ (t ∈ l → u ∉ g.selfref) from hfold _ _
  intro l
  induction l with
  | nil => simp
  | cons a l ih =>
    intro depends
    rw [List.foldl_cons, ih, Function.update_apply, List.mem_cons]
    by_cases ht : t = a
    · rw [if_pos ht, List.mem_filter, ← ht, decide_eq_true_iff]
      constructor
      · rintro ⟨⟨hu, hself⟩, -⟩
        exact ⟨hu, fun _ => hself⟩
      · rintro ⟨hu, hself⟩
        exact ⟨⟨hu, hself (.inl rfl)⟩, fun h => hself (.inr h)⟩
    · simp [ht]

theorem partB_spec (o : Orders Fn) (hac : ∀ t, ¬ TransGen g.Below t t) :
    ∃ depends, g.partB o = some depends ∧
      ∀ t u, u ∈ depends t ↔ Derived g t u ∧ (t ∈ g.selfref → u ∉ g.selfref) := by
  obtain ⟨c, hc, hcum⟩ := collateRounds_spec o hac
  obtain ⟨s, hs, hmem⟩ := @passes_spec Fn _ g o _ hcum
  refine ⟨g.prune s.depends, ?_, fun t u => by rw [mem_prune, hmem]⟩
  rw [partB, hc]
  show (g.passes o c.cumulativedeps _ _).bind _ = _
  rw [hs]
  rfl

/-- No rule gives a task itself, unless it names itself. -/
theorem selfref_of_derived {t : Fn × Str} (h : Derived g t t) : t ∈ g.selfref := by
  suffices hall : ∀ u, Derived g t u → u = t → t ∈ g.selfref from hall t h rfl
  intro u h hu
  cases h with
  | direct h => exact absurd (hu ▸ h) (g.irrefl _)
  | file _ _ _ _ _ hne => exact absurd hu hne
  | itask _ _ _ _ _ hne => exact absurd hu hne
  | idepend _ _ _ _ _ _ _ hne => exact absurd hu hne
  | other _ _ _ ht hn _ =>
    subst hu
    exact mem_selfref.2 ⟨_, ht, hn⟩

/-- Part B ends. No task depends on itself, and the dependencies of a recursive task are complete
exactly where the rules find the named tasks in the files of its direct dependencies. -/
theorem recursive_complete_iff (o : Orders Fn) (hac : ∀ t, ¬ TransGen g.Below t t) :
    ∃ depends, g.partB o = some depends ∧ (∀ t, t ∉ depends t) ∧
      ∀ t names, g.recursivetasks.get? t = some names →
        ((∀ f n, g.FileBelow t f → n ∈ names → (f, n) ∈ g.tids → (f, n) ≠ t →
            ¬ (t ∈ g.selfref ∧ (f, n) ∈ g.selfref) → (f, n) ∈ depends t) ↔
          ∀ u ∈ g.depends t, ∀ n ∈ names, (u.1, n) ∈ g.tids → (u.1, n) ≠ t →
            ¬ (t ∈ g.selfref ∧ (u.1, n) ∈ g.selfref) → Derived g t (u.1, n)) := by
  obtain ⟨depends, hpartB, hmem⟩ := partB_spec o hac
  refine ⟨depends, hpartB, fun t ht => ?_, fun t names ht => ⟨fun hall u hu n hn htids hne hself => ?_,
    fun hall f n hf hn htids hne hself => ?_⟩⟩
  · obtain ⟨hderived, hprune⟩ := (hmem t t).1 ht
    have hself := selfref_of_derived hderived
    exact hprune hself hself
  · have htmem : t ∈ g.tids := g.recursive_mem t (Dict.mem_of_get? ht)
    have hf : g.FileBelow t u.1 := ⟨u, .single ⟨htmem, hu⟩, rfl⟩
    exact ((hmem _ _).1 (hall u.1 n hf hn htids hne hself)).1
  · refine (hmem _ _).2 ⟨?_, fun ht' hn' => hself ⟨ht', hn'⟩⟩
    obtain ⟨u, hu, rfl | hf⟩ := fileBelow_iff.1 hf
    · exact hall u hu.2 n hn htids hne hself
    · exact .file (.direct hu.2) ht hf hn htids hne

/-! ### One recursive task -/

def asListed : Orders ℕ := ⟨id, id, fun _ _ => .rfl, fun _ _ => .rfl⟩

def recDepends (t : ℕ × Str) : List (ℕ × Str) :=
  if t = (0, "do_r".toList) then [(1, "do_c".toList)] else []

def recTids : List (ℕ × Str) := [(0, "do_r".toList), (1, "do_c".toList), (1, "do_b".toList)]

def recTasks : Dict (ℕ × Str) (List Str) := ⟨[((0, "do_r".toList), ["do_b".toList])], by simp⟩

theorem mem_recDepends {t u : ℕ × Str} :
    u ∈ recDepends t ↔ t = (0, "do_r".toList) ∧ u = (1, "do_c".toList) := by
  rw [recDepends]
  split
  case isTrue ht => simp [ht]
  case isFalse ht => exact ⟨fun h => absurd h List.not_mem_nil, fun h => absurd h.1 ht⟩

theorem recDepends_closed : ∀ t ∈ recTids, ∀ u ∈ recDepends t, u ∈ recTids := by
  intro t _ u hu
  rw [(mem_recDepends.1 hu).2]
  decide

theorem recDepends_irrefl (t : ℕ × Str) : t ∉ recDepends t := by
  intro ht
  obtain ⟨rfl, h⟩ := mem_recDepends.1 ht
  exact absurd h (by decide)

theorem recTasks_mem : ∀ t ∈ recTasks, t ∈ recTids := by
  intro t ht
  rw [List.mem_singleton.1 ht]
  exact List.mem_cons_self ..

def recGraph : RunTasks ℕ where
  tids := recTids
  depends := recDepends
  recursivetasks := recTasks
  recursiveitasks := .empty
  closed := recDepends_closed
  irrefl := recDepends_irrefl
  recursive_mem := recTasks_mem

theorem below_recGraph {t u : ℕ × Str} (h : recGraph.Below t u) : t.1 < u.1 := by
  obtain ⟨rfl, rfl⟩ := mem_recDepends.1 h.2
  exact Nat.zero_lt_one

theorem recGraph_acyclic (t : ℕ × Str) : ¬ TransGen recGraph.Below t t := by
  intro h
  have hlt : ∀ u, TransGen recGraph.Below t u → t.1 < u.1 := by
    intro u hu
    induction hu with
    | single hu => exact below_recGraph hu
    | tail _ hu ih => exact ih.trans (below_recGraph hu)
  exact lt_irrefl _ (hlt t h)

theorem recursive_complete_iff_rec : ∃ depends, recGraph.partB asListed = some depends ∧
    (∀ t, t ∉ depends t) ∧
      ∀ t names, recGraph.recursivetasks.get? t = some names →
        ((∀ f n, recGraph.FileBelow t f → n ∈ names → (f, n) ∈ recGraph.tids → (f, n) ≠ t →
            ¬ (t ∈ recGraph.selfref ∧ (f, n) ∈ recGraph.selfref) → (f, n) ∈ depends t) ↔
          ∀ u ∈ recGraph.depends t, ∀ n ∈ names, (u.1, n) ∈ recGraph.tids → (u.1, n) ≠ t →
            ¬ (t ∈ recGraph.selfref ∧ (u.1, n) ∈ recGraph.selfref) →
            Derived recGraph t (u.1, n)) :=
  recursive_complete_iff asListed recGraph_acyclic

/-- The file of the one direct dependency is left out. -/
theorem recursive_incomplete : ∃ depends, recGraph.partB asListed = some depends ∧
    recGraph.recursivetasks.get? (0, "do_r".toList) = some ["do_b".toList] ∧
    recGraph.FileBelow (0, "do_r".toList) 1 ∧ (1, "do_b".toList) ∈ recGraph.tids ∧
    (0, "do_r".toList) ∉ recGraph.selfref ∧ (1, "do_b".toList) ∉ depends (0, "do_r".toList) := by
  have hbelow : recGraph.Below (0, "do_r".toList) (1, "do_c".toList) :=
    ⟨List.mem_cons_self .., mem_recDepends.2 ⟨rfl, rfl⟩⟩
  refine ⟨_, rfl, rfl, ⟨_, .single hbelow, rfl⟩, by decide, by decide, by decide⟩

end RecursiveDeps
end BitBake
end OpenBmc
