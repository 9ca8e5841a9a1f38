import OpenBmc.BitBake.Rehash
import OpenBmc.Lib.Worklist

/-!
# The order of rehashing

`rehash` comes to an end. It computes the hash of a task again exactly if the task depends on one that was
updated, once, and after the hashes of those of its dependencies.
-/

namespace OpenBmc
namespace BitBake
namespace SigData
open Worklist Relation

variable {α : Type*} [LinearOrder α] {d : SigData α} {server : HashServer α}

/-! ### The tasks that depend on the updated ones -/

theorem gather_eq {nodes : Finset α} (hnodes : ∀ a ∈ nodes, d.revdeps a ⊆ nodes) {n : Nat}
    {total next : Finset α} (h : Closing d.revdeps nodes total next) (hn : (nodes \ total).card < n) :
    d.gather n total next = some (worklist d.revdeps n total next) := by
  induction n generalizing total next with
  | zero => omega
  | succ n ih =>
    rw [gather, worklist]
    split
    · rfl
    next hnext =>
      refine ih (h.step hnodes) ?_
      have hlt : (nodes \ (total ∪ next)).card < (nodes \ total).card := by
        obtain ⟨a, ha⟩ := Finset.nonempty_iff_ne_empty.2 hnext
        refine Finset.card_lt_card (Finset.ssubset_iff_subset_ne.2 ⟨?_, fun he => ?_⟩)
        · exact Finset.sdiff_subset_sdiff subset_rfl Finset.subset_union_left
        · have hmem : a ∈ nodes \ total :=
            Finset.mem_sdiff.2 ⟨h.new_subset ha, fun hs => Finset.disjoint_left.1 h.disjoint hs ha⟩
          rw [← he] at hmem
          exact (Finset.mem_sdiff.1 hmem).2 (Finset.mem_union_right _ ha)
      omega

theorem revdeps_subset_tids (a : α) : d.revdeps a ⊆ d.tids.toFinset := fun b hb =>
  List.mem_toFinset.2 (d.mem_tids_of_depends b a ((d.mem_revdeps b a).1 hb)).1

/-- The loop gathers the tasks that depend on one of `updated`, directly or through others. -/
theorem gather_updated (updated : Finset α) {n : Nat} (hn : d.tids.length < n) :
    ∃ total, d.gather n ∅ (updated.biUnion d.revdeps) = some total ∧
      ∀ t, t ∈ total ↔ ∃ u ∈ updated, TransGen d.DependsOn t u := by
  have hstart : updated.biUnion d.revdeps ⊆ d.tids.toFinset :=
    Finset.biUnion_subset.2 fun a _ => revdeps_subset_tids a
  have hclosing : Closing d.revdeps d.tids.toFinset ∅ (updated.biUnion d.revdeps) :=
    ⟨Finset.empty_subset _, hstart, Finset.disjoint_empty_left _,
      fun a ha => absurd ha (Finset.notMem_empty a)⟩
  have hcard : (d.tids.toFinset \ ∅).card < n := by
    rw [Finset.sdiff_empty]
    exact (List.toFinset_card_le _).trans_lt hn
  have hnodes : ∀ a ∈ d.tids.toFinset, d.revdeps a ⊆ d.tids.toFinset := fun a _ => revdeps_subset_tids a
  refine ⟨_, gather_eq hnodes hclosing hcard, fun t => ?_⟩
  rw [mem_worklist hnodes hclosing hcard, or_iff_right (Finset.notMem_empty t)]
  have hreach {a : α} : Reach d.revdeps a t ↔ ReflTransGen d.DependsOn t a := by
    rw [Reach, ← reflTransGen_swap]
    exact iff_of_eq (congrArg (fun r => ReflTransGen r t a)
      (funext fun a => funext fun b => propext (d.mem_revdeps a b)))
  constructor
  · rintro ⟨a, ha, hat⟩
    obtain ⟨u, hu, hau⟩ := Finset.mem_biUnion.1 ha
    exact ⟨u, hu, TransGen.tail' (hreach.1 hat) ((d.mem_revdeps a u).1 hau)⟩
  · rintro ⟨u, hu, htu⟩
    obtain ⟨a, hta, hau⟩ := TransGen.tail'_iff.1 htu
    exact ⟨a, Finset.mem_biUnion.2 ⟨u, hu, (d.mem_revdeps a u).2 hau⟩, hreach.2 hta⟩

/-! ### The rounds -/

section Round
variable (d : SigData α) (server : HashServer α) (kept : Finset α) (unihashes : α → Str)

theorem map_hashReady (tids : List α) (s : Siggen α) :
    (d.hashReady server tids s).2.map Prod.fst = tids := by
  have hfold (tids : List α) (r : Siggen α × List (α × Str)) :
      (tids.foldl (fun r tid => ((d.getTaskhash server r.1 tid).1,
        r.2 ++ [(tid, (d.getTaskhash server r.1 tid).2)])) r).2.map Prod.fst =
          r.2.map Prod.fst ++ tids := by
    induction tids generalizing r with
    | nil => simp
    | cons tid tids ih => rw [List.foldl_cons, ih, List.map_append, List.append_assoc]; rfl
  exact hfold tids (s, [])

/-- What one task of a round does to the sets. -/
theorem applyHash_sets (s : Rehashing α) (ready : α × Str) :
    (d.applyHash server kept unihashes s ready).total = s.total.erase ready.1 ∧
      (d.applyHash server kept unihashes s ready).next =
        (s.next ∪ d.revdeps ready.1) ∩ s.total.erase ready.1 ∧
      (d.applyHash server kept unihashes s ready).recomputed = s.recomputed := by
  unfold applyHash
  dsimp only
  split_ifs <;> exact ⟨rfl, rfl, rfl⟩

theorem foldl_applyHash_sets (l : List (α × Str)) {s : Rehashing α} (hs : s.next ⊆ s.total) :
    (l.foldl (d.applyHash server kept unihashes) s).recomputed = s.recomputed ∧
      (∀ x, x ∈ (l.foldl (d.applyHash server kept unihashes) s).total ↔
        x ∈ s.total ∧ x ∉ l.map Prod.fst) ∧
      ∀ x, x ∈ (l.foldl (d.applyHash server kept unihashes) s).next ↔
        x ∈ (l.foldl (d.applyHash server kept unihashes) s).total ∧
          (x ∈ s.next ∨ ∃ a ∈ l.map Prod.fst, x ∈ d.revdeps a) := by
  induction l generalizing s with
  | nil => exact ⟨rfl, fun x => by simp, fun x => by simpa using @hs x⟩
  | cons r l ih =>
    obtain ⟨htotal, hnext, hrecomputed⟩ := applyHash_sets d server kept unihashes s r
    obtain ⟨ih₁, ih₂, ih₃⟩ := ih (s := d.applyHash server kept unihashes s r) (by
      rw [htotal, hnext]
      exact Finset.inter_subset_right)
    rw [List.foldl_cons]
    refine ⟨ih₁.trans hrecomputed, fun x => ?_, fun x => ?_⟩
    · rw [ih₂, htotal, Finset.mem_erase, List.map_cons, List.mem_cons, not_or]
      exact ⟨fun h => ⟨h.1.2, h.1.1, h.2⟩, fun h => ⟨⟨h.2.1, h.1⟩, h.2.2⟩⟩
    · rw [ih₃, hnext, Finset.mem_inter, Finset.mem_union, List.map_cons]
      refine and_congr_right fun hx => ?_
      have hin : x ∈ s.total.erase r.1 := htotal ▸ ((ih₂ x).1 hx).1
      simp only [hin, and_true, List.mem_cons, exists_eq_or_imp, or_assoc]

end Round

/-- What the loop keeps: the tasks of `affected` that are not left in `total` were computed, each once
and after its dependencies, and those that could be next are. -/
structure Regenerating (d : SigData α) (affected : Finset α) (s : Rehashing α) : Prop where
  total_subset : s.total ⊆ affected
  next_subset : s.next ⊆ s.total
  recomputed : ∀ t, t ∈ s.recomputed ↔ t ∈ affected ∧ t ∉ s.total
  nodup : s.recomputed.Nodup
  depends : ∀ t ∈ s.recomputed, ∀ dep ∈ d.depends t, dep ∉ s.total
  ordered : s.recomputed.Pairwise fun a b => b ∉ d.depends a
  next : ∀ t ∈ s.total, (∀ dep ∈ d.depends t, dep ∉ s.total) → t ∈ s.next

section Loop
variable {kept affected : Finset α} {p : Option α} {s : Rehashing α}

theorem mem_readyTids (hp : ∃ q ∈ p, d.depends q ≠ []) {t : α} :
    t ∈ d.readyTids p s ↔ t ∈ s.next ∧ ∀ dep ∈ d.depends t, dep ∉ s.total := by
  rw [readyTids, List.mem_filter, d.mem_iter, decide_eq_true_eq, waits, not_and, not_exists]
  simp only [hp, true_imp_iff, not_and]

theorem nodup_readyTids : (d.readyTids p s).Nodup := (d.nodup_iter _).filter _

/-- What a round does to the sets: the tasks that wait for nothing are taken out. -/
theorem rehashRound_sets (d : SigData α) (server : HashServer α) (p : Option α) (kept : Finset α)
    (s : Rehashing α) :
    (d.rehashRound server p kept s).recomputed = s.recomputed ++ d.readyTids p s ∧
      (∀ x, x ∈ (d.rehashRound server p kept s).total ↔ x ∈ s.total ∧ x ∉ d.readyTids p s) ∧
      ∀ x, x ∈ (d.rehashRound server p kept s).next ↔
        x ∈ (d.rehashRound server p kept s).total ∧ ∃ a ∈ d.readyTids p s, x ∈ d.revdeps a := by
  have hmap := map_hashReady d server (d.readyTids p s) s.hashes.siggen
  unfold rehashRound
  dsimp only
  generalize d.hashReady server (d.readyTids p s) s.hashes.siggen = hashed at hmap ⊢
  generalize d.getUnihashes server hashed.1 (hashed.2.map Prod.fst) = unihashes
  obtain ⟨h₁, h₂, h₃⟩ := foldl_applyHash_sets d server kept unihashes.2 hashed.2
    (s := { s with
      hashes := { s.hashes with siggen := unihashes.1 }
      next := ∅
      recomputed := s.recomputed ++ d.readyTids p s }) (Finset.empty_subset _)
  rw [hmap] at h₂ h₃
  exact ⟨h₁, h₂, fun x => (h₃ x).trans
    (and_congr_right fun _ => or_iff_right (Finset.notMem_empty x))⟩

theorem Regenerating.round (h : Regenerating d affected s) (hp : ∃ q ∈ p, d.depends q ≠ []) :
    Regenerating d affected (d.rehashRound server p kept s) := by
  obtain ⟨hrecomputed, htotal, hnext⟩ := rehashRound_sets d server p kept s
  have hready {t : α} := mem_readyTids (d := d) (s := s) hp (t := t)
  exact {
    total_subset := fun x hx => h.total_subset ((htotal x).1 hx).1
    next_subset := fun x hx => ((hnext x).1 hx).1
    recomputed := fun t => by
      rw [hrecomputed, List.mem_append, h.recomputed, htotal]
      constructor
      · rintro (⟨ht, hout⟩ | ht)
        · exact ⟨ht, fun hin => hout hin.1⟩
        · exact ⟨h.total_subset (h.next_subset (hready.1 ht).1), fun hin => hin.2 ht⟩
      · rintro ⟨ht, hout⟩
        by_cases hin : t ∈ s.total
        · exact .inr (by_contra fun hr => hout ⟨hin, hr⟩)
        · exact .inl ⟨ht, hin⟩
    nodup := by
      rw [hrecomputed]
      refine h.nodup.append nodup_readyTids fun t ht hr => ?_
      exact ((h.recomputed t).1 ht).2 (h.next_subset (hready.1 hr).1)
    depends := fun t ht dep hdep hin => by
      rw [hrecomputed, List.mem_append] at ht
      rcases ht with ht | ht
      · exact h.depends t ht dep hdep ((htotal dep).1 hin).1
      · exact (hready.1 ht).2 dep hdep ((htotal dep).1 hin).1
    ordered := by
      rw [hrecomputed, List.pairwise_append]
      refine ⟨h.ordered, ?_, fun a ha b hb hdep => ?_⟩
      · refine List.Pairwise.imp_of_mem (R := fun _ _ => True) (fun ha hb _ hdep => ?_)
          (List.pairwise_of_forall fun _ _ => trivial)
        exact (hready.1 ha).2 _ hdep (h.next_subset (hready.1 hb).1)
      · exact h.depends a ha b hdep (h.next_subset (hready.1 hb).1)
    next := fun t ht hdeps => by
      obtain ⟨hin, hnot⟩ := (htotal t).1 ht
      -- a dependency was in the way, or the task would have been ready
      have hwait : ∃ dep ∈ d.depends t, dep ∈ s.total := by
        by_contra hnone
        have hfree : ∀ dep ∈ d.depends t, dep ∉ s.total := fun dep hd hi => hnone ⟨dep, hd, hi⟩
        exact hnot (hready.2 ⟨h.next t hin hfree, hfree⟩)
      obtain ⟨dep, hdep, hdepin⟩ := hwait
      refine (hnext t).2 ⟨ht, dep, by_contra fun hr => ?_, (d.mem_revdeps t dep).2 hdep⟩
      exact hdeps dep hdep ((htotal dep).2 ⟨hdepin, hr⟩) }

/-- While tasks are left, one of them waits for none. -/
theorem Regenerating.exists_ready (h : Regenerating d affected s) (hne : s.total.Nonempty) :
    ∃ t ∈ s.next, ∀ dep ∈ d.depends t, dep ∉ s.total := by
  obtain ⟨t, ht, hmin⟩ := s.total.exists_min_image (Dag.rank d.DependsOn d.tids.toFinset) hne
  have hfree : ∀ dep ∈ d.depends t, dep ∉ s.total := fun dep hdep hin =>
    absurd (hmin dep hin) (not_le_of_gt (d.dag.rank_lt hdep))
  exact ⟨t, h.next t ht hfree, hfree⟩

theorem Regenerating.loop {n : Nat} (h : Regenerating d affected s) (server : HashServer α)
    (kept : Finset α) (hp : s.total.Nonempty → ∃ q ∈ p, d.depends q ≠ []) (hn : s.total.card < n) :
    ∃ s', d.rehashLoop server p kept n s = some s' ∧ Regenerating d affected s' ∧ s'.total = ∅ := by
  induction n generalizing s with
  | zero => omega
  | succ n ih =>
    rw [rehashLoop]
    obtain hempty | hne := s.total.eq_empty_or_nonempty
    · have hnext : s.next = ∅ := Finset.subset_empty.1 (hempty ▸ h.next_subset)
      exact ⟨s, if_pos hnext, h, hempty⟩
    · obtain ⟨t, ht, hfree⟩ := h.exists_ready hne
      have hp' := hp hne
      obtain ⟨-, htotal, -⟩ := rehashRound_sets d server p kept s
      have hlt : (d.rehashRound server p kept s).total.card < s.total.card := by
        refine Finset.card_lt_card (Finset.ssubset_iff_subset_ne.2
          ⟨fun x hx => ((htotal x).1 hx).1, fun he => ?_⟩)
        have hin := h.next_subset ht
        rw [← he] at hin
        exact ((htotal t).1 hin).2 ((mem_readyTids hp').2 ⟨ht, hfree⟩)
      rw [if_neg (Finset.ne_empty_of_mem ht)]
      exact ih (h.round hp') (fun _ => hp') (by omega)

/-! ### What becomes of the hashes -/

/-- Only tasks of `changed` have other hashes, and these were computed and are not kept. -/
structure Framed (h₀ : Hashes α) (kept : Finset α) (s : Rehashing α) : Prop where
  changed : ∀ t ∈ s.changed, t ∈ s.recomputed ∧ t ∉ kept
  hashes : ∀ t ∉ s.changed, s.hashes.hash t = h₀.hash t ∧ s.hashes.unihash t = h₀.unihash t
  reports : ∀ report ∈ s.reports, report.1 ∈ s.recomputed ∧ report.1 ∈ kept
  queue : s.hashes.updatedTaskhashQueue = h₀.updatedTaskhashQueue

variable {h₀ : Hashes α} {unihashes : α → Str}

theorem Framed.applyHash (h : Framed h₀ kept s) {ready : α × Str} (hready : ready.1 ∈ s.recomputed) :
    Framed h₀ kept (d.applyHash server kept unihashes s ready) := by
  unfold SigData.applyHash
  dsimp only
  split_ifs with hsame hkept
  · exact { h with }
  · exact { h with
      reports := fun report hr => by
        rcases List.mem_append.1 hr with hr | hr
        · exact h.reports report hr
        · rw [List.mem_singleton.1 hr]
          exact ⟨hready, hkept⟩ }
  · exact { h with
      changed := fun t ht => by
        rcases Finset.mem_insert.1 ht with rfl | ht
        · exact ⟨hready, hkept⟩
        · exact h.changed t ht
      hashes := fun t ht => by
        rw [Finset.mem_insert, not_or] at ht
        dsimp only
        rw [Function.update_of_ne ht.1, Function.update_of_ne ht.1]
        exact h.hashes t ht.2 }

theorem Framed.round (h : Framed h₀ kept s) : Framed h₀ kept (d.rehashRound server p kept s) := by
  have hfold (unihashes : α → Str) (l : List (α × Str)) {s : Rehashing α} (h : Framed h₀ kept s)
      (hl : ∀ ready ∈ l, ready.1 ∈ s.recomputed) :
      Framed h₀ kept (l.foldl (d.applyHash server kept unihashes) s) := by
    induction l generalizing s with
    | nil => exact h
    | cons ready l ih =>
      refine ih (h.applyHash (hl ready List.mem_cons_self)) fun r hr => ?_
      rw [(applyHash_sets d server kept unihashes s ready).2.2]
      exact hl r (List.mem_cons_of_mem ready hr)
  have hmap := map_hashReady d server (d.readyTids p s) s.hashes.siggen
  refine hfold _ _ ?_ fun ready hr => ?_
  · exact { h with
      changed := fun t ht => ⟨List.mem_append_left _ (h.changed t ht).1, (h.changed t ht).2⟩
      reports := fun r hr => ⟨List.mem_append_left _ (h.reports r hr).1, (h.reports r hr).2⟩ }
  · exact List.mem_append_right _ (hmap ▸ List.mem_map_of_mem hr)

theorem Framed.loop {n : Nat} {s' : Rehashing α} (h : Framed h₀ kept s)
    (hloop : d.rehashLoop server p kept n s = some s') : Framed h₀ kept s' := by
  induction n generalizing s with
  | zero => cases hloop
  | succ n ih =>
    rw [rehashLoop] at hloop
    split at hloop
    · exact Option.some.inj hloop ▸ h
    · exact ih h.round hloop

end Loop

/-! ### `rehash` -/

section Updates
variable (d) (running : Finset α) (sqDeferred : Dict α α)

theorem queue_takeUpdate (s : Hashes α × Finset α) (update : α × Str) :
    (d.takeUpdate running sqDeferred s update).1.updatedTaskhashQueue =
      if update.1 ∈ running then s.1.updatedTaskhashQueue else s.1.updatedTaskhashQueue.erase update := by
  have hfold (l : List α) (s : Hashes α × Finset α) :
      (l.foldl (d.rehashTid update.2) s).1.updatedTaskhashQueue = s.1.updatedTaskhashQueue := by
    induction l generalizing s with
    | nil => rfl
    | cons a l ih => exact ih _
  unfold takeUpdate
  dsimp only
  split_ifs
  · rfl
  · exact hfold _ _
  · rfl

/-- The updates of the tasks that run stay in the queue. -/
theorem queue_takeUpdates (h : Hashes α) : (d.takeUpdates running sqDeferred h).1.updatedTaskhashQueue =
    h.updatedTaskhashQueue.filter fun update => update.1 ∈ running := by
  have hfold (l kept : List (α × Str)) (s : Hashes α × Finset α)
      (hkept : ∀ update ∈ kept, update.1 ∈ running) (hs : s.1.updatedTaskhashQueue = kept ++ l) :
      (l.foldl (d.takeUpdate running sqDeferred) s).1.updatedTaskhashQueue =
        kept ++ l.filter fun update => update.1 ∈ running := by
    induction l generalizing kept s with
    | nil => exact hs
    | cons update l ih =>
      rw [List.foldl_cons]
      by_cases hrun : update.1 ∈ running
      · rw [ih (kept ++ [update]) _ ?_ ?_, List.filter_cons_of_pos (by simpa using hrun)]
        · simp
        · intro u hu
          rcases List.mem_append.1 hu with hu | hu
          · exact hkept u hu
          · exact List.mem_singleton.1 hu ▸ hrun
        · rw [queue_takeUpdate, if_pos hrun, hs, List.append_assoc]
          rfl
      · rw [ih kept _ hkept, List.filter_cons_of_neg (by simpa using hrun)]
        rw [queue_takeUpdate, if_neg hrun, hs,
          List.erase_append_right _ fun hu => hrun (hkept update hu), List.erase_cons_head]
  exact hfold _ [] (h, ∅) (by simp) rfl

end Updates

/-- The tasks that depend on an updated one are rehashed, each once and after its dependencies. The hashes
of the others stay, and so do those of the tasks that were covered or run. -/
theorem rehash_spec (d : SigData α) (server : HashServer α) (running : Finset α) (sqDeferred : Dict α α)
    (kept : Finset α) (h : Hashes α) :
    ∃ r, d.rehash server running sqDeferred kept (d.tids.length + 2) h = some r ∧
      r.recomputed.Nodup ∧
      (∀ t, t ∈ r.recomputed ↔
        ∃ u ∈ (d.takeUpdates running sqDeferred h).2, TransGen d.DependsOn t u) ∧
      (∀ l t l', r.recomputed = l ++ t :: l' → ∀ dep ∈ d.depends t, dep ∈ r.recomputed → dep ∈ l) ∧
      (∀ t ∈ r.changed, t ∈ r.recomputed ∧ t ∉ kept) ∧
      (∀ t ∉ r.changed, r.hashes.hash t = (d.takeUpdates running sqDeferred h).1.hash t ∧
        r.hashes.unihash t = (d.takeUpdates running sqDeferred h).1.unihash t) ∧
      (∀ report ∈ r.reports, report.1 ∈ r.recomputed ∧ report.1 ∈ kept) ∧
      r.hashes.updatedTaskhashQueue = h.updatedTaskhashQueue.filter fun update => update.1 ∈ running := by
  obtain ⟨total, hgather, htotal⟩ := gather_updated (d := d) (d.takeUpdates running sqDeferred h).2
    (n := d.tids.length + 2) (by omega)
  have hsub : total ⊆ d.tids.toFinset := fun t ht => by
    obtain ⟨u, -, htu⟩ := (htotal t).1 ht
    obtain ⟨a, hta, -⟩ := TransGen.head'_iff.1 htu
    exact List.mem_toFinset.2 (d.mem_tids_of_depends t a hta).1
  have hstart : Regenerating d total
      { hashes := (d.takeUpdates running sqDeferred h).1, total, next := d.firstTids total, changed := ∅,
        recomputed := [], reports := [] } := {
    total_subset := subset_rfl
    next_subset := Finset.filter_subset _ _
    recomputed := fun t => ⟨fun ht => absurd ht List.not_mem_nil, fun ht => absurd ht.1 ht.2⟩
    nodup := List.nodup_nil
    depends := fun t ht => absurd ht List.not_mem_nil
    ordered := List.Pairwise.nil
    next := fun t ht hfree => Finset.mem_filter.2 ⟨ht, .inr hfree⟩ }
  have hp : total.Nonempty → ∃ q ∈ (d.iter total).getLast?, d.depends q ≠ [] := by
    rintro ⟨t, ht⟩
    have hne : d.iter total ≠ [] := List.ne_nil_of_mem ((d.mem_iter total t).2 ht)
    refine ⟨_, List.getLast?_eq_some_getLast hne, fun hnil => ?_⟩
    obtain ⟨u, -, hlast⟩ := (htotal _).1 ((d.mem_iter total _).1 (List.getLast_mem hne))
    obtain ⟨a, hdep, -⟩ := TransGen.head'_iff.1 hlast
    rw [TaskGraph.DependsOn, hnil] at hdep
    cases hdep
  have hcard : total.card < d.tids.length + 2 := by
    have := (Finset.card_le_card hsub).trans (List.toFinset_card_le _)
    omega
  obtain ⟨r, hloop, hr, hempty⟩ := hstart.loop server kept hp hcard
  have hframed : Framed (d.takeUpdates running sqDeferred h).1 kept r :=
    Framed.loop ⟨fun t ht => absurd ht (Finset.notMem_empty t), fun _ _ => ⟨rfl, rfl⟩,
      fun report hr => absurd hr List.not_mem_nil, rfl⟩ hloop
  refine ⟨r, ?_, hr.nodup, fun t => ?_, fun l t l' hl dep hdep hin => ?_, hframed.changed,
    hframed.hashes, hframed.reports, hframed.queue.trans (queue_takeUpdates d running sqDeferred h)⟩
  · rw [rehash, hgather]
    exact hloop
  · rw [hr.recomputed, hempty, ← htotal]
    exact and_iff_left (Finset.notMem_empty t)
  · have hordered := hr.ordered
    rw [hl] at hordered hin
    rcases List.mem_append.1 hin with hin | hin
    · exact hin
    rcases List.mem_cons.1 hin with rfl | hin
    · exact absurd hdep (TaskGraph.not_mem_depends_self _ _)
    · exact absurd hdep ((List.pairwise_cons.1 (List.pairwise_append.1 hordered).2.1).1 dep hin)

end SigData
end BitBake
end OpenBmc
