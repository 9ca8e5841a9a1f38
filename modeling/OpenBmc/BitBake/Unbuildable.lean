import OpenBmc.BitBake.TaskData
import Mathlib.Data.Finset.Card
import Mathlib.Data.Fintype.Prod

/-!
# What cannot be built

`Fails` derives what cannot be provided: a file from one of its dependencies, a target from all its
providers. `fail_fn` and `remove_buildtarget` follow the derivation backwards. While they do, a failed
file may still be listed and a failed target may still have dependees that are not failed, each for
as long as its own call lasts (`Closed`). Nothing else is failed as long as no target is removed
before all its providers were added (`Sound`).
-/

set_option linter.unusedSectionVars false

namespace OpenBmc
namespace BitBake
open Loop

variable {Fn Item : Type}

namespace ProviderCache
variable (dc : ProviderCache Fn Item)

/-- The eligible providers. Where several providers are preferred, a runtime item has none. -/
def candidates (k : Kind) (item : Item) : List Fn :=
  if k = .run ∧ 1 < dc.numberPreferred item then [] else dc.filtered k item

/-- A task of the file names the item among its inter-task dependencies. -/
def Idepends (k : Kind) (fn : Fn) (item : Item) : Prop :=
  ∃ task ∈ (dc.tasks fn).entries, ∃ d ∈ task.2.idepends k, d.1 = item

def Needs (k : Kind) (fn : Fn) (item : Item) : Prop := item ∈ dc.deps k fn ∨ dc.Idepends k fn item

/-- All items that are requested or that a file needs. -/
def items (requested : List Item) : List Item :=
  requested ++ dc.files.flatMap fun fn => dc.deps .build fn ++ dc.deps .run fn ++
    (dc.tasks fn).entries.flatMap fun task =>
      (task.2.idepends .build ++ task.2.idepends .run).map Prod.fst

theorem mem_items_of_needs {requested : List Item} {k : Kind} {fn : Fn} {item : Item}
    (hfn : fn ∈ dc.files) (h : dc.Needs k fn item) : item ∈ dc.items requested := by
  refine List.mem_append_right _ (List.mem_flatMap.2 ⟨fn, hfn, ?_⟩)
  rcases h with h | ⟨task, htask, d, hd, rfl⟩
  · cases k with
    | build => exact List.mem_append_left _ (List.mem_append_left _ h)
    | run => exact List.mem_append_left _ (List.mem_append_right _ h)
  · refine List.mem_append_right _ (List.mem_flatMap.2 ⟨task, htask, List.mem_map.2 ⟨d, ?_, rfl⟩⟩)
    cases k with
    | build => exact List.mem_append_left _ hd
    | run => exact List.mem_append_right _ hd

theorem candidates_mem {k : Kind} {item : Item} {fn : Fn} (h : fn ∈ dc.candidates k item) :
    fn ∈ dc.files := by
  unfold candidates at h
  split at h
  · cases h
  · exact dc.filtered_mem k item fn h

end ProviderCache

/-- A file or a target. -/
inductive Node (Fn Item : Type)
  | file (fn : Fn)
  | target (k : Kind) (item : Item)

/-- The files and targets that fail: the least sets in which a file is that needs a target that is, and
a target is whose eligible providers all are. -/
inductive Fails (dc : ProviderCache Fn Item) (file : Fn → Prop) (target : Kind → Item → Prop) :
    Node Fn Item → Prop
  | file {k : Kind} {fn : Fn} {item : Item} : file fn → dc.Needs k fn item →
      Fails dc file target (.target k item) → Fails dc file target (.file fn)
  | target {k : Kind} {item : Item} : target k item → dc.ignored item = false →
      (∀ fn ∈ dc.candidates k item, Fails dc file target (.file fn)) →
      Fails dc file target (.target k item)

theorem Fails.mono {dc : ProviderCache Fn Item} {file file' : Fn → Prop} {target target' : Kind → Item → Prop}
    (hfile : ∀ fn, file fn → file' fn) (htarget : ∀ k item, target k item → target' k item)
    {x : Node Fn Item} (h : Fails dc file target x) : Fails dc file' target' x := by
  induction h with
  | file hfn hneeds _ ih => exact .file (hfile _ hfn) hneeds ih
  | target hitem hign _ ih => exact .target (htarget _ _ hitem) hign ih

namespace TaskData
variable [DecidableEq Fn] [DecidableEq Item] {dc : ProviderCache Fn Item} {requested : List Item}
  {s s' s'' : TaskData Fn Item}

/-! ### Updates -/

@[simp] theorem providers_setProviders (k k' : Kind) (t t' : Item) (l : List Fn) :
    (s.setProviders k t l).providers k' t' = if k' = k ∧ t' = t then l else s.providers k' t' := by
  by_cases hk : k' = k
  · subst hk
    by_cases ht : t' = t <;> simp [providers, setProviders, ht]
  · simp [providers, setProviders, hk]

theorem mem_targets_setProviders {k k' : Kind} {t t' : Item} {l : List Fn} :
    t' ∈ (s.setProviders k t l).targets k' ↔ (k' = k ∧ t' = t) ∨ t' ∈ s.targets k' := by
  by_cases hk : k' = k
  · subst hk
    simp [setProviders]
  · simp [setProviders, hk]

theorem mem_targets_of_mem_providers {k : Kind} {t : Item} {fn : Fn} (h : fn ∈ s.providers k t) :
    t ∈ s.targets k := by
  rw [Dict.mem_iff_get?_isSome]
  unfold providers at h
  cases hget : (s.targets k).get? t with
  | none =>
    rw [hget] at h
    cases h
  | some l => exact ⟨l, rfl⟩

@[simp] theorem providers_seenTarget (k k' : Kind) (t t' : Item) :
    (s.seenTarget k t).providers k' t' = s.providers k' t' := by
  unfold seenTarget
  split
  · rfl
  · rename_i hnot
    rw [providers_setProviders]
    split
    · rename_i heq
      obtain ⟨rfl, rfl⟩ := heq
      rw [providers, Dict.get?_eq_none_iff.2 hnot]
      rfl
    · rfl

theorem mem_targets_seenTarget {k k' : Kind} {t t' : Item} :
    t' ∈ (s.seenTarget k t).targets k' ↔ (k' = k ∧ t' = t) ∨ t' ∈ s.targets k' := by
  unfold seenTarget
  split
  · rename_i hmem
    refine (or_iff_right_of_imp ?_).symm
    rintro ⟨rfl, rfl⟩
    exact hmem
  · exact mem_targets_setProviders

theorem seenTarget_frame (s : TaskData Fn Item) (k : Kind) (t : Item) :
    ∃ targets, s.seenTarget k t = { s with targets } := by
  unfold seenTarget
  split
  · exact ⟨s.targets, rfl⟩
  · exact ⟨_, rfl⟩

/-! ### What holds of every state -/

/-- The targets of the build: those that were seen or requested. -/
def Visited (requested : List Item) (s : TaskData Fn Item) (k : Kind) (t : Item) : Prop :=
  t ∈ s.targets k ∨ (k = .build ∧ t ∈ requested)

/-- What the run so far makes fail. -/
def FailsIn (dc : ProviderCache Fn Item) (requested : List Item) (s : TaskData Fn Item) :
    Node Fn Item → Prop :=
  Fails dc (· ∈ s.seenfns) (s.Visited requested)

/-- The records of the visited files are those of the recipes, and only eligible providers are
listed. -/
structure Shape (dc : ProviderCache Fn Item) (requested : List Item) (s : TaskData Fn Item) : Prop where
  files : ∀ fn ∈ s.seenfns, fn ∈ dc.files
  depids : ∀ k fn, (s.depids k).get? fn = if fn ∈ s.seenfns then some (dc.deps k fn) else none
  entries : ∀ fn name,
    s.taskentries.get? (fn, name) = if fn ∈ s.seenfns then (dc.tasks fn).get? name else none
  nodup : ∀ k t, (s.providers k t).Nodup
  candidate : ∀ k t, ∀ fn ∈ s.providers k t, fn ∈ dc.candidates k t
  not_ignored : ∀ k t, s.providers k t ≠ [] → dc.ignored t = false
  items : ∀ k, ∀ t ∈ s.targets k, t ∈ dc.items requested

theorem Shape.mem_getDependees (h : Shape dc requested s) {k : Kind} {t : Item} {fn : Fn} :
    fn ∈ s.getDependees k t ↔ fn ∈ s.seenfns ∧ t ∈ dc.deps k fn := by
  have hentry : ∀ l, (fn, l) ∈ (s.depids k).entries ↔ fn ∈ s.seenfns ∧ dc.deps k fn = l := by
    intro l
    rw [← Dict.get?_eq_some_iff, h.depids k fn]
    by_cases hfn : fn ∈ s.seenfns <;> simp [hfn]
  simp only [getDependees, List.mem_map, List.mem_filter, decide_eq_true_eq, Prod.exists]
  constructor
  · rintro ⟨_, l, ⟨hmem, ht⟩, rfl⟩
    obtain ⟨hfn, rfl⟩ := (hentry l).1 hmem
    exact ⟨hfn, ht⟩
  · rintro ⟨hfn, ht⟩
    exact ⟨fn, _, ⟨(hentry _).2 ⟨hfn, rfl⟩, ht⟩, rfl⟩

theorem Shape.mem_idependsList (h : Shape dc requested s) {k : Kind} {t : Item} {fn : Fn} :
    (fn, t) ∈ s.idependsList k ↔ fn ∈ s.seenfns ∧ dc.Idepends k fn t := by
  have hentry : ∀ name e, ((fn, name), e) ∈ s.taskentries.entries ↔
      fn ∈ s.seenfns ∧ (name, e) ∈ (dc.tasks fn).entries := by
    intro name e
    rw [← Dict.get?_eq_some_iff, ← Dict.get?_eq_some_iff, h.entries fn name]
    by_cases hfn : fn ∈ s.seenfns <;> simp [hfn]
  simp only [idependsList, List.mem_flatMap, List.mem_map, Prod.mk.injEq, ProviderCache.Idepends]
  constructor
  · rintro ⟨⟨⟨f, name⟩, e⟩, hmem, d, hd, rfl, rfl⟩
    obtain ⟨hfn, htask⟩ := (hentry name e).1 hmem
    exact ⟨hfn, (name, e), htask, d, hd, rfl⟩
  · rintro ⟨hfn, ⟨name, e⟩, htask, d, hd, rfl⟩
    exact ⟨((fn, name), e), (hentry name e).2 ⟨hfn, htask⟩, d, hd, rfl, rfl⟩

/-- A later state of a run: nothing is unlearned, and a provider is lost only because it failed. -/
structure Later (s s' : TaskData Fn Item) : Prop where
  seenfns : ∀ fn ∈ s.seenfns, fn ∈ s'.seenfns
  targets : ∀ k, ∀ t ∈ s.targets k, t ∈ s'.targets k
  failedFns : ∀ fn ∈ s.failedFns, fn ∈ s'.failedFns
  failedDeps : ∀ k, ∀ t ∈ s.failedDeps k, t ∈ s'.failedDeps k
  lost : ∀ k t, ∀ fn ∈ s.providers k t, fn ∈ s'.providers k t ∨ fn ∈ s'.failedFns
  settled : ∀ k t, s.providers k t ≠ [] → s'.providers k t ≠ [] ∨ t ∈ s'.failedDeps k

theorem Later.refl (s : TaskData Fn Item) : Later s s :=
  ⟨fun _ h => h, fun _ _ h => h, fun _ h => h, fun _ _ h => h, fun _ _ _ h => .inl h,
    fun _ _ h => .inl h⟩

theorem Later.trans (h : Later s s') (h' : Later s' s'') : Later s s'' where
  seenfns fn hfn := h'.seenfns fn (h.seenfns fn hfn)
  targets k t ht := h'.targets k t (h.targets k t ht)
  failedFns fn hfn := h'.failedFns fn (h.failedFns fn hfn)
  failedDeps k t ht := h'.failedDeps k t (h.failedDeps k t ht)
  lost k t fn hfn := by
    rcases h.lost k t fn hfn with hfn | hfn
    · exact h'.lost k t fn hfn
    · exact .inr (h'.failedFns fn hfn)
  settled k t ht := by
    rcases h.settled k t ht with ht | ht
    · exact h'.settled k t ht
    · exact .inr (h'.failedDeps k t ht)

/-- What a failure leads to: nothing is visited, and the provider lists only lose files. -/
structure Shrinks (s s' : TaskData Fn Item) : Prop extends Later s s' where
  seen_of_seen : ∀ fn ∈ s'.seenfns, fn ∈ s.seenfns
  target_of_target : ∀ k, ∀ t ∈ s'.targets k, t ∈ s.targets k
  sublist : ∀ k t, (s'.providers k t).Sublist (s.providers k t)

theorem Shrinks.refl (s : TaskData Fn Item) : Shrinks s s :=
  ⟨.refl s, fun _ h => h, fun _ _ h => h, fun _ _ => List.Sublist.refl _⟩

theorem Shrinks.trans (h : Shrinks s s') (h' : Shrinks s' s'') : Shrinks s s'' where
  toLater := h.toLater.trans h'.toLater
  seen_of_seen fn hfn := h.seen_of_seen fn (h'.seen_of_seen fn hfn)
  target_of_target k t ht := h.target_of_target k t (h'.target_of_target k t ht)
  sublist k t := (h'.sublist k t).trans (h.sublist k t)

theorem FailsIn.later (h : Later s s') {x : Node Fn Item} (hx : FailsIn dc requested s x) :
    FailsIn dc requested s' x :=
  Fails.mono h.seenfns (fun k _ ht => ht.imp_left (h.targets k _)) hx

/-! ### Files and targets in progress -/

/-- The failed files are taken out of the lists, except those of `P`; what needs a failed target is
failed, except for the targets of `Q` and the file that is being added. -/
structure Closed (dc : ProviderCache Fn Item) (P : Fn → Prop) (Q : Kind → Item → Prop) (E : Fn → Prop)
    (s : TaskData Fn Item) : Prop where
  lists : ∀ k t, ∀ fn ∈ s.providers k t, fn ∈ s.failedFns → P fn
  needs : ∀ k t fn, fn ∈ s.seenfns → dc.Needs k fn t → t ∈ s.failedDeps k →
    fn ∈ s.failedFns ∨ Q k t ∨ E fn

/-- Failures are derived. A target that has a provider has all the eligible ones that did not fail,
except for those of `R`, which are still to be added. -/
structure Sound (dc : ProviderCache Fn Item) (requested : List Item) (R : Kind → Item → Fn → Prop)
    (s : TaskData Fn Item) : Prop where
  failedFns : ∀ fn ∈ s.failedFns, FailsIn dc requested s (.file fn)
  failedDeps : ∀ k, ∀ t ∈ s.failedDeps k, FailsIn dc requested s (.target k t)
  lists : ∀ k t, s.providers k t ≠ [] → ∀ fn ∈ dc.candidates k t,
    fn ∈ s.providers k t ∨ fn ∈ s.failedFns ∨ R k t fn

/-- A target was removed while a provider was still to be added. -/
def Hasty (R : Kind → Item → Fn → Prop) (s : TaskData Fn Item) : Prop :=
  ∃ k t fn, R k t fn ∧ t ∈ s.failedDeps k

theorem Hasty.later {R : Kind → Item → Fn → Prop} (h : Later s s') (hs : Hasty R s) : Hasty R s' := by
  obtain ⟨k, t, fn, hR, ht⟩ := hs
  exact ⟨k, t, fn, hR, h.failedDeps k t ht⟩

/-- What holds during a failure, in a run that is clean (`c`) as far as it is followed. -/
structure During (dc : ProviderCache Fn Item) (requested : List Item) (c : Prop) (P : Fn → Prop)
    (Q : Kind → Item → Prop) (E : Fn → Prop) (R : Kind → Item → Fn → Prop) (s : TaskData Fn Item) :
    Prop where
  shape : Shape dc requested s
  closed : c → Closed dc P Q E s
  sound : c → Hasty R s ∨ Sound dc requested R s

/-- Why `x` fails. -/
def Because (dc : ProviderCache Fn Item) (requested : List Item) (c : Prop) (R : Kind → Item → Fn → Prop)
    (s : TaskData Fn Item) (x : Node Fn Item) : Prop :=
  c → Hasty R s ∨ FailsIn dc requested s x

theorem Because.later {c : Prop} {R : Kind → Item → Fn → Prop} {x : Node Fn Item} (h : Later s s')
    (hx : Because dc requested c R s x) : Because dc requested c R s' x :=
  fun hc => (hx hc).imp (Hasty.later h) (FailsIn.later h)

/-! ### One step of a failure -/

section Primitive
variable {c : Prop} {P : Fn → Prop} {Q : Kind → Item → Prop} {E : Fn → Prop}
  {R : Kind → Item → Fn → Prop}

def markFile (s : TaskData Fn Item) (fn : Fn) : TaskData Fn Item :=
  { s with failedFns := s.failedFns ++ [fn] }

def markTarget (s : TaskData Fn Item) (k : Kind) (t : Item) : TaskData Fn Item :=
  { s with failedDeps := Function.update s.failedDeps k (s.failedDeps k ++ [t]) }

theorem mem_markTarget {k k' : Kind} {t t' : Item} :
    t' ∈ (s.markTarget k t).failedDeps k' ↔ t' ∈ s.failedDeps k' ∨ (k' = k ∧ t' = t) := by
  by_cases hk : k' = k
  · subst hk
    simp [markTarget]
  · simp [markTarget, hk]

theorem shrinks_markFile (s : TaskData Fn Item) (fn : Fn) : Shrinks s (s.markFile fn) where
  toLater := ⟨fun _ h => h, fun _ _ h => h, fun _ h => List.mem_append_left _ h, fun _ _ h => h,
    fun _ _ _ h => .inl h, fun _ _ h => .inl h⟩
  seen_of_seen _ h := h
  target_of_target _ _ h := h
  sublist _ _ := List.Sublist.refl _

theorem shrinks_markTarget (s : TaskData Fn Item) (k : Kind) (t : Item) :
    Shrinks s (s.markTarget k t) where
  toLater := ⟨fun _ h => h, fun _ _ h => h, fun _ h => h, fun _ _ h => mem_markTarget.2 (.inl h),
    fun _ _ _ h => .inl h, fun _ _ h => .inl h⟩
  seen_of_seen _ h := h
  target_of_target _ _ h := h
  sublist _ _ := List.Sublist.refl _

theorem During.markFile {fn : Fn} (h : During dc requested c P Q E R s)
    (hfn : Because dc requested c R s (.file fn)) :
    During dc requested c (fun f => f = fn ∨ P f) Q E R (s.markFile fn) where
  shape := ⟨h.shape.files, h.shape.depids, h.shape.entries, h.shape.nodup, h.shape.candidate,
    h.shape.not_ignored, h.shape.items⟩
  closed hc := by
    refine ⟨fun k t f hf hfail => ?_, fun k t f hseen hneeds ht => ?_⟩
    · rcases List.mem_append.1 hfail with hfail | hfail
      · exact .inr ((h.closed hc).lists k t f hf hfail)
      · exact .inl (List.mem_singleton.1 hfail)
    · exact ((h.closed hc).needs k t f hseen hneeds ht).imp_left (List.mem_append_left _)
  sound hc := by
    have hlater := (shrinks_markFile s fn).toLater
    rcases h.sound hc with hasty | hs
    · exact .inl (hasty.later hlater)
    rcases hfn hc with hasty | hfails
    · exact .inl (hasty.later hlater)
    refine .inr ⟨fun f hf => ?_, fun k t ht => (hs.failedDeps k t ht).later hlater, fun k t hne f hf => ?_⟩
    · rcases List.mem_append.1 hf with hf | hf
      · exact (hs.failedFns f hf).later hlater
      · rw [List.mem_singleton.1 hf]
        exact hfails.later hlater
    · exact (hs.lists k t hne f hf).imp_right (Or.imp_left (List.mem_append_left _))

theorem During.markTarget {k : Kind} {t : Item} (h : During dc requested c P Q E R s)
    (ht : c → Hasty R (s.markTarget k t) ∨ FailsIn dc requested s (.target k t)) :
    During dc requested c P (fun k' t' => (k' = k ∧ t' = t) ∨ Q k' t') E R (s.markTarget k t) where
  shape := ⟨h.shape.files, h.shape.depids, h.shape.entries, h.shape.nodup, h.shape.candidate,
    h.shape.not_ignored, h.shape.items⟩
  closed hc := by
    refine ⟨(h.closed hc).lists, fun k' t' f hseen hneeds ht' => ?_⟩
    rcases mem_markTarget.1 ht' with ht' | heq
    · exact ((h.closed hc).needs k' t' f hseen hneeds ht').imp_right (Or.imp_left .inr)
    · exact .inr (.inl (.inl heq))
  sound hc := by
    have hlater := (shrinks_markTarget s k t).toLater
    rcases h.sound hc with hasty | hs
    · exact .inl (hasty.later hlater)
    rcases ht hc with hasty | hfails
    · exact .inl hasty
    refine .inr ⟨fun f hf => (hs.failedFns f hf).later hlater, fun k' t' ht' => ?_, hs.lists⟩
    rcases mem_markTarget.1 ht' with ht' | ⟨rfl, rfl⟩
    · exact (hs.failedDeps k' t' ht').later hlater
    · exact hfails.later hlater

/-- What a file needs fails the file. -/
theorem because_file {k : Kind} {fn : Fn} {t : Item} (hfn : fn ∈ s.seenfns) (hneeds : dc.Needs k fn t)
    (h : Because dc requested c R s (.target k t)) : Because dc requested c R s (.file fn) :=
  fun hc => (h hc).imp_right (.file hfn hneeds)

theorem During.because_target {k : Kind} {t : Item} (h : During dc requested c P Q E R s)
    (ht : t ∈ s.failedDeps k) : Because dc requested c R s (.target k t) :=
  fun hc => (h.sound hc).imp_right fun hs => hs.failedDeps k t ht

/-- The files that are not failed yet. -/
def unfailed (dc : ProviderCache Fn Item) (s : TaskData Fn Item) : Nat :=
  (dc.files.toFinset.filter (· ∉ s.failedFns)).card

theorem unfailed_later (dc : ProviderCache Fn Item) (h : Later s s') : unfailed dc s' ≤ unfailed dc s := by
  refine Finset.card_le_card fun fn hfn => ?_
  rw [Finset.mem_filter] at hfn ⊢
  exact ⟨hfn.1, fun hfail => hfn.2 (h.failedFns fn hfail)⟩

theorem unfailed_markFile {fn : Fn} (hfile : fn ∈ dc.files) (hfn : fn ∉ s.failedFns) :
    unfailed dc (s.markFile fn) < unfailed dc s := by
  refine Finset.card_lt_card ⟨fun f hf => ?_, fun hsub => ?_⟩
  · rw [Finset.mem_filter] at hf ⊢
    exact ⟨hf.1, fun hfail => hf.2 (List.mem_append_left _ hfail)⟩
  · have hin := hsub (Finset.mem_filter.2 ⟨List.mem_toFinset.2 hfile, hfn⟩)
    exact (Finset.mem_filter.1 hin).2 (List.mem_append_right _ (List.mem_singleton.2 rfl))

end Primitive

/-! ### A whole failure -/

section Failure
variable {c : Prop} {P : Fn → Prop} {Q : Kind → Item → Prop} {E : Fn → Prop}
  {R : Kind → Item → Fn → Prop} {n : Nat}

/-- `fail` fails any file that fails, where at most `n` files are left. -/
def FailsAll (dc : ProviderCache Fn Item) (requested : List Item) (c : Prop) (E : Fn → Prop)
    (R : Kind → Item → Fn → Prop) (n : Nat)
    (fail : TaskData Fn Item → Fn → Except Fatal (TaskData Fn Item)) : Prop :=
  ∀ P Q s fn, During dc requested c P Q E R s → Because dc requested c R s (.file fn) →
    fn ∈ dc.files → unfailed dc s ≤ n →
      ∃ s', fail s fn = .ok s' ∧ During dc requested c P Q E R s' ∧ Shrinks s s' ∧ fn ∈ s'.failedFns

variable {fail : TaskData Fn Item → Fn → Except Fatal (TaskData Fn Item)}

/-- A loop that fails files. -/
theorem FailsAll.foldlM {α : Type} (hfail : FailsAll dc requested c E R n fail) {l : List α}
    (file : α → Fn) (act : α → Prop) [DecidablePred act]
    (h : During dc requested c P Q E R s) (hn : unfailed dc s ≤ n)
    (hl : ∀ a ∈ l, act a → file a ∈ dc.files ∧ Because dc requested c R s (.file (file a))) :
    ∃ s', l.foldlM (fun s a => if act a then fail s (file a) else .ok s) s = .ok s' ∧
      During dc requested c P Q E R s' ∧ Shrinks s s' ∧ ∀ a ∈ l, act a → file a ∈ s'.failedFns := by
  have hstep : ∀ a ∈ l, ∀ t, (During dc requested c P Q E R t ∧ Shrinks s t) → True →
      ∃ u, (if act a then fail t (file a) else .ok t) = .ok u ∧
        (During dc requested c P Q E R u ∧ Shrinks s u) ∧ Shrinks t u ∧
        (act a → file a ∈ u.failedFns) := by
    intro a ha t ht _
    by_cases hact : act a
    · obtain ⟨hfile, hbecause⟩ := hl a ha hact
      have hle := unfailed_later dc ht.2.toLater
      obtain ⟨u, hu, hdu, hshu, hfu⟩ :=
        hfail P Q t (file a) ht.1 (hbecause.later ht.2.toLater) hfile (by omega)
      rw [if_pos hact]
      exact ⟨u, hu, ⟨hdu, ht.2.trans hshu⟩, hshu, fun _ => hfu⟩
    · rw [if_neg hact]
      exact ⟨t, rfl, ht, .refl t, fun h => absurd h hact⟩
  obtain ⟨s', heq, hd, hsh, hall⟩ := foldlM_ok Shrinks.refl (fun _ _ _ => Shrinks.trans)
    (fun a t u htu ha hact => htu.failedFns _ (ha hact)) hstep ⟨h, .refl s⟩ (along_true l s)
  exact ⟨s', heq, hd.1, hsh, hall⟩

/-- `remove_buildtarget` and `remove_runtarget`. -/
theorem removeTarget_ok (hfail : FailsAll dc requested c E R n fail) {k : Kind} {t : Item}
    (h : During dc requested c P Q E R s)
    (ht : c → Hasty R (s.markTarget k t) ∨ FailsIn dc requested s (.target k t))
    (hn : unfailed dc s ≤ n) :
    ∃ s', removeTarget fail k t s = .ok s' ∧ During dc requested c P Q E R s' ∧ Shrinks s s' ∧
      t ∈ s'.failedDeps k := by
  have hmarked := h.markTarget ht
  have hmark := shrinks_markTarget s k t
  have hle : unfailed dc (s.markTarget k t) ≤ n := hn
  have hin : t ∈ (s.markTarget k t).failedDeps k := mem_markTarget.2 (.inr ⟨rfl, rfl⟩)
  have hjust : ∀ fn, fn ∈ s.seenfns → dc.Needs k fn t →
      fn ∈ dc.files ∧ Because dc requested c R (s.markTarget k t) (.file fn) := fun fn hfn hneeds =>
    ⟨h.shape.files fn hfn, because_file hfn hneeds (hmarked.because_target hin)⟩
  obtain ⟨s₁, hs₁, hd₁, hsh₁, hall₁⟩ := hfail.foldlM (l := (s.markTarget k t).getDependees k t) id (fun _ => True)
    hmarked hle fun fn hfn _ => by
      obtain ⟨hseen, hdep⟩ := hmarked.shape.mem_getDependees.1 hfn
      exact hjust fn hseen (.inl hdep)
  have hle₁ := unfailed_later dc hsh₁.toLater
  obtain ⟨s₂, hs₂, hd₂, hsh₂, hall₂⟩ := hfail.foldlM (l := s₁.idependsList k) Prod.fst (fun d => d.2 = t)
    hd₁ (by omega) fun d hd hact => by
      obtain ⟨hseen, hdep⟩ := hd₁.shape.mem_idependsList.1 hd
      obtain ⟨hfile, hbecause⟩ := hjust d.1 (hsh₁.seen_of_seen d.1 hseen) (.inr (hact ▸ hdep))
      exact ⟨hfile, hbecause.later hsh₁.toLater⟩
  have hsh : Shrinks (s.markTarget k t) s₂ := hsh₁.trans hsh₂
  refine ⟨s₂, ?_, ⟨hd₂.shape, fun hc => ⟨(hd₂.closed hc).lists, ?_⟩, hd₂.sound⟩, hmark.trans hsh,
    hsh.failedDeps k t hin⟩
  · simp only [if_true, id] at hs₁
    have hbind : removeTarget fail k t s =
        (((s.markTarget k t).getDependees k t).foldlM fail (s.markTarget k t)).bind fun s =>
          (s.idependsList k).foldlM (fun s d => if d.2 = t then fail s d.1 else .ok s) s := rfl
    rw [hbind, hs₁]
    exact hs₂
  · -- whatever needs the target has been failed
    intro k' t' fn hseen hneeds ht'
    rcases (hd₂.closed hc).needs k' t' fn hseen hneeds ht' with hf | (⟨rfl, rfl⟩ | hQ) | hE
    · exact .inl hf
    · have hseen' : fn ∈ s.seenfns := hsh.seen_of_seen fn hseen
      rcases hneeds with hdep | hidep
      · have hmem := hmarked.shape.mem_getDependees.2 ⟨hseen', hdep⟩
        exact .inl (hsh₂.failedFns fn (hall₁ fn hmem trivial))
      · have hmem := hd₁.shape.mem_idependsList.2 ⟨hsh₂.seen_of_seen fn hseen, hidep⟩
        exact .inl (hall₂ (fn, t') hmem rfl)
    · exact .inr (.inl hQ)
    · exact .inr (.inr hE)

section Provider
variable {k : Kind} {t : Item} {fn : Fn}

/-- The state without `fn` among the providers of `t`. -/
def without (s : TaskData Fn Item) (k : Kind) (t : Item) (fn : Fn) : TaskData Fn Item :=
  s.setProviders k t ((s.providers k t).erase fn)

theorem providers_without_sublist (s : TaskData Fn Item) (k : Kind) (t : Item) (fn : Fn) (k' : Kind)
    (t' : Item) :
    ((s.without k t fn).providers k' t').Sublist (s.providers k' t') := by
  rw [without, providers_setProviders]
  split
  · rename_i heq
    rw [heq.1, heq.2]
    exact List.erase_sublist
  · exact List.Sublist.refl _

theorem mem_providers_without (k : Kind) (t : Item) (fn : Fn) {k' : Kind} {t' : Item} {f : Fn}
    (hf : f ∈ s.providers k' t') :
    f = fn ∨ f ∈ (s.without k t fn).providers k' t' := by
  rw [without, providers_setProviders]
  split
  · rename_i heq
    obtain ⟨rfl, rfl⟩ := heq
    by_cases hfn : f = fn
    · exact .inl hfn
    · exact .inr ((List.mem_erase_of_ne hfn).2 hf)
  · exact .inr hf

variable (hin : fn ∈ s.providers k t)
include hin

theorem mem_targets_without {k' : Kind} {t' : Item} :
    t' ∈ (s.without k t fn).targets k' ↔ t' ∈ s.targets k' := by
  rw [without, mem_targets_setProviders]
  refine or_iff_right_of_imp ?_
  rintro ⟨rfl, rfl⟩
  exact mem_targets_of_mem_providers hin

theorem failsIn_without {x : Node Fn Item} (hx : FailsIn dc requested s x) :
    FailsIn dc requested (s.without k t fn) x :=
  Fails.mono (fun _ h => h) (fun _ _ h => h.imp_left (mem_targets_without hin).2) hx

theorem During.without (h : During dc requested c P Q E R s) (hfn : fn ∈ s.failedFns) :
    During dc requested c P Q E R (s.without k t fn) where
  shape := {
    files := h.shape.files
    depids := h.shape.depids
    entries := h.shape.entries
    nodup := fun k' t' => (h.shape.nodup k' t').sublist (providers_without_sublist s k t fn k' t')
    candidate := fun k' t' f hf =>
      h.shape.candidate k' t' f ((providers_without_sublist s k t fn k' t').subset hf)
    not_ignored := by
      intro k' t' hne
      refine h.shape.not_ignored k' t' fun hnil => hne ?_
      have hsub := providers_without_sublist s k t fn k' t'
      rw [hnil] at hsub
      exact List.sublist_nil.1 hsub
    items := fun k' t' ht' => h.shape.items k' t' ((mem_targets_without hin).1 ht') }
  closed hc := ⟨fun k' t' f hf hfail =>
    (h.closed hc).lists k' t' f ((providers_without_sublist s k t fn k' t').subset hf) hfail,
    (h.closed hc).needs⟩
  sound hc := by
    rcases h.sound hc with hasty | hs
    · exact .inl hasty
    refine .inr ⟨fun f hf => failsIn_without hin (hs.failedFns f hf),
      fun k' t' ht' => failsIn_without hin (hs.failedDeps k' t' ht'), fun k' t' hne f hf => ?_⟩
    have hne' : s.providers k' t' ≠ [] := by
      intro hnil
      have hsub := providers_without_sublist s k t fn k' t'
      rw [hnil] at hsub
      exact hne (List.sublist_nil.1 hsub)
    rcases hs.lists k' t' hne' f hf with hl | hrest
    · rcases mem_providers_without k t fn hl with rfl | hl
      · exact .inr (.inl hfn)
      · exact .inl hl
    · exact .inr hrest

theorem shrinks_of_without (hfn : fn ∈ s.failedFns) (h : Shrinks (s.without k t fn) s')
    (hset : (s.without k t fn).providers k t ≠ [] ∨ t ∈ s'.failedDeps k) : Shrinks s s' where
  seenfns := h.seenfns
  targets k' t' ht' := h.targets k' t' ((mem_targets_without hin).2 ht')
  failedFns := h.failedFns
  failedDeps := h.failedDeps
  lost k' t' f hf := by
    rcases mem_providers_without k t fn hf with rfl | hf
    · exact .inr (h.failedFns f hfn)
    · exact h.lost k' t' f hf
  settled k' t' hne := by
    by_cases heq : k' = k ∧ t' = t
    · obtain ⟨rfl, rfl⟩ := heq
      rcases hset with hset | hset
      · exact h.settled k' t' hset
      · exact .inr hset
    · refine h.settled k' t' ?_
      rw [TaskData.without, providers_setProviders, if_neg heq]
      exact hne
  seen_of_seen := h.seen_of_seen
  target_of_target k' t' ht' := (mem_targets_without hin).1 (h.target_of_target k' t' ht')
  sublist k' t' := (h.sublist k' t').trans (providers_without_sublist s k t fn k' t')

/-- A target whose last provider failed fails, unless a provider is still to be added. -/
theorem fails_of_emptied (h : During dc requested c P Q E R s) (hfn : fn ∈ s.failedFns)
    (hnil : (s.providers k t).erase fn = []) (hc : c) :
    Hasty R ((s.without k t fn).markTarget k t) ∨
      FailsIn dc requested (s.without k t fn) (.target k t) := by
  have hmarked : t ∈ ((s.without k t fn).markTarget k t).failedDeps k :=
    mem_markTarget.2 (.inr ⟨rfl, rfl⟩)
  rcases h.sound hc with ⟨k', t', f, hR, ht'⟩ | hs
  · exact .inl ⟨k', t', f, hR, mem_markTarget.2 (.inl ht')⟩
  by_cases hleft : ∃ f, R k t f
  · obtain ⟨f, hR⟩ := hleft
    exact .inl ⟨k, t, f, hR, hmarked⟩
  · have hne : s.providers k t ≠ [] := List.ne_nil_of_mem hin
    refine .inr (failsIn_without hin (.target (.inl (mem_targets_of_mem_providers hin))
      (h.shape.not_ignored k t hne) fun f hf => ?_))
    rcases hs.lists k t hne f hf with hl | hfail | hR
    · have hf' : f = fn := by
        by_contra hne'
        have := (List.mem_erase_of_ne hne').2 hl
        rw [hnil] at this
        cases this
      subst hf'
      exact hs.failedFns f hfn
    · exact hs.failedFns f hfail
    · exact absurd ⟨f, hR⟩ hleft

omit hin in
/-- The body of the loops of `fail_fn`. -/
theorem removeProvider_ok (hfail : FailsAll dc requested c E R n fail)
    (h : During dc requested c P Q E R s) (hfn : fn ∈ s.failedFns) (hn : unfailed dc s ≤ n) :
    ∃ s', removeProvider fail k fn s t = .ok s' ∧ During dc requested c P Q E R s' ∧
      Shrinks s s' ∧ fn ∉ s'.providers k t := by
  by_cases hin : fn ∈ s.providers k t
  · have hd := h.without hin hfn
    have hprov : (s.without k t fn).providers k t = (s.providers k t).erase fn := by
      rw [without, providers_setProviders, if_pos ⟨rfl, rfl⟩]
    have hout : fn ∉ (s.without k t fn).providers k t := by
      rw [hprov]
      exact (h.shape.nodup k t).not_mem_erase
    by_cases hnil : (s.providers k t).erase fn = []
    · obtain ⟨s', heq, hd', hsh, ht⟩ := removeTarget_ok hfail hd (fails_of_emptied hin h hfn hnil) hn
      refine ⟨s', ?_, hd', shrinks_of_without hin hfn hsh (.inr ht), fun hmem => ?_⟩
      · rw [removeProvider, if_pos hin]
        simp only [if_pos hnil]
        exact heq
      · exact hout ((hsh.sublist k t).subset hmem)
    · refine ⟨s.without k t fn, ?_, hd, ?_, hout⟩
      · rw [removeProvider, if_pos hin]
        simp only [if_neg hnil]
        rfl
      · exact shrinks_of_without hin hfn (.refl _) (.inl (by rwa [hprov]))
  · refine ⟨s, ?_, h, .refl s, hin⟩
    rw [removeProvider, if_neg hin]

end Provider

/-- The loop of `fail_fn` over the targets of one kind. -/
theorem removeProviders_ok (hfail : FailsAll dc requested c E R n fail) {k : Kind} {fn : Fn}
    (h : During dc requested c P Q E R s) (hfn : fn ∈ s.failedFns) (hn : unfailed dc s ≤ n) :
    ∃ s', (s.targets k).keys.foldlM (removeProvider fail k fn) s = .ok s' ∧
      During dc requested c P Q E R s' ∧ Shrinks s s' ∧ ∀ t, fn ∉ s'.providers k t := by
  have hstep : ∀ t ∈ (s.targets k).keys, ∀ u,
      (During dc requested c P Q E R u ∧ Shrinks s u) → True →
      ∃ v, removeProvider fail k fn u t = .ok v ∧ (During dc requested c P Q E R v ∧ Shrinks s v) ∧
        Shrinks u v ∧ fn ∉ v.providers k t := by
    intro t _ u hu _
    have hle := unfailed_later dc hu.2.toLater
    obtain ⟨v, hv, hdv, hshv, hout⟩ :=
      removeProvider_ok (k := k) (t := t) hfail hu.1 (hu.2.failedFns fn hfn) (by omega)
    exact ⟨v, hv, ⟨hdv, hu.2.trans hshv⟩, hshv, hout⟩
  obtain ⟨s', heq, hd, hsh, hall⟩ := foldlM_ok Shrinks.refl (fun _ _ _ => Shrinks.trans)
    (fun t u v huv hout hmem => hout ((huv.sublist k t).subset hmem)) hstep ⟨h, .refl s⟩
    (along_true _ s)
  refine ⟨s', heq, hd.1, hsh, fun t hmem => ?_⟩
  -- a target that was not seen has no providers
  have hmem' := (hsh.sublist k t).subset hmem
  exact hall t (mem_targets_of_mem_providers hmem') hmem

theorem failFn_ok (dc : ProviderCache Fn Item) (requested : List Item) (c : Prop) (E : Fn → Prop)
    (R : Kind → Item → Fn → Prop) (n : Nat) :
    FailsAll dc requested c E R n (failFn (n + 1)) := by
  induction n with
  | zero =>
    intro P Q s fn h hbecause hfile hn
    have hfn : fn ∈ s.failedFns := by
      by_contra hnot
      have := unfailed_markFile hfile hnot
      omega
    exact ⟨s, by rw [failFn, if_pos hfn], h, .refl s, hfn⟩
  | succ n ih =>
    intro P Q s fn h hbecause hfile hn
    by_cases hfn : fn ∈ s.failedFns
    · exact ⟨s, by rw [failFn, if_pos hfn], h, .refl s, hfn⟩
    have hlt := unfailed_markFile hfile hfn
    have hin : fn ∈ (s.markFile fn).failedFns :=
      List.mem_append_right _ (List.mem_singleton.2 rfl)
    obtain ⟨s₁, hs₁, hd₁, hsh₁, hout₁⟩ :=
      removeProviders_ok (k := .build) ih (h.markFile hbecause) hin (by omega)
    have hle := unfailed_later dc hsh₁.toLater
    obtain ⟨s₂, hs₂, hd₂, hsh₂, hout₂⟩ :=
      removeProviders_ok (k := .run) ih hd₁ (hsh₁.failedFns fn hin) (by omega)
    have hsh : Shrinks s s₂ := (shrinks_markFile s fn).trans (hsh₁.trans hsh₂)
    refine ⟨s₂, ?_, ⟨hd₂.shape, fun hc => ⟨fun k t f hf hfail => ?_, (hd₂.closed hc).needs⟩, hd₂.sound⟩,
      hsh, (hsh₁.trans hsh₂).failedFns fn hin⟩
    · rw [failFn, if_neg hfn]
      have hbind : (((s.markFile fn).targets .build).keys.foldlM (removeProvider (failFn (n + 1)) .build fn)
          (s.markFile fn)).bind (fun s =>
            (s.targets .run).keys.foldlM (removeProvider (failFn (n + 1)) .run fn) s) = .ok s₂ := by
        rw [hs₁]
        exact hs₂
      exact hbind
    · rcases (hd₂.closed hc).lists k t f hf hfail with rfl | hP
      · cases k with
        | build => exact absurd ((hsh₂.sublist .build t).subset hf) (hout₁ t)
        | run => exact absurd hf (hout₂ t)
      · exact hP

theorem unfailed_le (dc : ProviderCache Fn Item) (s : TaskData Fn Item) :
    unfailed dc s ≤ dc.files.length :=
  (Finset.card_filter_le _ _).trans (List.toFinset_card_le _)

/-- `fail_fn`. -/
theorem fail_ok {fn : Fn} (h : During dc requested c P Q E R s)
    (hfn : Because dc requested c R s (.file fn)) (hfile : fn ∈ dc.files) :
    ∃ s', TaskData.fail dc s fn = .ok s' ∧ During dc requested c P Q E R s' ∧ Shrinks s s' ∧
      fn ∈ s'.failedFns :=
  failFn_ok dc requested c E R dc.files.length P Q s fn h hfn hfile (unfailed_le dc s)

theorem remove_ok {k : Kind} {t : Item} (h : During dc requested c P Q E R s)
    (ht : c → Hasty R (s.markTarget k t) ∨ FailsIn dc requested s (.target k t)) :
    ∃ s', removeTarget (TaskData.fail dc) k t s = .ok s' ∧ During dc requested c P Q E R s' ∧
      Shrinks s s' ∧ t ∈ s'.failedDeps k :=
  removeTarget_ok (failFn_ok dc requested c E R dc.files.length) h ht (unfailed_le dc s)

end Failure

/-! ### A file is visited -/

/-- What looking at the items of `I` changes: they are among the targets. -/
structure Sees (I : Kind → Item → Prop) (s s' : TaskData Fn Item) : Prop where
  providers : ∀ k t, s'.providers k t = s.providers k t
  seenfns : s'.seenfns = s.seenfns
  depids : s'.depids = s.depids
  failedFns : s'.failedFns = s.failedFns
  failedDeps : s'.failedDeps = s.failedDeps
  targets : ∀ k, ∀ t ∈ s.targets k, t ∈ s'.targets k
  new : ∀ k, ∀ t ∈ s'.targets k, t ∈ s.targets k ∨ I k t

section Visit
variable {I : Kind → Item → Prop} {c : Prop} {R : Kind → Item → Fn → Prop} {fn : Fn}

theorem Sees.refl (s : TaskData Fn Item) : Sees I s s :=
  ⟨fun _ _ => rfl, rfl, rfl, rfl, rfl, fun _ _ h => h, fun _ _ h => .inl h⟩

theorem Sees.trans (h : Sees I s s') (h' : Sees I s' s'') : Sees I s s'' where
  providers k t := (h'.providers k t).trans (h.providers k t)
  seenfns := h'.seenfns.trans h.seenfns
  depids := h'.depids.trans h.depids
  failedFns := h'.failedFns.trans h.failedFns
  failedDeps := h'.failedDeps.trans h.failedDeps
  targets k t ht := h'.targets k t (h.targets k t ht)
  new k t ht := by
    rcases h'.new k t ht with ht | ht
    · exact h.new k t ht
    · exact .inr ht

theorem Sees.later (h : Sees I s s') : Later s s' where
  seenfns fn hfn := by rwa [h.seenfns]
  targets := h.targets
  failedFns fn hfn := by rwa [h.failedFns]
  failedDeps k t ht := by rwa [h.failedDeps]
  lost k t fn hfn := .inl (by rwa [h.providers])
  settled k t ht := .inl (by rwa [h.providers])

theorem sees_seenTarget {k : Kind} {t : Item} (ht : I k t) : Sees I s (s.seenTarget k t) := by
  obtain ⟨targets, heq⟩ := seenTarget_frame s k t
  refine ⟨fun k' t' => providers_seenTarget k k' t t', ?_, ?_, ?_, ?_,
    fun k' t' ht' => mem_targets_seenTarget.2 (.inr ht'), fun k' t' ht' => ?_⟩
  · rw [heq]
  · rw [heq]
  · rw [heq]
  · rw [heq]
  · rcases mem_targets_seenTarget.1 ht' with ⟨rfl, rfl⟩ | ht'
    · exact .inr ht
    · exact .inl ht'

theorem taskentries_seenTarget (k : Kind) (t : Item) :
    (s.seenTarget k t).taskentries = s.taskentries := by
  obtain ⟨targets, heq⟩ := seenTarget_frame s k t
  rw [heq]

theorem sees_seenTargets {k : Kind} {l : List (Item × Str)} (hl : ∀ d ∈ l, I k d.1) :
    Sees I s (l.foldl (fun s d => s.seenTarget k d.1) s) ∧
      (l.foldl (fun s d => s.seenTarget k d.1) s).taskentries = s.taskentries := by
  induction l generalizing s with
  | nil => exact ⟨.refl s, rfl⟩
  | cons d l ih =>
    obtain ⟨hsees, heq⟩ := ih (s := s.seenTarget k d.1) fun d' hd' => hl d' (List.mem_cons_of_mem _ hd')
    exact ⟨(sees_seenTarget (hl d List.mem_cons_self)).trans hsees,
      heq.trans (taskentries_seenTarget k d.1)⟩

theorem sees_addTask {task : Str × TaskEntry Item}
    (htask : ∀ k, ∀ d ∈ task.2.idepends k, I k d.1) :
    Sees I s (addTask fn s task) ∧
      (addTask fn s task).taskentries = s.taskentries.set (fn, task.1) task.2 := by
  have hentries : Sees I s { s with taskentries := s.taskentries.set (fn, task.1) task.2 } :=
    ⟨fun _ _ => rfl, rfl, rfl, rfl, rfl, fun _ _ h => h, fun _ _ h => .inl h⟩
  obtain ⟨hbuild, hbuildEq⟩ := sees_seenTargets (s := { s with
    taskentries := s.taskentries.set (fn, task.1) task.2 }) (htask .build)
  obtain ⟨hrun, hrunEq⟩ := sees_seenTargets (s := (task.2.idepends .build).foldl
    (fun s d => s.seenTarget .build d.1) { s with
      taskentries := s.taskentries.set (fn, task.1) task.2 }) (htask .run)
  exact ⟨hentries.trans (hbuild.trans hrun), hrunEq.trans hbuildEq⟩

theorem sees_addTasks {l : List (Str × TaskEntry Item)} (hn : (l.map Prod.fst).Nodup)
    (hl : ∀ task ∈ l, ∀ k, ∀ d ∈ task.2.idepends k, I k d.1) :
    Sees I s (l.foldl (addTask fn) s) ∧
      (∀ task ∈ l, (l.foldl (addTask fn) s).taskentries.get? (fn, task.1) = some task.2) ∧
      ∀ f name, (f = fn → name ∉ l.map Prod.fst) →
        (l.foldl (addTask fn) s).taskentries.get? (f, name) = s.taskentries.get? (f, name) := by
  induction l generalizing s with
  | nil => exact ⟨.refl s, by simp, fun _ _ _ => rfl⟩
  | cons task l ih =>
    obtain ⟨hne, hn⟩ := List.nodup_cons.1 hn
    obtain ⟨hsees, hin, hout⟩ := ih (s := addTask fn s task) hn
      fun task' h => hl task' (List.mem_cons_of_mem _ h)
    obtain ⟨hfirst, hset⟩ := sees_addTask (s := s) (hl task List.mem_cons_self)
    refine ⟨hfirst.trans hsees, fun task' htask' => ?_, fun f name hname => ?_⟩
    · rcases List.mem_cons.1 htask' with rfl | htask'
      · rw [List.foldl_cons, hout fn task'.1 fun _ => hne, hset, Dict.get?_set_self]
      · exact hin task' htask'
    · rw [List.foldl_cons, hout f name fun hf hmem => hname hf (List.mem_cons_of_mem _ hmem), hset,
        Dict.get?_set_ne]
      rintro ⟨rfl, rfl⟩
      exact hname rfl List.mem_cons_self

/-- `s` with the records of the file `fn`. -/
def recorded (dc : ProviderCache Fn Item) (fn : Fn) (s : TaskData Fn Item) : TaskData Fn Item :=
  setDepids dc (setDepids dc
    ((dc.tasks fn).entries.foldl (addTask fn) { s with seenfns := s.seenfns ++ [fn] }) .build fn) .run fn

theorem setDepids_frame (s : TaskData Fn Item) (k : Kind) :
    ∃ depids, setDepids dc s k fn = { s with depids } := by
  unfold setDepids
  split
  · exact ⟨s.depids, rfl⟩
  · exact ⟨_, rfl⟩

theorem depids_setDepids (s : TaskData Fn Item) (k k' : Kind) (f : Fn)
    (hnone : (s.depids k).get? fn = none) :
    ((setDepids dc s k fn).depids k').get? f =
      if k' = k ∧ f = fn then some (dc.deps k fn) else (s.depids k').get? f := by
  rw [setDepids, if_neg (Dict.get?_eq_none_iff.1 hnone)]
  by_cases hk : k' = k
  · subst hk
    by_cases hf : f = fn <;> simp [hf]
  · simp [hk]

/-- What recording the file changes. -/
structure Records (dc : ProviderCache Fn Item) (fn : Fn) (s s' : TaskData Fn Item) : Prop where
  providers : ∀ k t, s'.providers k t = s.providers k t
  seenfns : s'.seenfns = s.seenfns ++ [fn]
  failedFns : s'.failedFns = s.failedFns
  failedDeps : s'.failedDeps = s.failedDeps
  targets : ∀ k, ∀ t ∈ s.targets k, t ∈ s'.targets k
  new : ∀ k, ∀ t ∈ s'.targets k, t ∈ s.targets k ∨ dc.Needs k fn t
  depids : ∀ k f, (s'.depids k).get? f = if f = fn then some (dc.deps k fn) else (s.depids k).get? f
  entries : ∀ f name, s'.taskentries.get? (f, name) =
    if f = fn then (dc.tasks fn).get? name else s.taskentries.get? (f, name)

theorem records_recorded (h : Shape dc requested s) (hfn : fn ∉ s.seenfns) :
    Records dc fn s (recorded dc fn s) := by
  obtain ⟨hsees, hin, hout⟩ := sees_addTasks (I := fun k t => dc.Needs k fn t)
    (s := { s with seenfns := s.seenfns ++ [fn] }) (dc.tasks fn).nodup
    fun task htask k d hd => .inr ⟨task, htask, d, hd, rfl⟩
  have hnone : ∀ k, (s.depids k).get? fn = none := fun k => by rw [h.depids k fn, if_neg hfn]
  obtain ⟨s₁, hs₁⟩ : ∃ s₁, s₁ =
    (dc.tasks fn).entries.foldl (addTask fn) { s with seenfns := s.seenfns ++ [fn] } := ⟨_, rfl⟩
  have hrec : recorded dc fn s = setDepids dc (setDepids dc s₁ .build fn) .run fn := by
    rw [recorded, hs₁]
  rw [← hs₁] at hsees hin hout
  have hnone₁ : ∀ k, (s₁.depids k).get? fn = none := fun k => by
    rw [hsees.depids]
    exact hnone k
  have hdepids : ∀ k f, ((setDepids dc (setDepids dc s₁ .build fn) .run fn).depids k).get? f =
      if f = fn then some (dc.deps k fn) else (s.depids k).get? f := by
    intro k f
    have hrun : ((setDepids dc s₁ .build fn).depids .run).get? fn = none := by
      rw [depids_setDepids s₁ .build .run fn (hnone₁ .build), if_neg (by simp)]
      exact hnone₁ .run
    rw [depids_setDepids _ .run k f hrun, depids_setDepids s₁ .build k f (hnone₁ .build), hsees.depids]
    cases k with
    | build => simp
    | run => simp
  obtain ⟨d₁, hbuild⟩ := setDepids_frame s₁ .build
  obtain ⟨d₂, hrun⟩ := setDepids_frame (setDepids dc s₁ .build fn) .run
  rw [hrec]
  refine ⟨?_, ?_, ?_, ?_, ?_, ?_, hdepids, ?_⟩
  · rw [hrun, hbuild]
    exact hsees.providers
  · rw [hrun, hbuild]
    exact hsees.seenfns
  · rw [hrun, hbuild]
    exact hsees.failedFns
  · rw [hrun, hbuild]
    exact hsees.failedDeps
  · rw [hrun, hbuild]
    exact hsees.targets
  · rw [hrun, hbuild]
    exact hsees.new
  · intro f name
    rw [hrun, hbuild]
    show s₁.taskentries.get? (f, name) = _
    by_cases hf : f = fn
    · subst hf
      rw [if_pos rfl]
      cases hget : (dc.tasks f).get? name with
      | some e => exact hin (name, e) (Dict.get?_eq_some_iff.1 hget)
      | none =>
        rw [hout f name fun _ => Dict.get?_eq_none_iff.1 hget]
        show s.taskentries.get? (f, name) = none
        rw [h.entries f name, if_neg hfn]
    · rw [if_neg hf]
      exact hout f name fun heq => absurd heq hf

theorem Records.later (h : Records dc fn s s') : Later s s' where
  seenfns f hf := by
    rw [h.seenfns]
    exact List.mem_append_left _ hf
  targets := h.targets
  failedFns f hf := by rwa [h.failedFns]
  failedDeps k t ht := by rwa [h.failedDeps]
  lost k t f hf := .inl (by rwa [h.providers])
  settled k t ht := .inl (by rwa [h.providers])

/-- Between the steps of a run nothing is in progress. -/
abbrev Idle (dc : ProviderCache Fn Item) (requested : List Item) (c : Prop) (E : Fn → Prop)
    (R : Kind → Item → Fn → Prop) (s : TaskData Fn Item) : Prop :=
  During dc requested c (fun _ => False) (fun _ _ => False) E R s

theorem Idle.records (h : Idle dc requested c (fun _ => False) R s) (hfile : fn ∈ dc.files)
    (hr : Records dc fn s s') : Idle dc requested c (· = fn) R s' where
  shape := {
    files := by
      intro f hf
      rw [hr.seenfns] at hf
      rcases List.mem_append.1 hf with hf | hf
      · exact h.shape.files f hf
      · rwa [List.mem_singleton.1 hf]
    depids := by
      intro k f
      rw [hr.depids, h.shape.depids, hr.seenfns]
      by_cases hf : f = fn <;> simp [hf]
    entries := by
      intro f name
      rw [hr.entries, h.shape.entries, hr.seenfns]
      by_cases hf : f = fn <;> simp [hf]
    nodup := fun k t => by
      rw [hr.providers]
      exact h.shape.nodup k t
    candidate := fun k t => by
      rw [hr.providers]
      exact h.shape.candidate k t
    not_ignored := fun k t => by
      rw [hr.providers]
      exact h.shape.not_ignored k t
    items := by
      intro k t ht
      rcases hr.new k t ht with ht | ht
      · exact h.shape.items k t ht
      · exact dc.mem_items_of_needs hfile ht }
  closed hc := by
    refine ⟨fun k t f hf hfail => ?_, fun k t f hseen hneeds ht => ?_⟩
    · rw [hr.providers] at hf
      rw [hr.failedFns] at hfail
      exact (h.closed hc).lists k t f hf hfail
    · rw [hr.seenfns] at hseen
      rw [hr.failedDeps] at ht
      rw [hr.failedFns]
      rcases List.mem_append.1 hseen with hseen | hseen
      · rcases (h.closed hc).needs k t f hseen hneeds ht with hf | hQ | hE
        · exact .inl hf
        · exact hQ.elim
        · exact hE.elim
      · exact .inr (.inr (List.mem_singleton.1 hseen))
  sound hc := by
    rcases h.sound hc with hasty | hs
    · exact .inl (hasty.later hr.later)
    refine .inr ⟨fun f hf => ?_, fun k t ht => ?_, fun k t hne f hf => ?_⟩
    · rw [hr.failedFns] at hf
      exact (hs.failedFns f hf).later hr.later
    · rw [hr.failedDeps] at ht
      exact (hs.failedDeps k t ht).later hr.later
    · rw [hr.providers] at hne ⊢
      rw [hr.failedFns]
      exact hs.lists k t hne f hf

theorem Idle.seen {E : Fn → Prop} {k : Kind} {t : Item} (h : Idle dc requested c E R s)
    (ht : t ∈ dc.items requested) : Idle dc requested c E R (s.seenTarget k t) := by
  have hs : Sees (fun _ t' => t' ∈ dc.items requested) s (s.seenTarget k t) := sees_seenTarget ht
  have hentries := taskentries_seenTarget (s := s) k t
  refine ⟨⟨?_, ?_, ?_, ?_, ?_, ?_, ?_⟩, fun hc => ⟨?_, ?_⟩, fun hc => ?_⟩
  · rw [hs.seenfns]
    exact h.shape.files
  · rw [hs.depids, hs.seenfns]
    exact h.shape.depids
  · rw [hentries, hs.seenfns]
    exact h.shape.entries
  · intro k' t'
    rw [hs.providers]
    exact h.shape.nodup k' t'
  · intro k' t'
    rw [hs.providers]
    exact h.shape.candidate k' t'
  · intro k' t'
    rw [hs.providers]
    exact h.shape.not_ignored k' t'
  · intro k' t' ht'
    exact (hs.new k' t' ht').elim (h.shape.items k' t') id
  · intro k' t'
    rw [hs.providers, hs.failedFns]
    exact (h.closed hc).lists k' t'
  · rw [hs.seenfns, hs.failedFns, hs.failedDeps]
    exact (h.closed hc).needs
  · rcases h.sound hc with hasty | hsound
    · exact .inl (hasty.later hs.later)
    refine .inr ⟨?_, ?_, ?_⟩
    · rw [hs.failedFns]
      exact fun f hf => (hsound.failedFns f hf).later hs.later
    · rw [hs.failedDeps]
      exact fun k' t' ht' => (hsound.failedDeps k' t' ht').later hs.later
    · intro k' t'
      rw [hs.providers, hs.failedFns]
      exact hsound.lists k' t'

/-- A loop of `add_tasks` over the dependencies: it fails the file, or finds none of them failed. -/
theorem seeDeps_ok {E : Fn → Prop} {k : Kind} {deps : List Item} (hdeps : ∀ t ∈ deps, t ∈ dc.deps k fn)
    (h : Idle dc requested c E R s) (hseen : fn ∈ s.seenfns) :
    ∃ s' b, seeDeps dc k fn deps s = .ok (s', b) ∧ Idle dc requested c E R s' ∧ Later s s' ∧
      (b = true ∧ fn ∈ s'.failedFns ∨
        b = false ∧ s'.failedDeps = s.failedDeps ∧ ∀ t ∈ deps, t ∉ s'.failedDeps k) := by
  induction deps generalizing s with
  | nil => exact ⟨s, false, rfl, h, .refl s, .inr ⟨rfl, rfl, by simp⟩⟩
  | cons t deps ih =>
    have hneeds : dc.Needs k fn t := .inl (hdeps t List.mem_cons_self)
    have hfile : fn ∈ dc.files := h.shape.files fn hseen
    have hsees : Sees (fun _ _ => True) s (s.seenTarget k t) := sees_seenTarget trivial
    have hidle : Idle dc requested c E R (s.seenTarget k t) :=
      h.seen (dc.mem_items_of_needs hfile hneeds)
    have hseen' : fn ∈ (s.seenTarget k t).seenfns := hsees.later.seenfns fn hseen
    rw [seeDeps]
    by_cases ht : t ∈ (s.seenTarget k t).failedDeps k
    · obtain ⟨s', heq, hd, hsh, hfn⟩ :=
        fail_ok hidle (because_file hseen' hneeds (hidle.because_target ht)) hfile
      refine ⟨s', true, ?_, hd, hsees.later.trans hsh.toLater, .inl ⟨rfl, hfn⟩⟩
      simp only [if_pos ht, heq]
      rfl
    · obtain ⟨s', b, heq, hd, hlater, hb⟩ :=
        ih (fun t' ht' => hdeps t' (List.mem_cons_of_mem _ ht')) hidle hseen'
      refine ⟨s', b, ?_, hd, hsees.later.trans hlater, hb.imp_right fun ⟨hb, hsame, hall⟩ => ?_⟩
      · simp only [if_neg ht]
        exact heq
      · refine ⟨hb, hsame.trans hsees.failedDeps, fun t' ht' => ?_⟩
        rcases List.mem_cons.1 ht' with rfl | ht'
        · rwa [hsame]
        · exact hall t' ht'

/-- A file that is visited now, needing a failed target for a task only, would not be failed. -/
def CleanFile (dc : ProviderCache Fn Item) (fn : Fn) (s : TaskData Fn Item) : Prop :=
  fn ∈ s.seenfns ∨ (∀ k t, dc.Idepends k fn t → t ∉ s.failedDeps k) ∨
    ∃ k, ∃ t ∈ dc.deps k fn, t ∈ s.failedDeps k

/-- Once the file is failed, or needs nothing failed, nothing is in progress any more. -/
theorem Idle.settle (h : Idle dc requested c (· = fn) R s)
    (hfn : c → fn ∈ s.failedFns ∨ ∀ k t, dc.Needs k fn t → t ∉ s.failedDeps k) :
    Idle dc requested c (fun _ => False) R s := by
  refine ⟨h.shape, fun hc => ⟨(h.closed hc).lists, fun k t f hseen hneeds ht => ?_⟩, h.sound⟩
  rcases (h.closed hc).needs k t f hseen hneeds ht with hf | hQ | rfl
  · exact .inl hf
  · exact hQ.elim
  · rcases hfn hc with hf | hnot
    · exact .inl hf
    · exact absurd ht (hnot k t hneeds)

theorem addTasks_ok (h : Idle dc requested c (fun _ => False) R s) (hfile : fn ∈ dc.files)
    (hfn : fn ∉ s.failedFns) (hclean : c → CleanFile dc fn s) :
    ∃ s', addTasks dc fn s = .ok s' ∧ Idle dc requested c (fun _ => False) R s' ∧ Later s s' := by
  by_cases hseen : fn ∈ s.seenfns
  · exact ⟨s, by rw [addTasks, if_neg hfn, if_pos hseen], h, .refl s⟩
  have hrec := records_recorded h.shape hseen
  have hidle := h.records hfile hrec
  have hin : fn ∈ (recorded dc fn s).seenfns := by
    rw [hrec.seenfns]
    exact List.mem_append_right _ (List.mem_singleton.2 rfl)
  have hlist : ∀ (k : Kind) (u : TaskData Fn Item), Shape dc requested u → fn ∈ u.seenfns →
      ((u.depids k).get? fn).getD [] = dc.deps k fn := by
    intro k u hu hmem
    rw [hu.depids, if_pos hmem]
    rfl
  have heq : addTasks dc fn s =
      (seeDeps dc .build fn ((((recorded dc fn s).depids .build).get? fn).getD []) (recorded dc fn s)).bind
        fun done => if done.2 then .ok done.1
          else (seeDeps dc .run fn (((done.1.depids .run).get? fn).getD []) done.1).bind
            fun done => .ok done.1 := by
    rw [addTasks, if_neg hfn, if_neg hseen]
    rfl
  rw [heq, hlist .build _ hidle.shape hin]
  obtain ⟨s₁, b₁, hs₁, hd₁, hlater₁, hb₁⟩ := seeDeps_ok (fun _ ht => ht) hidle hin
  rw [hs₁]
  rcases hb₁ with ⟨rfl, hfail⟩ | ⟨rfl, hsame₁, hnone₁⟩
  · exact ⟨s₁, rfl, hd₁.settle fun _ => .inl hfail, hrec.later.trans hlater₁⟩
  have hin₁ : fn ∈ s₁.seenfns := hlater₁.seenfns fn hin
  obtain ⟨s₂, b₂, hs₂, hd₂, hlater₂, hb₂⟩ := seeDeps_ok (k := .run) (fun _ ht => ht) hd₁ hin₁
  refine ⟨s₂, ?_, hd₂.settle fun hc => ?_, hrec.later.trans (hlater₁.trans hlater₂)⟩
  · show (seeDeps dc .run fn (((s₁.depids .run).get? fn).getD []) s₁).bind _ = _
    rw [hlist .run _ hd₁.shape hin₁, hs₂]
    rfl
  · rcases hb₂ with ⟨rfl, hfail⟩ | ⟨rfl, hsame₂, hnone₂⟩
    · exact .inl hfail
    · -- no dependency has failed, so no dependency of a task has
      have hsame : s₂.failedDeps = s.failedDeps := by rw [hsame₂, hsame₁, hrec.failedDeps]
      have hdeps : ∀ k, ∀ t ∈ dc.deps k fn, t ∉ s.failedDeps k := by
        intro k t ht
        cases k with
        | build =>
          have := hnone₁ t ht
          rwa [hsame₁, hrec.failedDeps] at this
        | run =>
          have := hnone₂ t ht
          rwa [hsame] at this
      have htasks : ∀ k t, dc.Idepends k fn t → t ∉ s.failedDeps k := by
        rcases hclean hc with hmem | hnot | ⟨k, t, ht, hfail⟩
        · exact absurd hmem hseen
        · exact hnot
        · exact absurd hfail (hdeps k t ht)
      refine .inr fun k t hneeds => ?_
      rw [hsame]
      rcases hneeds with ht | ht
      · exact hdeps k t ht
      · exact htasks k t ht

end Visit

/-! ### The providers of a target -/

section Resolve
variable {c : Prop} {k : Kind} {item : Item}

/-- The target has a provider, or failed. -/
def Settled (s : TaskData Fn Item) (k : Kind) (t : Item) : Prop :=
  s.providers k t ≠ [] ∨ t ∈ s.failedDeps k

theorem Settled.later {t : Item} (h : Later s s') (ht : Settled s k t) : Settled s' k t := by
  rcases ht with ht | ht
  · exact h.settled k t ht
  · exact .inr (h.failedDeps k t ht)

/-- The eligible providers of `item` that are still to be added. -/
def Left (k : Kind) (item : Item) (fns : List Fn) (s : TaskData Fn Item) (k' : Kind) (t : Item)
    (fn : Fn) : Prop :=
  k' = k ∧ t = item ∧ fn ∈ fns ∧ fn ∉ s.failedFns

/-- Adding a provider takes no wrong branch: the file is failed if a target fails that it needs, and
`item` is not removed while a later provider, that had not failed, is still to be added. -/
structure CleanVisit (dc : ProviderCache Fn Item) (k : Kind) (item : Item) (fn : Fn) (fns : List Fn)
    (s : TaskData Fn Item) : Prop where
  file : CleanFile dc fn s
  target : ∀ s', addTasks dc fn (s.addTarget k fn item) = .ok s' → item ∈ s'.failedDeps k →
    ∀ f ∈ fns, f ∈ s.failedFns

def CleanProviders (dc : ProviderCache Fn Item) (k : Kind) (item : Item) :
    List Fn → TaskData Fn Item → Prop
  | [], _ => True
  | fn :: fns, s =>
    if fn ∈ s.failedFns then CleanProviders dc k item fns s
    else CleanVisit dc k item fn fns s ∧
      ∀ s', addTasks dc fn (s.addTarget k fn item) = .ok s' → CleanProviders dc k item fns s'

/-- Nothing is in progress, except that providers of `R` are to be added. -/
structure Ready (dc : ProviderCache Fn Item) (requested : List Item) (c : Prop)
    (R : Kind → Item → Fn → Prop) (s : TaskData Fn Item) : Prop where
  shape : Shape dc requested s
  closed : c → Closed dc (fun _ => False) (fun _ _ => False) (fun _ => False) s
  sound : c → Sound dc requested R s

theorem Ready.idle {R : Kind → Item → Fn → Prop} (h : Ready dc requested c R s) :
    Idle dc requested c (fun _ => False) R s := ⟨h.shape, h.closed, fun hc => .inr (h.sound hc)⟩

theorem Ready.mono {R R' : Kind → Item → Fn → Prop} (h : Ready dc requested c R s)
    (hR : ∀ k t fn, R k t fn → fn ∈ s.failedFns ∨ R' k t fn) : Ready dc requested c R' s := by
  refine ⟨h.shape, h.closed, fun hc => ⟨(h.sound hc).failedFns, (h.sound hc).failedDeps, ?_⟩⟩
  intro k t hne fn hfn
  rcases (h.sound hc).lists k t hne fn hfn with hl | hfail | hr
  · exact .inl hl
  · exact .inr (.inl hfail)
  · exact .inr (hR k t fn hr)

theorem providers_addTarget (fn : Fn) (k' : Kind) (t : Item) :
    (s.addTarget k fn item).providers k' t =
      if k' = k ∧ t = item ∧ fn ∉ s.providers k item then s.providers k item ++ [fn]
      else s.providers k' t := by
  unfold addTarget
  by_cases hfn : fn ∈ s.providers k item
  · simp [hfn]
  · simp [hfn]

theorem addTarget_frame (s : TaskData Fn Item) (k : Kind) (fn : Fn) (item : Item) :
    ∃ targets, s.addTarget k fn item = { s with targets } := by
  unfold addTarget
  split
  · exact ⟨s.targets, rfl⟩
  · exact ⟨_, rfl⟩

theorem mem_providers_addTarget {fn f : Fn} {k' : Kind} {t : Item} :
    f ∈ (s.addTarget k fn item).providers k' t ↔
      f ∈ s.providers k' t ∨ (k' = k ∧ t = item ∧ f = fn) := by
  rw [providers_addTarget]
  split
  · rename_i h
    obtain ⟨rfl, rfl, -⟩ := h
    simp
  · rename_i h
    refine (or_iff_left_of_imp ?_).symm
    rintro ⟨rfl, rfl, rfl⟩
    by_contra hnot
    exact h ⟨rfl, rfl, hnot⟩

theorem mem_targets_addTarget {fn : Fn} {k' : Kind} {t : Item} :
    t ∈ (s.addTarget k fn item).targets k' ↔ t ∈ s.targets k' ∨ (k' = k ∧ t = item) := by
  unfold addTarget
  split
  · rename_i hfn
    refine (or_iff_left_of_imp ?_).symm
    rintro ⟨rfl, rfl⟩
    exact mem_targets_of_mem_providers hfn
  · rw [mem_targets_setProviders, or_comm]

theorem later_addTarget (s : TaskData Fn Item) (k : Kind) (fn : Fn) (item : Item) :
    Later s (s.addTarget k fn item) := by
  obtain ⟨targets, heq⟩ := addTarget_frame s k fn item
  refine ⟨?_, fun k' t ht => mem_targets_addTarget.2 (.inl ht), ?_, ?_,
    fun k' t f hf => .inl (mem_providers_addTarget.2 (.inl hf)), fun k' t hne => ?_⟩
  · rw [heq]
    exact fun _ h => h
  · rw [heq]
    exact fun _ h => h
  · rw [heq]
    exact fun _ _ h => h
  · obtain ⟨f, hf⟩ := List.exists_mem_of_ne_nil _ hne
    exact .inl (List.ne_nil_of_mem (mem_providers_addTarget.2 (.inl hf)))

/-- The state before a provider is visited. -/
theorem Ready.addTarget {fn : Fn} {fns : List Fn} (h : Ready dc requested c (Left k item (fn :: fns) s) s)
    (hign : dc.ignored item = false) (hitem : item ∈ dc.items requested)
    (hcand : fn ∈ dc.candidates k item) (hfn : fn ∉ s.failedFns)
    (hcover : c → ∀ f ∈ dc.candidates k item,
      f ∈ s.providers k item ∨ f ∈ s.failedFns ∨ f ∈ fn :: fns) :
    Ready dc requested c (Left k item fns s) (s.addTarget k fn item) := by
  have hlater := later_addTarget s k fn item
  obtain ⟨targets, heq⟩ := addTarget_frame s k fn item
  have hfailed : (s.addTarget k fn item).failedFns = s.failedFns := by rw [heq]
  have hdeps : (s.addTarget k fn item).failedDeps = s.failedDeps := by rw [heq]
  have hseen : (s.addTarget k fn item).seenfns = s.seenfns := by rw [heq]
  refine ⟨⟨?_, ?_, ?_, ?_, ?_, ?_, ?_⟩, fun hc => ⟨?_, ?_⟩, fun hc => ⟨?_, ?_, ?_⟩⟩
  · rw [hseen]
    exact h.shape.files
  · rw [heq]
    exact h.shape.depids
  · rw [heq]
    exact h.shape.entries
  · intro k' t
    rw [providers_addTarget]
    split
    · rename_i hnew
      refine List.nodup_append.2 ⟨h.shape.nodup k item, List.nodup_singleton fn, fun a ha b hb => ?_⟩
      rw [List.mem_singleton.1 hb]
      rintro rfl
      exact hnew.2.2 ha
    · exact h.shape.nodup k' t
  · intro k' t f hf
    rcases mem_providers_addTarget.1 hf with hf | ⟨rfl, rfl, rfl⟩
    · exact h.shape.candidate k' t f hf
    · exact hcand
  · intro k' t hne
    obtain ⟨f, hf⟩ := List.exists_mem_of_ne_nil _ hne
    rcases mem_providers_addTarget.1 hf with hf | ⟨rfl, rfl, rfl⟩
    · exact h.shape.not_ignored k' t (List.ne_nil_of_mem hf)
    · exact hign
  · intro k' t ht
    rcases mem_targets_addTarget.1 ht with ht | ⟨rfl, rfl⟩
    · exact h.shape.items k' t ht
    · exact hitem
  · intro k' t f hf hfail
    rw [hfailed] at hfail
    rcases mem_providers_addTarget.1 hf with hf | ⟨rfl, rfl, rfl⟩
    · exact (h.closed hc).lists k' t f hf hfail
    · exact hfn hfail
  · rw [hseen, hfailed, hdeps]
    exact (h.closed hc).needs
  · rw [hfailed]
    exact fun f hf => ((h.sound hc).failedFns f hf).later hlater
  · rw [hdeps]
    exact fun k' t ht => ((h.sound hc).failedDeps k' t ht).later hlater
  · intro k' t hne f hf
    rw [hfailed]
    by_cases hitem' : k' = k ∧ t = item
    · obtain ⟨rfl, rfl⟩ := hitem'
      by_cases hfail : f ∈ s.failedFns
      · exact .inr (.inl hfail)
      · rcases hcover hc f hf with hl | hfail' | hmem
        · exact .inl (mem_providers_addTarget.2 (.inl hl))
        · exact absurd hfail' hfail
        · rcases List.mem_cons.1 hmem with rfl | hmem
          · exact .inl (mem_providers_addTarget.2 (.inr ⟨rfl, rfl, rfl⟩))
          · exact .inr (.inr ⟨rfl, rfl, hmem, hfail⟩)
    · have hsame : (s.addTarget k fn item).providers k' t = s.providers k' t := by
        rw [providers_addTarget, if_neg fun hh => hitem' ⟨hh.1, hh.2.1⟩]
      rw [hsame] at hne ⊢
      rcases (h.sound hc).lists k' t hne f hf with hl | hfail | hleft
      · exact .inl hl
      · exact .inr (.inl hfail)
      · exact absurd ⟨hleft.1, hleft.2.1⟩ hitem'

theorem addProviders_ok (hign : dc.ignored item = false) (hitem : item ∈ dc.items requested)
    {fns : List Fn} (hcand : ∀ fn ∈ fns, fn ∈ dc.candidates k item)
    (h : Ready dc requested c (Left k item fns s) s)
    (hcover : c → ∀ f ∈ dc.candidates k item, f ∈ s.providers k item ∨ f ∈ s.failedFns ∨ f ∈ fns)
    (hclean : c → CleanProviders dc k item fns s) :
    ∃ s', addProviders dc k item fns s = .ok s' ∧ Ready dc requested c (fun _ _ _ => False) s' ∧
      Later s s' ∧ ((∃ f ∈ fns, f ∉ s.failedFns) → Settled s' k item) := by
  induction fns generalizing s with
  | nil =>
    refine ⟨s, rfl, h.mono fun k t f hleft => ?_, .refl s, ?_⟩
    · cases hleft.2.2.1
    · rintro ⟨f, hf, -⟩
      cases hf
  | cons fn fns ih =>
    have hcand' : ∀ f ∈ fns, f ∈ dc.candidates k item := fun f hf => hcand f (List.mem_cons_of_mem _ hf)
    rw [addProviders]
    by_cases hfn : fn ∈ s.failedFns
    · have hready : Ready dc requested c (Left k item fns s) s := by
        refine h.mono fun k' t f hleft => ?_
        obtain ⟨hk, ht, hmem, hnot⟩ := hleft
        rcases List.mem_cons.1 hmem with rfl | hmem
        · exact .inl hfn
        · exact .inr ⟨hk, ht, hmem, hnot⟩
      obtain ⟨s', heq, hr, hlater, hset⟩ := ih hcand' hready
        (fun hc f hf => by
          rcases hcover hc f hf with hl | hfail | hmem
          · exact .inl hl
          · exact .inr (.inl hfail)
          · rcases List.mem_cons.1 hmem with rfl | hmem
            · exact .inr (.inl hfn)
            · exact .inr (.inr hmem))
        (fun hc => by simpa only [CleanProviders, if_pos hfn] using hclean hc)
      refine ⟨s', by rw [if_pos hfn, heq], hr, hlater, ?_⟩
      rintro ⟨f, hf, hnot⟩
      rcases List.mem_cons.1 hf with rfl | hf
      · exact absurd hfn hnot
      · exact hset ⟨f, hf, hnot⟩
    · have hclean' : c → CleanVisit dc k item fn fns s ∧
          ∀ s', addTasks dc fn (s.addTarget k fn item) = .ok s' → CleanProviders dc k item fns s' :=
        fun hc => by simpa only [CleanProviders, if_neg hfn] using hclean hc
      have hready := h.addTarget hign hitem (hcand fn List.mem_cons_self) hfn hcover
      obtain ⟨targets, hframe⟩ := addTarget_frame s k fn item
      have hfailed : (s.addTarget k fn item).failedFns = s.failedFns := by rw [hframe]
      have hcleanFile : c → CleanFile dc fn (s.addTarget k fn item) := by
        intro hc
        rw [hframe]
        exact (hclean' hc).1.file
      obtain ⟨s₁, hs₁, hd₁, hlater₁⟩ := addTasks_ok hready.idle
        (dc.candidates_mem (hcand fn List.mem_cons_self)) (by rwa [hfailed]) hcleanFile
      have hlater : Later s s₁ := (later_addTarget s k fn item).trans hlater₁
      -- `item` was removed only if no provider is left to be added
      have hready₁ : Ready dc requested c (Left k item fns s) s₁ := by
        refine ⟨hd₁.shape, hd₁.closed, fun hc => (hd₁.sound hc).resolve_left ?_⟩
        rintro ⟨k', t, f, ⟨rfl, rfl, hmem, hnot⟩, ht⟩
        exact hnot ((hclean' hc).1.target s₁ hs₁ ht f hmem)
      obtain ⟨s', heq, hr, hlater', -⟩ := ih hcand'
        (hready₁.mono fun k' t f hleft => by
          obtain ⟨hk, ht, hmem, -⟩ := hleft
          by_cases hf : f ∈ s₁.failedFns
          · exact .inl hf
          · exact .inr ⟨hk, ht, hmem, hf⟩)
        (fun hc f hf => by
          rcases hcover hc f hf with hl | hfail | hmem
          · exact (hlater.lost k item f hl).imp_right .inl
          · exact .inr (.inl (hlater.failedFns f hfail))
          · rcases List.mem_cons.1 hmem with rfl | hmem
            · have hin : f ∈ (s.addTarget k f item).providers k item :=
                mem_providers_addTarget.2 (.inr ⟨rfl, rfl, rfl⟩)
              exact (hlater₁.lost k item f hin).imp_right .inl
            · exact .inr (.inr hmem))
        (fun hc => (hclean' hc).2 s₁ hs₁)
      refine ⟨s', ?_, hr, hlater.trans hlater', fun _ => ?_⟩
      · rw [if_neg hfn]
        show (addTasks dc fn (s.addTarget k fn item)).bind _ = _
        rw [hs₁]
        exact heq
      · have hin : fn ∈ (s.addTarget k fn item).providers k item :=
          mem_providers_addTarget.2 (.inr ⟨rfl, rfl, rfl⟩)
        have hset : Settled (s.addTarget k fn item) k item := .inl (List.ne_nil_of_mem hin)
        exact (hset.later hlater₁).later hlater'

end Resolve



/-! ### The requested targets and the unresolved ones -/

section Run
variable {c : Prop} {k : Kind} {item : Item}

/-- Adding the providers of an item takes no wrong branch. -/
def CleanAdd (dc : ProviderCache Fn Item) (k : Kind) (s : TaskData Fn Item) (item : Item) : Prop :=
  dc.ignored item = false → s.haveTarget k item = false →
    ¬ (k = .run ∧ 1 < dc.numberPreferred item) → CleanProviders dc k item (eligible dc s k item) s

/-- No provider is still to be added. -/
abbrev Done (dc : ProviderCache Fn Item) (requested : List Item) (c : Prop) (s : TaskData Fn Item) : Prop :=
  Ready dc requested c (fun _ _ _ => False) s

theorem not_hasty : ¬ Hasty (fun _ _ _ => False) s := by
  rintro ⟨_, _, _, h, -⟩
  exact h

theorem During.done (h : Idle dc requested c (fun _ => False) (fun _ _ _ => False) s) :
    Done dc requested c s :=
  ⟨h.shape, h.closed, fun hc => (h.sound hc).resolve_left not_hasty⟩

theorem haveTarget_eq_true : s.haveTarget k item = true ↔ s.providers k item ≠ [] := by
  simp [haveTarget]

theorem addEligible_ok (h : Done dc requested c s) (hitem : item ∈ dc.items requested)
    (hign : dc.ignored item = false) (hhave : s.haveTarget k item = false)
    (hsingle : ¬ (k = .run ∧ 1 < dc.numberPreferred item)) (hne : eligible dc s k item ≠ [])
    (hclean : c → CleanAdd dc k s item) :
    ∃ s', addProviders dc k item (eligible dc s k item) s = .ok s' ∧ Done dc requested c s' ∧
      Later s s' ∧ Settled s' k item := by
  have hcandidates : dc.candidates k item = dc.filtered k item := by
    rw [ProviderCache.candidates, if_neg hsingle]
  have hmem : ∀ fn, fn ∈ eligible dc s k item ↔ fn ∈ dc.candidates k item ∧ fn ∉ s.failedFns := by
    intro fn
    rw [hcandidates, eligible, List.mem_filter, decide_eq_true_eq]
  obtain ⟨s', heq, hr, hlater, hset⟩ := addProviders_ok hign hitem (fun fn hfn => ((hmem fn).1 hfn).1)
    (h.mono fun _ _ _ hfalse => hfalse.elim)
    (fun _ fn hfn => by
      by_cases hfail : fn ∈ s.failedFns
      · exact .inr (.inl hfail)
      · exact .inr (.inr ((hmem fn).2 ⟨hfn, hfail⟩)))
    (fun hc => hclean hc hign hhave hsingle)
  obtain ⟨fn, hfn⟩ := List.exists_mem_of_ne_nil _ hne
  exact ⟨s', heq, hr, hlater, hset ⟨fn, hfn, ((hmem fn).1 hfn).2⟩⟩

theorem candidates_failed (hnil : eligible dc s k item = []) :
    ∀ fn ∈ dc.candidates k item, fn ∈ s.failedFns := by
  intro fn hfn
  by_contra hnot
  have hin : fn ∈ dc.filtered k item := by
    unfold ProviderCache.candidates at hfn
    split at hfn
    · cases hfn
    · exact hfn
  have : fn ∈ eligible dc s k item := List.mem_filter.2 ⟨hin, by simpa using hnot⟩
  rw [hnil] at this
  cases this

theorem eligible_of_not_provided (hprov : dc.provided k item = false) : eligible dc s k item = [] := by
  rw [eligible, dc.filtered_provided k item hprov, List.filter_nil]

/-- `add_provider_internal` and `add_rprovider` settle the item, or all its providers have failed. -/
theorem addProviderOf_ok (h : Done dc requested c s) (hitem : item ∈ dc.items requested)
    (hclean : c → CleanAdd dc k s item) :
    (∃ s', addProviderOf dc k item s = .ok (some s') ∧ Done dc requested c s' ∧ Later s s' ∧
      (dc.ignored item = false → Settled s' k item)) ∨
    (addProviderOf dc k item s = .ok none ∧ dc.ignored item = false ∧
      ∀ fn ∈ dc.candidates k item, fn ∈ s.failedFns) := by
  cases hign : dc.ignored item with
  | true =>
    refine .inl ⟨s, ?_, h, .refl s, fun hfalse => by cases hfalse⟩
    cases k with
    | build => simp [addProviderOf, addProviderInternal, hign]
    | run => simp [addProviderOf, addRprovider, hign]
  | false =>
    cases hhave : s.haveTarget k item with
    | true =>
      have hset := haveTarget_eq_true.1 hhave
      refine .inl ⟨s, ?_, h, .refl s, fun _ => .inl hset⟩
      have hprov : dc.provided k item = true := by
        by_contra hnot
        obtain ⟨fn, hfn⟩ := List.exists_mem_of_ne_nil _ hset
        have hcand := h.shape.candidate k item fn hfn
        have hfiltered := dc.filtered_provided k item (by simpa using hnot)
        unfold ProviderCache.candidates at hcand
        split at hcand
        · cases hcand
        · rw [hfiltered] at hcand
          cases hcand
      cases k with
      | build => simp [addProviderOf, addProviderInternal, hign, hhave, hprov]
      | run => simp [addProviderOf, addRprovider, hign, hhave]
    | false =>
      by_cases hnil : eligible dc s k item = []
      · refine .inr ⟨?_, rfl, candidates_failed hnil⟩
        cases k with
        | build => simp [addProviderOf, addProviderInternal, hign, hhave, hnil]
        | run => simp [addProviderOf, addRprovider, hign, hhave, hnil]
      have hprov : dc.provided k item = true := by
        by_contra hnot
        exact hnil (eligible_of_not_provided (by simpa using hnot))
      by_cases hsingle : k = .run ∧ 1 < dc.numberPreferred item
      · obtain ⟨rfl, hmany⟩ := hsingle
        refine .inr ⟨?_, rfl, fun fn hfn => ?_⟩
        · simp [addProviderOf, addRprovider, hign, hhave, hprov, hnil, hmany]
        · rw [ProviderCache.candidates, if_pos ⟨rfl, hmany⟩] at hfn
          cases hfn
      · obtain ⟨s', heq, hr, hlater, hset⟩ := addEligible_ok h hitem hign hhave hsingle hnil hclean
        refine .inl ⟨s', ?_, hr, hlater, fun _ => hset⟩
        cases k with
        | build => simp [addProviderOf, addProviderInternal, hign, hhave, hprov, hnil, heq, Except.map]
        | run =>
          have hfew : ¬ 1 < dc.numberPreferred item := fun hmany => hsingle ⟨rfl, hmany⟩
          simp [addProviderOf, addRprovider, hign, hhave, hprov, hnil, hfew, heq, Except.map]

/-- A target all of whose providers failed is removed. -/
theorem removeFailed_ok (h : Done dc requested c s) (hvisited : s.Visited requested k item)
    (hign : dc.ignored item = false) (hall : ∀ fn ∈ dc.candidates k item, fn ∈ s.failedFns) :
    ∃ s', removeTarget (TaskData.fail dc) k item s = .ok s' ∧ Done dc requested c s' ∧ Shrinks s s' ∧
      item ∈ s'.failedDeps k := by
  obtain ⟨s', heq, hd, hsh, hin⟩ := remove_ok h.idle fun hc =>
    .inr (.target hvisited hign fun fn hfn => (h.sound hc).failedFns fn (hall fn hfn))
  exact ⟨s', heq, hd.done, hsh, hin⟩

theorem Ready.markExternalTarget (h : Done dc requested c s) (target : Item) :
    Done dc requested c (s.markExternalTarget target) ∧ Later s (s.markExternalTarget target) := by
  unfold TaskData.markExternalTarget
  split
  · exact ⟨h, .refl s⟩
  · refine ⟨⟨⟨h.shape.files, h.shape.depids, h.shape.entries, h.shape.nodup, h.shape.candidate,
      h.shape.not_ignored, h.shape.items⟩, fun hc => ⟨(h.closed hc).lists, (h.closed hc).needs⟩,
      fun hc => ⟨(h.sound hc).failedFns, (h.sound hc).failedDeps, (h.sound hc).lists⟩⟩, ?_⟩
    exact ⟨fun _ h => h, fun _ _ h => h, fun _ h => h, fun _ _ h => h, fun _ _ _ h => .inl h,
      fun _ _ h => .inl h⟩

theorem addProvider_ok (h : Done dc requested c s) (hitem : item ∈ requested)
    (hclean : c → CleanAdd dc .build s item) :
    ∃ s', addProvider dc s item = .ok s' ∧ Done dc requested c s' ∧ Later s s' ∧
      (dc.ignored item = false → Settled s' .build item) := by
  have hdef : addProvider dc s item = (addProviderInternal dc item s).bind fun added =>
      (added.elim (removeBuildtarget dc item s) .ok).bind fun s =>
        .ok (s.markExternalTarget item) := rfl
  rcases addProviderOf_ok (k := .build) h (List.mem_append_left _ hitem) hclean with
    ⟨t, heq, hd, hlater, hset⟩ | ⟨heq, hign, hall⟩
  · obtain ⟨hmark, hlaterMark⟩ := hd.markExternalTarget item
    refine ⟨t.markExternalTarget item, ?_, hmark, hlater.trans hlaterMark,
      fun hign => (hset hign).later hlaterMark⟩
    rw [hdef]
    replace heq : addProviderInternal dc item s = .ok (some t) := heq
    rw [heq]
    rfl
  · obtain ⟨t, hrem, hd, hsh, hin⟩ := removeFailed_ok h (.inr ⟨rfl, hitem⟩) hign hall
    obtain ⟨hmark, hlaterMark⟩ := hd.markExternalTarget item
    refine ⟨t.markExternalTarget item, ?_, hmark, hsh.toLater.trans hlaterMark,
      fun _ => .inr (hlaterMark.failedDeps _ _ hin)⟩
    rw [hdef]
    replace heq : addProviderInternal dc item s = .ok none := heq
    rw [heq]
    show (removeBuildtarget dc item s).bind _ = _
    rw [removeBuildtarget, hrem]
    rfl

theorem addProviders_requested_ok (h : Done dc requested c s) {l : List Item}
    (hl : ∀ item ∈ l, item ∈ requested)
    (hclean : c → Along (CleanAdd dc .build) (addProvider dc) l s) :
    ∃ s', l.foldlM (addProvider dc) s = .ok s' ∧ Done dc requested c s' ∧ Later s s' ∧
      ∀ item ∈ l, dc.ignored item = false → Settled s' .build item :=
  foldlM_ok Later.refl (fun _ _ _ => Later.trans)
    (fun _ _ _ hst hset hign => (hset hign).later hst)
    (fun item hitem _ ht hclean => addProvider_ok ht (hl item hitem) hclean) h (along_imp hclean)

/-- The targets that are not settled. -/
def unsettled (dc : ProviderCache Fn Item) (requested : List Item) (s : TaskData Fn Item) : Nat :=
  (((dc.items requested).toFinset ×ˢ [Kind.build, Kind.run].toFinset).filter fun p =>
    ¬ (s.providers p.2 p.1 ≠ [] ∨ p.1 ∈ s.failedDeps p.2)).card

theorem unsettled_later (dc : ProviderCache Fn Item) (requested : List Item) (h : Later s s') :
    unsettled dc requested s' ≤ unsettled dc requested s := by
  refine Finset.card_le_card fun p hp => ?_
  rw [Finset.mem_filter] at hp ⊢
  exact ⟨hp.1, fun hset => hp.2 (Settled.later h hset)⟩

theorem unsettled_lt (h : Later s s') {t : Item} (ht : t ∈ dc.items requested) (hs : ¬ Settled s k t)
    (hs' : Settled s' k t) : unsettled dc requested s' < unsettled dc requested s := by
  refine Finset.card_lt_card ⟨fun p hp => ?_, fun hsub => ?_⟩
  · rw [Finset.mem_filter] at hp ⊢
    exact ⟨hp.1, fun hset => hp.2 (Settled.later h hset)⟩
  · have hkind : k ∈ [Kind.build, Kind.run].toFinset := by cases k <;> simp
    have hin := hsub (Finset.mem_filter.2
      ⟨Finset.mem_product.2 ⟨List.mem_toFinset.2 ht, hkind⟩, hs⟩ : (t, k) ∈ _)
    exact (Finset.mem_filter.1 hin).2 hs'

theorem mem_getUnresolved {t : Item} : t ∈ getUnresolved dc s k ↔
    t ∈ s.targets k ∧ dc.ignored t = false ∧ ¬ Settled s k t := by
  simp only [getUnresolved, List.mem_filter, Settled, decide_eq_true_eq, Bool.not_eq_true', not_or,
    not_not, Dict.mem_iff_mem_keys]
  tauto

/-- The states of the loops of `add_unresolved`: where the count stays, nothing is visited. -/
structure Counts (a b : TaskData Fn Item × Nat) : Prop where
  later : Later a.1 b.1
  le : a.2 ≤ b.2
  shrinks : b.2 = a.2 → Shrinks a.1 b.1

theorem Counts.refl (a : TaskData Fn Item × Nat) : Counts a a :=
  ⟨.refl a.1, Nat.le_refl _, fun _ => .refl a.1⟩

theorem Counts.trans {a b d : TaskData Fn Item × Nat} (h : Counts a b) (h' : Counts b d) :
    Counts a d := by
  have hle := h.le
  have hle' := h'.le
  refine ⟨h.later.trans h'.later, by omega, fun heq => ?_⟩
  exact (h.shrinks (by omega)).trans (h'.shrinks (by omega))

theorem resolveTarget_ok {a : TaskData Fn Item × Nat} (h : Done dc requested c a.1)
    (hitem : item ∈ a.1.targets k) (hign : dc.ignored item = false)
    (hclean : c → CleanAdd dc k a.1 item) :
    ∃ b, resolveTarget dc k a item = .ok b ∧ Done dc requested c b.1 ∧ Counts a b ∧
      Settled b.1 k item := by
  have hdef : resolveTarget dc k a item = (addProviderOf dc k item a.1).bind fun added =>
      added.elim ((removeTarget (TaskData.fail dc) k item a.1).map fun s' => (s', a.2))
        fun s' => .ok (s', a.2 + 1) := rfl
  rcases addProviderOf_ok h (h.shape.items k item hitem) hclean with
    ⟨t, heq, hd, hlater, hset⟩ | ⟨heq, -, hall⟩
  · refine ⟨(t, a.2 + 1), ?_, hd, ⟨hlater, Nat.le_succ _, fun hcount => ?_⟩, hset hign⟩
    · rw [hdef, heq]
      rfl
    · exact absurd hcount (Nat.succ_ne_self a.2)
  · obtain ⟨t, hrem, hd, hsh, hin⟩ := removeFailed_ok h (.inl hitem) hign hall
    refine ⟨(t, a.2), ?_, hd, ⟨hsh.toLater, Nat.le_refl _, fun _ => hsh⟩, .inr hin⟩
    rw [hdef, heq]
    show (removeTarget (TaskData.fail dc) k item a.1).map _ = _
    rw [hrem]
    rfl

/-- A loop of `add_unresolved` settles the targets it goes through. -/
theorem resolveTargets_ok {a : TaskData Fn Item × Nat} (h : Done dc requested c a.1) {l : List Item}
    (hl : ∀ t ∈ l, t ∈ a.1.targets k ∧ dc.ignored t = false)
    (hclean : c → Along (fun b t => CleanAdd dc k b.1 t) (resolveTarget dc k) l a) :
    ∃ b, l.foldlM (resolveTarget dc k) a = .ok b ∧ Done dc requested c b.1 ∧ Counts a b ∧
      ∀ t ∈ l, Settled b.1 k t := by
  have hstep : ∀ t ∈ l, ∀ b, (Done dc requested c b.1 ∧ Later a.1 b.1) →
      (c → CleanAdd dc k b.1 t) → ∃ d, resolveTarget dc k b t = .ok d ∧
        (Done dc requested c d.1 ∧ Later a.1 d.1) ∧ Counts b d ∧ Settled d.1 k t := by
    intro t ht b hb hclean
    obtain ⟨hmem, hign⟩ := hl t ht
    obtain ⟨d, hd, hdone, hcounts, hset⟩ :=
      resolveTarget_ok hb.1 (hb.2.targets k t hmem) hign hclean
    exact ⟨d, hd, ⟨hdone, hb.2.trans hcounts.later⟩, hcounts, hset⟩
  obtain ⟨b, heq, hdone, hcounts, hset⟩ := foldlM_ok Counts.refl (fun _ _ _ => Counts.trans)
    (fun _ _ _ hbd hset => hset.later hbd.later) hstep ⟨h, .refl a.1⟩ (along_imp hclean)
  exact ⟨b, heq, hdone.1, hcounts, hset⟩

/-- The rounds of `add_unresolved` take no wrong branch. -/
def CleanUnresolved (dc : ProviderCache Fn Item) : Nat → TaskData Fn Item → Prop
  | 0, _ => True
  | n + 1, s =>
    Along (fun b t => CleanAdd dc .build b.1 t) (resolveTarget dc .build) (getUnresolved dc s .build)
      (s, 0) ∧
    ∀ b, (getUnresolved dc s .build).foldlM (resolveTarget dc .build) (s, 0) = .ok b →
      Along (fun b t => CleanAdd dc .run b.1 t) (resolveTarget dc .run) (getUnresolved dc b.1 .run) b ∧
      ∀ d, (getUnresolved dc b.1 .run).foldlM (resolveTarget dc .run) b = .ok d →
        CleanUnresolved dc n d.1

/-- With a round for each target that is not settled, the loop comes to its end, where every target is. -/
theorem addUnresolved_ok {n : Nat} (h : Done dc requested c s) (hn : unsettled dc requested s < n)
    (hclean : c → CleanUnresolved dc n s) :
    ∃ s', addUnresolved dc n s = .ok s' ∧ Done dc requested c s' ∧ Later s s' ∧
      ∀ k, ∀ t ∈ s'.targets k, dc.ignored t = false → Settled s' k t := by
  induction n generalizing s with
  | zero => omega
  | succ n ih =>
    have hmem : ∀ (u : TaskData Fn Item) k, ∀ t ∈ getUnresolved dc u k,
        t ∈ u.targets k ∧ dc.ignored t = false := by
      intro u k t ht
      obtain ⟨hmem, hign, -⟩ := mem_getUnresolved.1 ht
      exact ⟨hmem, hign⟩
    obtain ⟨b, hb, hdb, hcb, hsetb⟩ := resolveTargets_ok (a := (s, 0)) h (hmem s .build)
      fun hc => (hclean hc).1
    obtain ⟨d, hd, hdd, hcd, hsetd⟩ := resolveTargets_ok hdb (hmem b.1 .run)
      fun hc => ((hclean hc).2 b hb).1
    have hdef : addUnresolved dc (n + 1) s =
        ((getUnresolved dc s .build).foldlM (resolveTarget dc .build) (s, 0)).bind fun b =>
          ((getUnresolved dc b.1 .run).foldlM (resolveTarget dc .run) b).bind fun d =>
            if d.2 = 0 then .ok d.1 else addUnresolved dc n d.1 := rfl
    have hend : addUnresolved dc (n + 1) s = if d.2 = 0 then .ok d.1 else addUnresolved dc n d.1 := by
      rw [hdef, hb]
      show ((getUnresolved dc b.1 .run).foldlM (resolveTarget dc .run) b).bind _ = _
      rw [hd]
      rfl
    have hlater : Later s d.1 := hcb.later.trans hcd.later
    have hle := hcb.le
    have hle' := hcd.le
    rw [hend]
    by_cases hzero : d.2 = 0
    · rw [if_pos hzero]
      refine ⟨d.1, rfl, hdd, hlater, fun k t ht hign => ?_⟩
      have hshd : Shrinks b.1 d.1 := hcd.shrinks (by omega)
      have hshb : Shrinks s b.1 := hcb.shrinks (show b.2 = 0 by omega)
      cases k with
      | build =>
        have hts := hshb.target_of_target _ t (hshd.target_of_target _ t ht)
        by_cases hset : Settled s .build t
        · exact hset.later hlater
        · exact (hsetb t (mem_getUnresolved.2 ⟨hts, hign, hset⟩)).later hcd.later
      | run =>
        have htb := hshd.target_of_target _ t ht
        by_cases hset : Settled b.1 .run t
        · exact hset.later hcd.later
        · exact hsetd t (mem_getUnresolved.2 ⟨htb, hign, hset⟩)
    · rw [if_neg hzero]
      -- a target was added, so one was settled
      have hlt : unsettled dc requested d.1 < unsettled dc requested s := by
        by_cases hnil : getUnresolved dc s .build = []
        · have hbs : b = (s, 0) := by
            rw [hnil] at hb
            exact (Except.ok.inj hb).symm
          have hne : getUnresolved dc b.1 .run ≠ [] := by
            intro hnil'
            rw [hnil'] at hd
            have hdb : d = b := (Except.ok.inj hd).symm
            rw [hdb, hbs] at hzero
            exact hzero rfl
          obtain ⟨t, ht⟩ := List.exists_mem_of_ne_nil _ hne
          obtain ⟨hmem, -, hnot⟩ := mem_getUnresolved.1 ht
          have hlt := unsettled_lt hcd.later (hdb.shape.items _ t hmem) hnot (hsetd t ht)
          rw [hbs] at hlt
          exact hlt
        · obtain ⟨t, ht⟩ := List.exists_mem_of_ne_nil _ hnil
          obtain ⟨hmem, -, hnot⟩ := mem_getUnresolved.1 ht
          have hset : Settled d.1 .build t := (hsetb t ht).later hcd.later
          exact unsettled_lt hlater (h.shape.items _ t hmem) hnot hset
      obtain ⟨s', heq, hdone, hlater', hall⟩ := ih hdd (by omega)
        fun hc => ((hclean hc).2 b hb).2 d hd
      exact ⟨s', heq, hdone, hlater.trans hlater', hall⟩

/-! ### The whole run -/

/-- The files and targets that are failed are those that fail, and the other targets keep a provider. -/
structure Exact (dc : ProviderCache Fn Item) (requested : List Item) (s : TaskData Fn Item) : Prop where
  failedFns : ∀ fn, fn ∈ s.failedFns ↔ FailsIn dc requested s (.file fn)
  failedDeps : ∀ k t, t ∈ s.failedDeps k ↔ FailsIn dc requested s (.target k t)
  provided : ∀ k t, s.Visited requested k t → dc.ignored t = false → t ∉ s.failedDeps k →
    s.providers k t ≠ [] ∧ ∀ fn ∈ s.providers k t, fn ∉ s.failedFns

/-- The run takes no wrong branch. -/
def CleanRun (dc : ProviderCache Fn Item) (n : Nat) (requested : List Item) : Prop :=
  Along (CleanAdd dc .build) (addProvider dc) requested (empty : TaskData Fn Item) ∧
    ∀ s, requested.foldlM (addProvider dc) (empty : TaskData Fn Item) = .ok s → CleanUnresolved dc n s

def Failed (s : TaskData Fn Item) : Node Fn Item → Prop
  | .file fn => fn ∈ s.failedFns
  | .target k t => t ∈ s.failedDeps k

theorem done_empty (c : Prop) : Done dc requested c (empty : TaskData Fn Item) := by
  have hnone : ∀ (k : Kind) (t : Item) (fn : Fn), fn ∉ (empty : TaskData Fn Item).providers k t := by
    intro k t fn h
    cases h
  refine ⟨⟨?_, ?_, ?_, ?_, ?_, ?_, ?_⟩, fun _ => ⟨?_, ?_⟩, fun _ => ⟨?_, ?_, ?_⟩⟩
  · intro fn h
    cases h
  · intro k fn
    rfl
  · intro fn name
    rfl
  · intro k t
    exact List.nodup_nil
  · intro k t fn h
    exact absurd h (hnone k t fn)
  · intro k t hne
    exact absurd rfl hne
  · intro k t h
    cases h
  · intro k t fn h
    exact absurd h (hnone k t fn)
  · intro k t fn h
    cases h
  · intro fn h
    cases h
  · intro k t h
    cases h
  · intro k t hne
    exact absurd rfl hne

/-- What fails is failed where every visited target is settled. -/
theorem Ready.exact (h : Done dc requested True s)
    (hall : ∀ k t, s.Visited requested k t → dc.ignored t = false → Settled s k t) :
    Exact dc requested s := by
  have hclosed := h.closed trivial
  have hsound := h.sound trivial
  have hprovided : ∀ k t, s.Visited requested k t → dc.ignored t = false → t ∉ s.failedDeps k →
      s.providers k t ≠ [] ∧ ∀ fn ∈ s.providers k t, fn ∉ s.failedFns := by
    intro k t hvisited hign hnot
    exact ⟨(hall k t hvisited hign).resolve_right hnot, fun fn hfn hfail => hclosed.lists k t fn hfn hfail⟩
  have hcomplete : ∀ x, FailsIn dc requested s x → s.Failed x := by
    intro x hx
    induction hx with
    | file hseen hneeds _ ih =>
      rcases hclosed.needs _ _ _ hseen hneeds ih with hf | hQ | hE
      · exact hf
      · exact hQ.elim
      · exact hE.elim
    | @target k t hvisited hign _ ih =>
      show t ∈ s.failedDeps k
      by_contra hnot
      obtain ⟨hne, hnone⟩ := hprovided k t hvisited hign hnot
      obtain ⟨fn, hfn⟩ := List.exists_mem_of_ne_nil _ hne
      exact hnone fn hfn (ih fn (h.shape.candidate k t fn hfn))
  exact ⟨fun fn => ⟨hsound.failedFns fn, hcomplete (.file fn)⟩,
    fun k t => ⟨hsound.failedDeps k t, hcomplete (.target k t)⟩, hprovided⟩

/-- The rounds that are enough: the targets, and one more. -/
def rounds (dc : ProviderCache Fn Item) (requested : List Item) : Nat :=
  2 * (dc.items requested).length + 1

/-- The resolution comes to its end, and is exact where it takes no wrong branch. -/
theorem resolve_exact (dc : ProviderCache Fn Item) (requested : List Item) :
    ∃ s, resolve dc (rounds dc requested) requested = .ok s ∧
      (CleanRun dc (rounds dc requested) requested → Exact dc requested s) := by
  have hrun : ∀ c : Prop, (c → CleanRun dc (rounds dc requested) requested) →
      ∃ s, resolve dc (rounds dc requested) requested = .ok s ∧ Done dc requested c s ∧
        ∀ k t, s.Visited requested k t → dc.ignored t = false → Settled s k t := by
    intro c hclean
    obtain ⟨t, ht, hdt, -, hset⟩ := addProviders_requested_ok (l := requested) (done_empty c)
      (fun _ h => h) fun hc => (hclean hc).1
    have hle : unsettled dc requested t < rounds dc requested := by
      have hcard := Finset.card_filter_le
        ((dc.items requested).toFinset ×ˢ [Kind.build, Kind.run].toFinset)
        (fun p => ¬ (t.providers p.2 p.1 ≠ [] ∨ p.1 ∈ t.failedDeps p.2))
      have hitems := List.toFinset_card_le (dc.items requested)
      have hkinds : [Kind.build, Kind.run].toFinset.card = 2 := by decide
      rw [Finset.card_product, hkinds] at hcard
      have hdef : unsettled dc requested t ≤ (dc.items requested).toFinset.card * 2 := hcard
      unfold rounds
      omega
    obtain ⟨s, hs, hds, hlater, hall⟩ := addUnresolved_ok hdt hle fun hc => (hclean hc).2 t ht
    refine ⟨s, ?_, hds, fun k item hvisited hign => ?_⟩
    · show (requested.foldlM (addProvider dc) empty).bind _ = _
      rw [ht]
      exact hs
    · rcases hvisited with hmem | ⟨rfl, hreq⟩
      · exact hall k item hmem hign
      · exact (hset item hreq hign).later hlater
  obtain ⟨s, hs, -, -⟩ := hrun False fun h => h.elim
  refine ⟨s, hs, fun hclean => ?_⟩
  obtain ⟨s', hs', hds, hall⟩ := hrun True fun _ => hclean
  obtain rfl := Except.ok.inj (hs.symm.trans hs')
  exact hds.exact hall

theorem cleanUnresolved_of_nil (hbuild : getUnresolved dc s .build = [])
    (hrun : getUnresolved dc s .run = []) (n : Nat) : CleanUnresolved dc n s := by
  induction n with
  | zero => trivial
  | succ n ih =>
    rw [CleanUnresolved, hbuild]
    refine ⟨trivial, fun b hb => ?_⟩
    obtain rfl := Except.ok.inj hb
    show Along _ _ (getUnresolved dc s .run) _ ∧ _
    rw [hrun]
    refine ⟨trivial, fun d hd => ?_⟩
    obtain rfl := Except.ok.inj hd
    exact ih

namespace Sample

/-- Two items, of which nothing provides the first, and the files that provide the second. -/
def cache (deps : Nat → List Nat) (tasks : Nat → Dict Str (TaskEntry Nat)) (files : List Nat) :
    ProviderCache Nat Nat where
  files := files
  tasks := tasks
  deps k fn := if k = .build then deps fn else []
  provided k item := k = .build ∧ item = 1
  filtered k item := if k = .build ∧ item = 1 then files else []
  numberPreferred _ := 0
  ignored _ := false
  filtered_mem k item fn h := by
    split at h
    · exact h
    · cases h
  filtered_provided k item h := if_neg (by simpa using h)

/-- The first file needs the item that nothing provides. -/
def firstFails : ProviderCache Nat Nat :=
  cache (fun fn => if fn = 0 then [0] else []) (fun _ => .empty) [0, 1]

/-- A task of the only provider needs it. -/
def taskNeeds : ProviderCache Nat Nat :=
  cache (fun _ => []) (fun fn => if fn = 0 then
    Dict.empty.set "do_build".toList ⟨fun k => if k = .build then [(0, "do_install".toList)] else []⟩
    else .empty) [0]

/-- Nothing is needed. -/
def nothingNeeded : ProviderCache Nat Nat := cache (fun _ => []) (fun _ => .empty) [1]

/-- The failed build targets, the failed files and the visited ones. -/
def outcome (r : Except Fatal (TaskData Nat Nat)) : Option (List Nat × List Nat × List Nat) :=
  r.toOption.map fun s => (s.failedDeps .build, s.failedFns, s.seenfns)

theorem eq_of_outcome {r : Except Fatal (TaskData Nat Nat)} {o : List Nat × List Nat × List Nat} (h : outcome r = some o) :
    ∃ s, r = .ok s ∧ s.failedDeps .build = o.1 ∧ s.failedFns = o.2.1 ∧ s.seenfns = o.2.2 := by
  cases r with
  | error e => cases h
  | ok s =>
    obtain rfl := Option.some.inj h
    exact ⟨s, rfl, rfl, rfl, rfl⟩

theorem clean_nothingNeeded : CleanRun nothingNeeded (rounds nothingNeeded [1, 0]) [1, 0] := by
  refine ⟨⟨?_, fun s _ => ⟨?_, fun _ _ => trivial⟩⟩, fun s hs => ?_⟩
  · intro _ _ _
    refine ⟨⟨.inr (.inl fun k t _ ht => ?_), fun _ _ _ f hf => ?_⟩, fun _ _ => trivial⟩
    · cases ht
    · cases hf
  · intro _ _ _
    trivial
  · have hnil : (([1, 0] : List Nat).foldlM (addProvider nothingNeeded) empty).toOption.map
        (fun s => (getUnresolved nothingNeeded s .build, getUnresolved nothingNeeded s .run)) =
          some ([], []) := by decide
    rw [hs] at hnil
    obtain ⟨hbuild, hrun⟩ := Prod.mk.inj (Option.some.inj hnil)
    exact cleanUnresolved_of_nil hbuild hrun _

end Sample

theorem resolve_exact_nothingNeeded :
    ∃ s, resolve Sample.nothingNeeded (rounds Sample.nothingNeeded [1, 0]) [1, 0] = .ok s ∧
      Exact Sample.nothingNeeded [1, 0] s := by
  obtain ⟨s, hs, hexact⟩ := resolve_exact Sample.nothingNeeded [1, 0]
  exact ⟨s, hs, hexact Sample.clean_nothingNeeded⟩

/-- The first provider of the second item fails as it is added, and the item stays failed with the
other one; and a file is not failed whose task needs what failed before. -/
theorem resolve_not_exact :
    (∃ s, resolve Sample.firstFails (rounds Sample.firstFails [0, 1]) [0, 1] = .ok s ∧
      ¬ Exact Sample.firstFails [0, 1] s) ∧
    ∃ s, resolve Sample.taskNeeds (rounds Sample.taskNeeds [0, 1]) [0, 1] = .ok s ∧
      ¬ Exact Sample.taskNeeds [0, 1] s := by
  constructor
  · have hout : Sample.outcome (resolve Sample.firstFails (rounds Sample.firstFails [0, 1]) [0, 1]) =
        some ([0, 1], [0], [0, 1]) := by decide
    obtain ⟨s, hs, hdeps, hfns, -⟩ := Sample.eq_of_outcome hout
    refine ⟨s, hs, fun hexact => ?_⟩
    have hitem : FailsIn Sample.firstFails [0, 1] s (.target .build 1) := by
      rw [← hexact.failedDeps, hdeps]
      exact List.mem_cons_of_mem _ List.mem_cons_self
    cases hitem with
    | target _ _ hall =>
      have hfile := hall 1 (by decide)
      rw [← FailsIn, ← hexact.failedFns, hfns] at hfile
      exact absurd hfile (by decide)
  · have hout : Sample.outcome (resolve Sample.taskNeeds (rounds Sample.taskNeeds [0, 1]) [0, 1]) =
        some ([0], [], [0]) := by decide
    obtain ⟨s, hs, hdeps, hfns, hseen⟩ := Sample.eq_of_outcome hout
    refine ⟨s, hs, fun hexact => ?_⟩
    have hitem : FailsIn Sample.taskNeeds [0, 1] s (.target .build 0) := by
      rw [← hexact.failedDeps, hdeps]
      exact List.mem_cons_self
    have hneeds : Sample.taskNeeds.Needs .build 0 0 :=
      .inr ⟨_, List.mem_cons_self, _, List.mem_cons_self, rfl⟩
    have hmem : 0 ∈ s.seenfns := by
      rw [hseen]
      exact List.mem_cons_self
    have hfile : 0 ∈ s.failedFns := (hexact.failedFns 0).2 (.file hmem hneeds hitem)
    rw [hfns] at hfile
    cases hfile

end Run

end TaskData
end BitBake
end OpenBmc
