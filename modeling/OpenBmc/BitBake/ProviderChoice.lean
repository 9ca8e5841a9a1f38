import OpenBmc.BitBake.Providers

/-!
# The choice of providers

`Chosen` is the file a recipe is represented by; `Meets` says that the list has one such file for each
recipe that can be represented, with the item's own recipe first. `filterProviders_meets_iff` is the
result: the list is as it should be unless a recipe without the version required of it stands before,
or makes forget, the others.
-/

namespace OpenBmc
namespace BitBake
namespace Providers
open Py

variable {α : Type} [Decimals] {c : Cache α}

/-! ### Files by priority -/

theorem mem_priorityList {files : List α} {pri : Int} {f : α} :
    (f ∈ (sorted ((files.filter fun f => c.bbfilePriority f = pri).map c.pkgDp).toFinset).flatMap
      fun pref => files.filter fun f => c.bbfilePriority f = pri ∧ c.pkgDp f = pref) ↔
      f ∈ files ∧ c.bbfilePriority f = pri := by
  simp only [List.mem_flatMap, mem_sorted, List.mem_toFinset, List.mem_map, List.mem_filter,
    decide_eq_true_eq]
  constructor
  · rintro ⟨pref, -, hf, hpri, -⟩
    exact ⟨hf, hpri⟩
  · rintro ⟨hf, hpri⟩
    exact ⟨c.pkgDp f, ⟨f, ⟨hf, hpri⟩, rfl⟩, hf, hpri, rfl⟩

omit [Decimals] in
/-- Along descending priorities, the first list with a match has the highest of the matches. -/
theorem findSome_descending {sets : Int → List α} {m : α → Bool} {pris : List Int}
    (hsorted : pris.Pairwise (· > ·)) {f : α}
    (h : pris.findSome? (fun pri => (sets pri).find? m) = some f) :
    ∃ pri ∈ pris, f ∈ sets pri ∧ m f ∧ ∀ pri' ∈ pris, ∀ g ∈ sets pri', m g → pri' ≤ pri := by
  induction pris with
  | nil => exact absurd h (Option.some_ne_none f).symm
  | cons pri pris ih =>
    obtain ⟨hfirst, hrest⟩ := List.pairwise_cons.1 hsorted
    rw [List.findSome?_cons] at h
    cases hfind : (sets pri).find? m with
    | some g =>
      rw [hfind] at h
      cases h
      refine ⟨pri, List.mem_cons_self, List.mem_of_find?_eq_some hfind,
        List.find?_some hfind, fun pri' hpri' _ _ _ => ?_⟩
      rcases List.mem_cons.1 hpri' with rfl | hpri'
      · exact le_rfl
      · exact (hfirst pri' hpri').le
    | none =>
      rw [hfind] at h
      obtain ⟨pri', hmem, hf, hm, hmax⟩ := ih hrest h
      refine ⟨pri', List.mem_cons_of_mem pri hmem, hf, hm, fun q hq g hg hmg => ?_⟩
      rcases List.mem_cons.1 hq with rfl | hq
      · exact absurd hmg (List.find?_eq_none.1 hfind g hg)
      · exact hmax q hq g hg hmg

theorem priorities_descending (files : List α) :
    ((sorted (files.map c.bbfilePriority).toFinset).reverse).Pairwise (· > ·) :=
  List.pairwise_reverse.2 (pairwise_sorted _)

theorem mem_priorities {files : List α} {pri : Int} :
    pri ∈ (sorted (files.map c.bbfilePriority).toFinset).reverse ↔
      ∃ f ∈ files, c.bbfilePriority f = pri := by
  rw [List.mem_reverse, mem_sorted, List.mem_toFinset, List.mem_map]

/-- The first match is of the highest priority among the matches. -/
theorem find_sortPriorities {files : List α} {m : α → Bool} {f : α}
    (h : (sortPriorities c files).findSome? (fun fileSet => fileSet.find? m) = some f) :
    f ∈ files ∧ m f ∧ ∀ g ∈ files, m g → c.bbfilePriority g ≤ c.bbfilePriority f := by
  unfold sortPriorities at h
  rw [List.findSome?_map] at h
  obtain ⟨pri, -, hf, hm, hmax⟩ := findSome_descending (priorities_descending files) h
  obtain ⟨hmem, rfl⟩ := mem_priorityList.1 hf
  refine ⟨hmem, hm, fun g hg hmg => ?_⟩
  exact hmax _ (mem_priorities.2 ⟨g, hg, rfl⟩) g (mem_priorityList.2 ⟨hg, rfl⟩) hmg

theorem find_sortPriorities_none {files : List α} {m : α → Bool} :
    (sortPriorities c files).findSome? (fun fileSet => fileSet.find? m) = none ↔
      ∀ f ∈ files, ¬ m f := by
  rw [List.findSome?_eq_none_iff]
  constructor
  · intro h f hf
    have hset : _ ∈ sortPriorities c files :=
      List.mem_map.2 ⟨c.bbfilePriority f, mem_priorities.2 ⟨f, hf, rfl⟩, rfl⟩
    exact List.find?_eq_none.1 (h _ hset) f (mem_priorityList.2 ⟨hf, rfl⟩)
  · intro h fileSet hset
    obtain ⟨pri, -, rfl⟩ := List.mem_map.1 hset
    exact List.find?_eq_none.2 fun f hf => h f (mem_priorityList.1 hf).1

/-- The first list: the files of the highest priority. -/
theorem head_sortPriorities {files : List α} (hne : files ≠ []) :
    ∃ pri, (∃ f ∈ files, c.bbfilePriority f = pri) ∧ (∀ g ∈ files, c.bbfilePriority g ≤ pri) ∧
      ∀ f, f ∈ (sortPriorities c files).head?.getD [] ↔ f ∈ files ∧ c.bbfilePriority f = pri := by
  have hdesc := priorities_descending (c := c) files
  have hmem : ∀ pri, pri ∈ (sorted (files.map c.bbfilePriority).toFinset).reverse ↔
      ∃ f ∈ files, c.bbfilePriority f = pri := fun _ => mem_priorities
  unfold sortPriorities
  cases hpris : (sorted (files.map c.bbfilePriority).toFinset).reverse with
  | nil =>
    obtain ⟨f, hf⟩ := List.exists_mem_of_ne_nil files hne
    have hm := (hmem (c.bbfilePriority f)).2 ⟨f, hf, rfl⟩
    rw [hpris] at hm
    exact absurd hm List.not_mem_nil
  | cons pri pris =>
    rw [hpris] at hdesc hmem
    refine ⟨pri, (hmem pri).1 List.mem_cons_self, fun g hg => ?_, fun f => mem_priorityList⟩
    rcases List.mem_cons.1 ((hmem _).2 ⟨g, hg, rfl⟩) with heq | hm
    · exact heq.le
    · exact ((List.pairwise_cons.1 hdesc).1 _ hm).le

/-! ### The latest file -/

/-- What the latest file is the greatest of. -/
def fileKey (c : Cache α) (f : α) : ℤ ×ₗ ℤ ×ₗ List (ℤ ×ₗ WithBot (ℕ ×ₗ Str)) ×ₗ
    List (ℤ ×ₗ WithBot (ℕ ×ₗ Str)) :=
  toLex (c.pkgDp f, versionKey (c.pkgPepvpr f))

theorem later_some (l f : α) :
    later c (some l) f = if fileKey c l < fileKey c f then some f else some l := by
  have hiff : fileKey c l < fileKey c f ↔
      (c.pkgDp l = c.pkgDp f ∧ vercmp (c.pkgPepvpr l) (c.pkgPepvpr f) < 0) ∨
        c.pkgDp l < c.pkgDp f := by
    rw [fileKey, fileKey, Prod.Lex.toLex_lt_toLex, vercmp_neg, or_comm]
  unfold later
  simp only [hiff]

theorem foldl_later (l : α) (fileSet : List α) : ∃ f ∈ l :: fileSet,
    fileSet.foldl (later c) (some l) = some f ∧ ∀ g ∈ l :: fileSet, fileKey c g ≤ fileKey c f := by
  induction fileSet generalizing l with
  | nil => exact ⟨l, List.mem_cons_self, rfl, fun g hg => by rw [List.mem_singleton.1 hg]⟩
  | cons a fileSet ih =>
    rw [List.foldl_cons, later_some]
    by_cases hlt : fileKey c l < fileKey c a
    · rw [if_pos hlt]
      obtain ⟨f, hf, heq, hmax⟩ := ih a
      refine ⟨f, List.mem_cons_of_mem l hf, heq, fun g hg => ?_⟩
      rcases List.mem_cons.1 hg with rfl | hg
      · exact hlt.le.trans (hmax a List.mem_cons_self)
      · exact hmax g hg
    · rw [if_neg hlt]
      obtain ⟨f, hf, heq, hmax⟩ := ih l
      refine ⟨f, ?_, heq, fun g hg => ?_⟩
      · rcases List.mem_cons.1 hf with rfl | hf
        · exact List.mem_cons_self
        · exact List.mem_cons_of_mem l (List.mem_cons_of_mem a hf)
      · rcases List.mem_cons.1 hg with rfl | hg
        · exact hmax g List.mem_cons_self
        rcases List.mem_cons.1 hg with rfl | hg
        · exact (not_lt.1 hlt).trans (hmax l List.mem_cons_self)
        · exact hmax g (List.mem_cons_of_mem l hg)

theorem findLatestProvider_spec {fileSet : List α} (hne : fileSet ≠ []) :
    ∃ f ∈ fileSet, (findLatestProvider c fileSet).2 = some f ∧
      ∀ g ∈ fileSet, fileKey c g ≤ fileKey c f := by
  cases fileSet with
  | nil => exact absurd rfl hne
  | cons l fileSet => exact foldl_later l fileSet

/-! ### The passes -/

section passes
variable (c) (getVar : Str → Option Str) (providers : List α)

/-- The file of the version that is set for the recipe. -/
def preferredFile (pn : Str) : Option α :=
  (findPreferredProvider c getVar pn (sortPriorities c (pkgFiles c providers pn))).2.1

def latestFile (pn : Str) : Option α :=
  (findLatestProvider c ((sortPriorities c (pkgFiles c providers pn)).head?.getD [])).2

/-- The recipe has no file of the version that is required. -/
def lacksRequired (pn : Str) : Bool := isRequired getVar pn && (preferredFile c getVar providers pn).isNone

def chosenFile (pn : Str) : Option α :=
  (preferredFile c getVar providers pn).or (latestFile c providers pn)

variable {c getVar providers}

theorem Pass.put_self (pass : Pass α) (pn : Str) (entry : Option Version × Option α) :
    (pass.put pn entry).preferredVersions pn = entry := Function.update_self ..

theorem Pass.put_ne (pass : Pass α) {pn q : Str} (hq : q ≠ pn)
    (entry : Option Version × Option α) :
    (pass.put pn entry).preferredVersions q = pass.preferredVersions q :=
  Function.update_of_ne hq ..

theorem Pass.put_eligible (pass : Pass α) (pn : Str) (entry : Option Version × Option α) :
    (pass.put pn entry).eligible = pass.eligible ++ entry.2.toList := rfl

theorem firstPass_cons (pn : Str) (pns : List Str) (pass : Pass α) :
    firstPass c getVar providers (pn :: pns) pass =
      if lacksRequired c getVar providers pn then .error pass.eligible
      else firstPass c getVar providers pns
        (pass.put pn ((preferredFile c getVar providers pn).map c.pkgPepvpr,
          preferredFile c getVar providers pn)) := by
  rw [firstPass]
  simp only [lacksRequired, Bool.and_eq_true, Option.isNone_iff_eq_none]
  rfl

theorem firstPass_ok {pns : List Str} (hnodup : pns.Nodup)
    (h : ∀ pn ∈ pns, lacksRequired c getVar providers pn = false) (pass : Pass α) :
    ∃ pass', firstPass c getVar providers pns pass = .ok pass' ∧
      pass'.eligible = pass.eligible ++ pns.filterMap (preferredFile c getVar providers) ∧
      (∀ pn ∈ pns, (pass'.preferredVersions pn).2 = preferredFile c getVar providers pn) ∧
      ∀ pn ∉ pns, pass'.preferredVersions pn = pass.preferredVersions pn := by
  induction pns generalizing pass with
  | nil =>
    exact ⟨pass, rfl, (List.append_nil _).symm, fun _ hm => absurd hm List.not_mem_nil,
      fun _ _ => rfl⟩
  | cons pn pns ih =>
    obtain ⟨hpn, hnodup⟩ := List.nodup_cons.1 hnodup
    rw [firstPass_cons, h pn List.mem_cons_self, if_neg Bool.false_ne_true]
    obtain ⟨pass', heq, helig, hin, hout⟩ :=
      ih hnodup (fun q hq => h q (List.mem_cons_of_mem pn hq)) _
    refine ⟨pass', heq, ?_, ?_, ?_⟩
    · rw [helig, Pass.put_eligible, List.append_assoc, List.filterMap_cons]
      cases preferredFile c getVar providers pn <;> rfl
    · intro q hq
      rcases List.mem_cons.1 hq with rfl | hq
      · rw [hout q hpn, Pass.put_self]
      · exact hin q hq
    · intro q hq
      rw [List.mem_cons, not_or] at hq
      rw [hout q hq.2, Pass.put_ne _ hq.1]

/-- The pass ends before the first recipe that lacks its required version. -/
theorem firstPass_error {pns : List Str} (h : ∃ pn ∈ pns, lacksRequired c getVar providers pn)
    (pass : Pass α) : firstPass c getVar providers pns pass = .error (pass.eligible ++
      (pns.takeWhile fun pn => !lacksRequired c getVar providers pn).filterMap
        (preferredFile c getVar providers)) := by
  induction pns generalizing pass with
  | nil =>
    obtain ⟨_, hm, -⟩ := h
    exact absurd hm List.not_mem_nil
  | cons pn pns ih =>
    rw [firstPass_cons]
    by_cases hpn : lacksRequired c getVar providers pn = true
    · rw [if_pos hpn, List.takeWhile_cons_of_neg (by simp [hpn]), List.filterMap_nil,
        List.append_nil]
    · obtain ⟨q, hq, hlacks⟩ := h
      have hrest : ∃ q ∈ pns, lacksRequired c getVar providers q := by
        rcases List.mem_cons.1 hq with rfl | hq
        · exact absurd hlacks hpn
        · exact ⟨q, hq, hlacks⟩
      rw [if_neg hpn, ih hrest, List.takeWhile_cons_of_pos (by simp [hpn]), List.filterMap_cons,
        Pass.put_eligible, List.append_assoc]
      cases preferredFile c getVar providers pn <;> rfl

theorem foldl_secondPass {pns : List Str} (hnodup : pns.Nodup) (pass : Pass α)
    (h : ∀ pn ∈ pns, (pass.preferredVersions pn).2 = preferredFile c getVar providers pn) :
    (pns.foldl (secondPass c providers) pass).eligible = pass.eligible ++
        (pns.filter fun pn => (preferredFile c getVar providers pn).isNone).filterMap
          (latestFile c providers) ∧
      (∀ pn ∈ pns, ((pns.foldl (secondPass c providers) pass).preferredVersions pn).2 =
        chosenFile c getVar providers pn) ∧
      ∀ pn ∉ pns, (pns.foldl (secondPass c providers) pass).preferredVersions pn =
        pass.preferredVersions pn := by
  induction pns generalizing pass with
  | nil =>
    exact ⟨(List.append_nil _).symm, fun _ hm => absurd hm List.not_mem_nil, fun _ _ => rfl⟩
  | cons pn pns ih =>
    obtain ⟨hpn, hnodup⟩ := List.nodup_cons.1 hnodup
    have hhere := h pn List.mem_cons_self
    have hthere := fun q hq => h q (List.mem_cons_of_mem pn hq)
    rw [List.foldl_cons]
    cases hfile : preferredFile c getVar providers pn with
    | some f =>
      have hstep : secondPass c providers pass pn = pass := by
        rw [secondPass, if_pos (by rw [hhere, hfile]; exact Option.some_ne_none f)]
      obtain ⟨helig, hin, hout⟩ := ih hnodup pass hthere
      rw [hstep]
      refine ⟨?_, ?_, ?_⟩
      · rw [helig, List.filter_cons_of_neg (by simp [hfile])]
      · intro q hq
        rcases List.mem_cons.1 hq with rfl | hq
        · rw [hout q hpn, hhere, chosenFile, hfile]
          rfl
        · exact hin q hq
      · exact fun q hq => hout q (mt (List.mem_cons_of_mem pn) hq)
    | none =>
      have hstep : secondPass c providers pass pn = pass.put pn
          (findLatestProvider c ((sortPriorities c (pkgFiles c providers pn)).head?.getD [])) := by
        rw [secondPass, if_neg (by rw [hhere, hfile]; exact fun hn => hn rfl)]
      rw [hstep]
      obtain ⟨helig, hin, hout⟩ := ih hnodup _ fun q hq => by
        have hne : q ≠ pn := fun he => hpn (he ▸ hq)
        rw [Pass.put_ne _ hne, hthere q hq]
      refine ⟨?_, ?_, ?_⟩
      · rw [helig, Pass.put_eligible, List.filter_cons_of_pos (by simp [hfile]),
          List.filterMap_cons, List.append_assoc, latestFile]
        cases (findLatestProvider c _).2 <;> rfl
      · intro q hq
        rcases List.mem_cons.1 hq with rfl | hq
        · rw [hout q hpn, Pass.put_self, chosenFile, hfile]
          rfl
        · exact hin q hq
      · intro q hq
        rw [List.mem_cons, not_or] at hq
        rw [hout q hq.2, Pass.put_ne _ hq.1]

end passes

/-! ### The last loop -/

/-- The file moves to the front, if it is in the list. -/
def moveFirst [DecidableEq α] (fn : Option α) (eligible : List α) : List α :=
  match fn with
  | none => eligible
  | some fn => if fn ∈ eligible then fn :: eligible.erase fn else eligible

omit [Decimals] in
theorem moveFirst_moveFirst [DecidableEq α] (fn : Option α) (eligible : List α) :
    moveFirst fn (moveFirst fn eligible) = moveFirst fn eligible := by
  cases fn with
  | none => rfl
  | some fn =>
    by_cases hmem : fn ∈ eligible
    · simp [moveFirst, hmem]
    · simp [moveFirst, hmem]

theorem foldl_ownFirst [DecidableEq α] {item : Str}
    {preferredVersions : Str → Option Version × Option α} (providers : List α) (eligible : List α) :
    providers.foldl (ownFirst c item preferredVersions) eligible =
      if ∃ p ∈ providers, c.pkgFn p = item then moveFirst (preferredVersions item).2 eligible
      else eligible := by
  have hstep : ∀ (eligible : List α) (p : α), ownFirst c item preferredVersions eligible p =
      if c.pkgFn p = item then moveFirst (preferredVersions item).2 eligible else eligible := by
    intro eligible p
    by_cases hp : c.pkgFn p = item
    · rw [ownFirst, if_neg (not_not.2 hp), if_pos hp, hp]
      rfl
    · rw [ownFirst, if_pos hp, if_neg hp]
  induction providers generalizing eligible with
  | nil => simp
  | cons p providers ih =>
    rw [List.foldl_cons, hstep, ih]
    by_cases hp : c.pkgFn p = item
    · have hex : ∃ q ∈ p :: providers, c.pkgFn q = item := ⟨p, List.mem_cons_self, hp⟩
      rw [if_pos hp, if_pos hex, moveFirst_moveFirst, ite_self]
    · rw [if_neg hp]
      simp [hp]

/-! ### What the list should be -/

section spec
variable (c) (getVar : Str → Option Str) (providers : List α)

def Present (pn : Str) : Prop := ∃ f ∈ providers, c.pkgFn f = pn

/-- No file is of the version that is required of the recipe. -/
def Unsatisfied (pn : Str) : Prop :=
  isRequired getVar pn ∧ ∀ f ∈ providers, c.pkgFn f = pn → ¬ matchesSetting c getVar pn f

def Represented (pn : Str) : Prop := Present c providers pn ∧ ¬ Unsatisfied c getVar providers pn

/-- The file is the choice for its recipe. -/
structure Chosen (f : α) : Prop where
  mem : f ∈ providers
  /-- If a file matches the setting, this is one of the highest layer among those that do. -/
  matching : ∀ g ∈ providers, c.pkgFn g = c.pkgFn f → matchesSetting c getVar (c.pkgFn f) g →
    matchesSetting c getVar (c.pkgFn f) f ∧ c.bbfilePriority g ≤ c.bbfilePriority f
  /-- Otherwise it is, in the highest layer, one of the greatest preference and version. -/
  latest : (∀ g ∈ providers, c.pkgFn g = c.pkgFn f → ¬ matchesSetting c getVar (c.pkgFn f) g) →
    ∀ g ∈ providers, c.pkgFn g = c.pkgFn f → c.bbfilePriority g ≤ c.bbfilePriority f ∧
      (c.bbfilePriority g = c.bbfilePriority f → c.pkgDp g < c.pkgDp f ∨
        c.pkgDp g = c.pkgDp f ∧ ¬ vercmp (c.pkgPepvpr f) (c.pkgPepvpr g) < 0)

/-- One choice for each recipe that can be represented, the item's own recipe first. -/
structure Meets (item : Str) (result : List α) : Prop where
  once : (result.map c.pkgFn).Nodup
  recipes : ∀ pn, pn ∈ result.map c.pkgFn ↔ Represented c getVar providers pn
  chosen : ∀ f ∈ result, Chosen c getVar providers f
  own : Represented c getVar providers item → (result.map c.pkgFn).head? = some item

/-- Every recipe can be represented; or those that can have a file of the version set for them, come
before the others, and the item's own comes before all. -/
def Undisturbed (item : Str) : Prop :=
  (∀ pn, Present c providers pn → ¬ Unsatisfied c getVar providers pn) ∨
    ∀ pn, Represented c getVar providers pn →
      (∃ f ∈ providers, c.pkgFn f = pn ∧ matchesSetting c getVar pn f) ∧
      (∀ b, Present c providers b → Unsatisfied c getVar providers b → pn < b) ∧
      (Represented c getVar providers item → item ≤ pn)

variable {c getVar providers}

theorem mem_pkgFiles {pn : Str} {f : α} : f ∈ pkgFiles c providers pn ↔
    f ∈ providers ∧ c.pkgFn f = pn := by
  rw [pkgFiles, List.mem_filter, decide_eq_true_eq]

theorem preferredFile_none {pn : Str} : preferredFile c getVar providers pn = none ↔
    ∀ f ∈ providers, c.pkgFn f = pn → ¬ matchesSetting c getVar pn f := by
  refine find_sortPriorities_none.trans ?_
  simp only [mem_pkgFiles, and_imp]

theorem lacksRequired_iff {pn : Str} :
    lacksRequired c getVar providers pn = true ↔ Unsatisfied c getVar providers pn := by
  rw [lacksRequired, Bool.and_eq_true, Option.isNone_iff_eq_none, preferredFile_none]
  rfl

theorem preferredFile_chosen {pn : Str} {f : α} (h : preferredFile c getVar providers pn = some f) :
    c.pkgFn f = pn ∧ Chosen c getVar providers f := by
  obtain ⟨hf, hm, hmax⟩ := find_sortPriorities h
  obtain ⟨hmem, rfl⟩ := mem_pkgFiles.1 hf
  refine ⟨rfl, hmem, fun g hg hpn hmg => ⟨hm, hmax g (mem_pkgFiles.2 ⟨hg, hpn⟩) hmg⟩, fun hnone => ?_⟩
  exact absurd hm (hnone f hmem rfl)

theorem latestFile_chosen {pn : Str} (hpn : Present c providers pn)
    (hnone : preferredFile c getVar providers pn = none) :
    ∃ f, latestFile c providers pn = some f ∧ c.pkgFn f = pn ∧ Chosen c getVar providers f := by
  obtain ⟨p, hp, hppn⟩ := hpn
  obtain ⟨pri, ⟨q, hq, hqpri⟩, htop, hset⟩ := head_sortPriorities (c := c)
    (List.ne_nil_of_mem (mem_pkgFiles.2 ⟨hp, hppn⟩))
  obtain ⟨f, hf, hlatest, hmax⟩ := findLatestProvider_spec (c := c)
    (List.ne_nil_of_mem ((hset q).2 ⟨hq, hqpri⟩))
  obtain ⟨hfile, rfl⟩ := (hset f).1 hf
  obtain ⟨hmem, rfl⟩ := mem_pkgFiles.1 hfile
  refine ⟨f, hlatest, rfl, hmem, fun g hg hpn hmg => ?_, fun _ g hg hpn => ⟨?_, fun hpri => ?_⟩⟩
  · exact absurd hmg (preferredFile_none.1 hnone g hg hpn)
  · exact htop g (mem_pkgFiles.2 ⟨hg, hpn⟩)
  · have hle := hmax g ((hset g).2 ⟨mem_pkgFiles.2 ⟨hg, hpn⟩, hpri⟩)
    rw [fileKey, fileKey, Prod.Lex.toLex_le_toLex, ← not_lt, ← vercmp_neg] at hle
    exact hle

variable (getVar) in
theorem chosenFile_chosen {pn : Str} (hpn : Present c providers pn) :
    ∃ f, chosenFile c getVar providers pn = some f ∧ c.pkgFn f = pn ∧
      Chosen c getVar providers f := by
  unfold chosenFile
  cases hpref : preferredFile c getVar providers pn with
  | some f => exact ⟨f, rfl, preferredFile_chosen hpref⟩
  | none =>
    rw [Option.none_or]
    exact latestFile_chosen hpn hpref

end spec

/-! ### Lists of names -/

section names

omit [Decimals] in
/-- In an ascending list, what is taken while `p` holds is what comes before all that fail it. -/
theorem mem_takeWhile_ascending {β : Type} [LinearOrder β] {p : β → Bool} {l : List β}
    (hl : l.Pairwise (· < ·)) {n : β} :
    n ∈ l.takeWhile p ↔ n ∈ l ∧ ∀ b ∈ l, p b = false → n < b := by
  induction l with
  | nil => simp
  | cons a l ih =>
    obtain ⟨hfirst, hl⟩ := List.pairwise_cons.1 hl
    cases hp : p a with
    | true =>
      rw [List.takeWhile_cons_of_pos hp, List.mem_cons, ih hl, List.mem_cons]
      constructor
      · rintro (rfl | ⟨hn, hlt⟩)
        · refine ⟨.inl rfl, fun b hb hpb => ?_⟩
          rcases List.mem_cons.1 hb with rfl | hb
          · exact absurd (hp.symm.trans hpb) Bool.noConfusion
          · exact hfirst b hb
        · refine ⟨.inr hn, fun b hb hpb => ?_⟩
          rcases List.mem_cons.1 hb with rfl | hb
          · exact absurd (hp.symm.trans hpb) Bool.noConfusion
          · exact hlt b hb hpb
      · rintro ⟨rfl | hn, hlt⟩
        · exact .inl rfl
        · exact .inr ⟨hn, fun b hb => hlt b (List.mem_cons_of_mem a hb)⟩
    | false =>
      rw [List.takeWhile_cons_of_neg (by simp [hp])]
      refine ⟨fun h => absurd h List.not_mem_nil, fun ⟨hn, hlt⟩ => ?_⟩
      have hna := hlt a List.mem_cons_self hp
      rcases List.mem_cons.1 hn with rfl | hn
      · exact absurd hna (lt_irrefl n)
      · exact absurd (hfirst n hn) hna.not_gt

omit [Decimals] in
/-- An ascending list starts with its least element. -/
theorem head_ascending {β : Type} [LinearOrder β] {l : List β} (hl : l.Pairwise (· < ·)) {a : β} :
    l.head? = some a ↔ a ∈ l ∧ ∀ b ∈ l, a ≤ b := by
  cases l with
  | nil => simp
  | cons x l =>
    have hfirst := (List.pairwise_cons.1 hl).1
    rw [List.head?_cons, Option.some_inj]
    constructor
    · rintro rfl
      refine ⟨List.mem_cons_self, fun b hb => ?_⟩
      rcases List.mem_cons.1 hb with rfl | hb
      · exact le_rfl
      · exact (hfirst b hb).le
    · rintro ⟨ha, hle⟩
      rcases List.mem_cons.1 ha with rfl | ha
      · rfl
      · exact absurd (hfirst a ha) (hle x List.mem_cons_self).not_gt

/-- The names of files that are found by name. -/
theorem map_filterMap_names {file : Str → Option α} {pns : List Str}
    (h : ∀ pn ∈ pns, ∀ f, file pn = some f → c.pkgFn f = pn) :
    (pns.filterMap file).map c.pkgFn = pns.filter fun pn => (file pn).isSome := by
  induction pns with
  | nil => rfl
  | cons pn pns ih =>
    have hrest := ih fun q hq => h q (List.mem_cons_of_mem pn hq)
    cases hf : file pn with
    | none =>
      rw [List.filterMap_cons_none hf, hrest, List.filter_cons_of_neg (by simp [hf])]
    | some f =>
      rw [List.filterMap_cons_some hf, List.map_cons, hrest, h pn List.mem_cons_self f hf,
        List.filter_cons_of_pos (by simp [hf])]

end names

/-! ### The result -/

section result
variable {getVar : Str → Option Str}

theorem mem_fileNames {files : List α} {pn : Str} : pn ∈ fileNames c files ↔ Present c files pn := by
  rw [fileNames, mem_sorted, List.mem_toFinset, List.mem_map]
  rfl

/-- What the function comes to when each recipe has what is required of it. -/
theorem filterSorted_ok [DecidableEq α] {files : List α} (item : Str)
    (h : ∀ pn, Present c files pn → ¬ Unsatisfied c getVar files pn) :
    ∃ eligible, filterSorted c getVar files item =
        (if ∃ p ∈ files, c.pkgFn p = item then moveFirst (chosenFile c getVar files item) eligible
          else eligible) ∧
      (eligible.map c.pkgFn).Perm (fileNames c files) ∧
      ∀ pn ∈ fileNames c files, ∀ f, chosenFile c getVar files pn = some f → f ∈ eligible := by
  have hnodup : (fileNames c files).Nodup := nodup_sorted _
  have hlacks : ∀ pn ∈ fileNames c files, lacksRequired c getVar files pn = false := by
    intro pn hpn
    rw [← Bool.not_eq_true, lacksRequired_iff]
    exact h pn (mem_fileNames.1 hpn)
  obtain ⟨pass, hpass, helig, hpref, -⟩ :=
    firstPass_ok hnodup hlacks ⟨[], fun _ => (none, none)⟩
  obtain ⟨helig', hchosen, hout⟩ := foldl_secondPass hnodup pass hpref
  rw [helig, List.nil_append] at helig'
  refine ⟨(fileNames c files).filterMap (preferredFile c getVar files) ++
    ((fileNames c files).filter fun pn => (preferredFile c getVar files pn).isNone).filterMap
      (latestFile c files), ?_, ?_, ?_⟩
  · unfold filterSorted
    rw [hpass]
    show files.foldl (ownFirst c item _) _ = _
    rw [foldl_ownFirst, helig']
    by_cases hitem : ∃ p ∈ files, c.pkgFn p = item
    · rw [if_pos hitem, if_pos hitem, hchosen item (mem_fileNames.2 hitem)]
    · rw [if_neg hitem, if_neg hitem]
  · have hnames : (((fileNames c files).filter
        fun pn => (preferredFile c getVar files pn).isNone).filter
          fun pn => (latestFile c files pn).isSome) =
        (fileNames c files).filter fun pn => !(preferredFile c getVar files pn).isSome := by
      rw [List.filter_filter]
      refine List.filter_congr fun pn hpn => ?_
      cases hf : preferredFile c getVar files pn with
      | some f => simp
      | none =>
        obtain ⟨f, hlatest, -⟩ := latestFile_chosen (mem_fileNames.1 hpn) hf
        simp [hlatest]
    rw [List.map_append, map_filterMap_names fun pn _ f hf => (preferredFile_chosen hf).1,
      map_filterMap_names, hnames]
    · exact List.filter_append_perm _ _
    · intro pn hpn f hf
      obtain ⟨hpn, hnone⟩ := List.mem_filter.1 hpn
      obtain ⟨g, hg, hgpn, -⟩ := latestFile_chosen (mem_fileNames.1 hpn)
        (Option.isNone_iff_eq_none.1 hnone)
      exact Option.some.inj (hg.symm.trans hf) ▸ hgpn
  · intro pn hpn f hf
    rw [List.mem_append, List.mem_filterMap, List.mem_filterMap]
    unfold chosenFile at hf
    cases hpref' : preferredFile c getVar files pn with
    | some g =>
      rw [hpref', Option.some_or] at hf
      exact .inl ⟨pn, hpn, hpref'.trans hf⟩
    | none =>
      rw [hpref', Option.none_or] at hf
      exact .inr ⟨pn, List.mem_filter.2 ⟨hpn, by rw [hpref']; rfl⟩, hf⟩

omit [Decimals] in
theorem moveFirst_perm [DecidableEq α] (fn : Option α) (eligible : List α) :
    (moveFirst fn eligible).Perm eligible := by
  cases fn with
  | none => exact .refl _
  | some fn =>
    by_cases hmem : fn ∈ eligible
    · rw [moveFirst, if_pos hmem]
      exact (List.perm_cons_erase hmem).symm
    · rw [moveFirst, if_neg hmem]

theorem meets_of_satisfied [DecidableEq α] {files : List α} (item : Str)
    (h : ∀ pn, Present c files pn → ¬ Unsatisfied c getVar files pn) :
    Meets c getVar files item (filterSorted c getVar files item) := by
  obtain ⟨eligible, heq, hperm, hmem⟩ := filterSorted_ok item h
  have hres : (filterSorted c getVar files item).Perm eligible := by
    rw [heq]
    split
    · exact moveFirst_perm _ _
    · exact .refl _
  have hnames := (hres.map c.pkgFn).trans hperm
  refine ⟨hnames.nodup_iff.2 (nodup_sorted _), fun pn => ?_, fun f hf => ?_, fun hitem => ?_⟩
  · rw [hnames.mem_iff, mem_fileNames]
    exact ⟨fun hpn => ⟨hpn, h pn hpn⟩, And.left⟩
  · have hpn : c.pkgFn f ∈ fileNames c files := hnames.mem_iff.1 (List.mem_map_of_mem hf)
    obtain ⟨g, hg, hgpn, hchosen⟩ := chosenFile_chosen getVar (mem_fileNames.1 hpn)
    -- the list has one file for the recipe
    have hinj := List.inj_on_of_nodup_map (hnames.nodup_iff.2 (nodup_sorted _))
    have hgmem := hres.mem_iff.2 (hmem _ hpn g hg)
    exact hinj hf hgmem hgpn.symm ▸ hchosen
  · obtain ⟨f, hf, hfpn, -⟩ := chosenFile_chosen getVar hitem.1
    have hfmem := hmem item (mem_fileNames.2 hitem.1) f hf
    have hex : ∃ p ∈ files, c.pkgFn p = item := hitem.1
    rw [heq, if_pos hex, hf, moveFirst, if_pos hfmem, List.map_cons, List.head?_cons, hfpn]

/-- The first recipe without the version required ends the search. -/
theorem filterSorted_error [DecidableEq α] {files : List α} (item : Str)
    (h : ∃ pn, Present c files pn ∧ Unsatisfied c getVar files pn) :
    filterSorted c getVar files item =
      ((fileNames c files).takeWhile fun pn => !lacksRequired c getVar files pn).filterMap
        (preferredFile c getVar files) := by
  obtain ⟨pn, hpn, hlacks⟩ := h
  unfold filterSorted
  rw [firstPass_error ⟨pn, mem_fileNames.2 hpn, lacksRequired_iff.2 hlacks⟩]
  rfl

theorem meets_iff_of_unsatisfied [DecidableEq α] {files : List α} (item : Str)
    (h : ∃ pn, Present c files pn ∧ Unsatisfied c getVar files pn) :
    Meets c getVar files item (filterSorted c getVar files item) ↔
      ∀ pn, Represented c getVar files pn →
        (∃ f ∈ files, c.pkgFn f = pn ∧ matchesSetting c getVar pn f) ∧
        (∀ b, Present c files b → Unsatisfied c getVar files b → pn < b) ∧
        (Represented c getVar files item → item ≤ pn) := by
  have hsorted : (fileNames c files).Pairwise (· < ·) := pairwise_sorted _
  have heq : (filterSorted c getVar files item).map c.pkgFn =
      ((fileNames c files).takeWhile fun pn => !lacksRequired c getVar files pn).filter
        fun pn => (preferredFile c getVar files pn).isSome := by
    rw [filterSorted_error item h, map_filterMap_names fun pn _ f hf => (preferredFile_chosen hf).1]
  have hasc : ((filterSorted c getVar files item).map c.pkgFn).Pairwise (· < ·) := by
    rw [heq]
    exact (hsorted.sublist (List.takeWhile_sublist _)).sublist List.filter_sublist
  have hmem : ∀ pn, pn ∈ (filterSorted c getVar files item).map c.pkgFn ↔ Present c files pn ∧
      (∀ b, Present c files b → Unsatisfied c getVar files b → pn < b) ∧
      ∃ f ∈ files, c.pkgFn f = pn ∧ matchesSetting c getVar pn f := by
    intro pn
    rw [heq, List.mem_filter, mem_takeWhile_ascending hsorted, mem_fileNames, and_assoc]
    refine and_congr_right fun _ => and_congr ?_ ?_
    · simp only [mem_fileNames, Bool.not_eq_false', lacksRequired_iff]
    · rw [← not_iff_not, Bool.not_eq_true, Option.isSome_eq_false_iff, Option.isNone_iff_eq_none,
        preferredFile_none]
      simp only [not_exists, not_and]
  have hrep : ∀ pn, Present c files pn →
      (∀ b, Present c files b → Unsatisfied c getVar files b → pn < b) →
      Represented c getVar files pn := fun pn hpn hlt => ⟨hpn, fun hun => lt_irrefl pn (hlt pn hpn hun)⟩
  constructor
  · intro hmeets pn hpn
    obtain ⟨-, hlt, hfile⟩ := (hmem pn).1 ((hmeets.recipes pn).2 hpn)
    refine ⟨hfile, hlt, fun hitem => ?_⟩
    exact ((head_ascending hasc).1 (hmeets.own hitem)).2 pn ((hmeets.recipes pn).2 hpn)
  · intro hcond
    have hrecipes : ∀ pn, pn ∈ (filterSorted c getVar files item).map c.pkgFn ↔
        Represented c getVar files pn := by
      intro pn
      rw [hmem]
      exact ⟨fun hpn => hrep pn hpn.1 hpn.2.1,
        fun hpn => ⟨hpn.1, (hcond pn hpn).2.1, (hcond pn hpn).1⟩⟩
    refine ⟨hasc.imp ne_of_lt, hrecipes, fun f hf => ?_, fun hitem => ?_⟩
    · rw [filterSorted_error item h, List.mem_filterMap] at hf
      obtain ⟨pn, -, hf⟩ := hf
      exact (preferredFile_chosen hf).2
    · refine (head_ascending hasc).2 ⟨(hrecipes item).2 hitem, fun pn hpn => ?_⟩
      exact (hcond pn ((hrecipes pn).1 hpn)).2.2 hitem

theorem filterSorted_meets_iff [DecidableEq α] (files : List α) (item : Str) :
    Meets c getVar files item (filterSorted c getVar files item) ↔
      Undisturbed c getVar files item := by
  by_cases h : ∀ pn, Present c files pn → ¬ Unsatisfied c getVar files pn
  · exact iff_of_true (meets_of_satisfied item h) (.inl h)
  · have hex : ∃ pn, Present c files pn ∧ Unsatisfied c getVar files pn := by
      push Not at h
      exact h
    rw [meets_iff_of_unsatisfied item hex, Undisturbed, or_iff_right h]

/-! ### The order of the files given -/

section order
variable {files files' : List α} (h : ∀ f, f ∈ files ↔ f ∈ files')
include h

theorem present_congr (pn : Str) : Present c files pn ↔ Present c files' pn :=
  exists_congr fun f => and_congr_left fun _ => h f

theorem unsatisfied_congr (pn : Str) :
    Unsatisfied c getVar files pn ↔ Unsatisfied c getVar files' pn :=
  and_congr_right fun _ => forall_congr' fun f => imp_congr_left (h f)

theorem represented_congr (pn : Str) :
    Represented c getVar files pn ↔ Represented c getVar files' pn :=
  and_congr (present_congr h pn) (not_congr (unsatisfied_congr h pn))

theorem Chosen.congr {f : α} (hf : Chosen c getVar files f) : Chosen c getVar files' f where
  mem := (h f).1 hf.mem
  matching := fun g hg => hf.matching g ((h g).2 hg)
  latest := fun hnone g hg => hf.latest (fun g hg => hnone g ((h g).1 hg)) g ((h g).2 hg)

theorem Meets.congr {item : Str} {result : List α} (hm : Meets c getVar files item result) :
    Meets c getVar files' item result where
  once := hm.once
  recipes := fun pn => (hm.recipes pn).trans (represented_congr h pn)
  chosen := fun f hf => (hm.chosen f hf).congr h
  own := fun hitem => hm.own ((represented_congr h item).2 hitem)

theorem undisturbed_congr (item : Str) :
    Undisturbed c getVar files item ↔ Undisturbed c getVar files' item := by
  unfold Undisturbed
  simp only [present_congr h, unsatisfied_congr h, represented_congr h, h]

end order

/-- The list is as it should be, whatever the order of the files, exactly when no recipe that lacks
its required version disturbs the others. -/
theorem filterProviders_meets_iff [LinearOrder α] (c : Cache α) (getVar : Str → Option Str)
    (providers : List α) (item : Str) :
    (Meets c getVar providers item (filterProviders c getVar providers item) ∧
      ∀ providers', providers'.Perm providers →
        filterProviders c getVar providers' item = filterProviders c getVar providers item) ↔
      Undisturbed c getVar providers item := by
  have hmem : ∀ f, f ∈ sortedBy id providers ↔ f ∈ providers := fun f => mem_sortedBy
  have hmem' : ∀ f, f ∈ providers ↔ f ∈ sortedBy id providers := fun f => (hmem f).symm
  have hsorted : ∀ providers', providers'.Perm providers →
      sortedBy id providers' = sortedBy id providers := by
    intro providers' hperm
    exact List.Perm.eq_of_pairwise (fun _ _ _ _ hab hba => le_antisymm hab hba)
      (List.pairwise_insertionSort _ _) (List.pairwise_insertionSort _ _)
      ((List.perm_insertionSort _ _).trans (hperm.trans (List.perm_insertionSort _ _).symm))
  have hiff : Meets c getVar (sortedBy id providers) item
      (filterSorted c getVar (sortedBy id providers) item) ↔ _ := filterSorted_meets_iff _ item
  constructor
  · rintro ⟨hmeets, -⟩
    exact (undisturbed_congr hmem item).1 (hiff.1 (hmeets.congr hmem'))
  · intro hun
    refine ⟨(hiff.2 ((undisturbed_congr hmem' item).1 hun)).congr hmem, fun providers' hperm => ?_⟩
    rw [filterProviders, filterProviders, hsorted providers' hperm]

end result

end Providers

/-! ### A recipe that disturbs another -/

namespace Providers
open Py

/-- The digits of ASCII alone. -/
@[reducible] def asciiDecimals : Decimals where
  value := fun c => if c.isDigit then some (c.toNat - 48) else none
  value_ascii := fun _ hc => if_pos hc

attribute [local instance] asciiDecimals

/-- Version 1. -/
def versionOne : Version := ⟨[], ['1'], [], fun _ h => absurd h List.not_mem_nil, by decide, List.not_mem_nil⟩

/-- One file of the recipe `a`, one of the recipe `b`. -/
def twoRecipes : Cache (Fin 2) where
  pkgFn := fun f => if f.val = 0 then ['a'] else ['b']
  bbfilePriority := fun _ => 5
  pkgDp := fun _ => 0
  pkgPepvpr := fun _ => versionOne

/-- `REQUIRED_VERSION:pn-a = "2"`. -/
def requireTwo (name : Str) : Option Str :=
  if name = "REQUIRED_VERSION:pn-a".toList then some ['2'] else none

/-- Since `a` lacks its required version, `b` is not provided either. -/
theorem filterProviders_not_meets :
    ¬ Meets twoRecipes requireTwo [0, 1] ['i']
      (filterProviders twoRecipes requireTwo [0, 1] ['i']) := by
  intro h
  have hnil : filterProviders twoRecipes requireTwo [0, 1] ['i'] = [] := by rfl
  have hrep : Represented twoRecipes requireTwo [0, 1] ['b'] := by
    refine ⟨⟨1, by decide, rfl⟩, fun hun => ?_⟩
    exact absurd hun.1 (by decide)
  have hmem := (h.recipes ['b']).2 hrep
  rw [hnil] at hmem
  exact absurd hmem List.not_mem_nil

end Providers
end BitBake
end OpenBmc
