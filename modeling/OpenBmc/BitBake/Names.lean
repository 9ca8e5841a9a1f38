import OpenBmc.Py.Str

/-!
# Names of recipes and tasks

A recipe file is named `mc:<mc>:virtual:<classes>:<path>`, without the parts that are empty, and a
task by the name of its file with `:<taskname>` behind. The functions of `runqueue.py` and `cache.py`
cut these names from the left or from the right; on the names that are built from parts without a
colon all of them agree.
-/

namespace OpenBmc
namespace BitBake
namespace Names
open Py

/-! ### The functions -/

/-- `s.startswith('mc:') and s.count(':') >= 2`. -/
def HasMc (s : Str) : Prop := "mc:".toList <+: s ∧ 2 ≤ s.count ':'

instance (s : Str) : Decidable (HasMc s) := inferInstanceAs (Decidable (_ ∧ _))

/-- `':'.join`. -/
def join (elems : List Str) : Str := [':'].intercalate elems

/-- The second and the third part of `s.split(':', 2)`, where there are three. -/
def splitTwice (s : Str) : Str × Str :=
  let rest := (partition ':' s).2.getD []
  ((partition ':' rest).1, (partition ':' rest).2.getD [])

/-- `s.rsplit(':', 1)`: one part or two. -/
def rsplit (s : Str) : List Str := (rpartition ':' s).1.toList ++ [(rpartition ':' s).2]

def fnFromTid (tid : Str) : Str := (rsplit tid).getD 0 []

/-- `none` is the `IndexError` of a name without a colon. -/
def tasknameFromTid (tid : Str) : Option Str := (rsplit tid)[1]?

def mcFromTid (tid : Str) : Str := if HasMc tid then (tid.splitOn ':').getD 1 [] else []

def splitMc (n : Str) : Str × Str := if HasMc n then splitTwice n else ([], n)

/-- The multiconfig, the file in it, the name of the task, and the file with its multiconfig. -/
def splitTidMcfn (tid : Str) : Option (Str × Str × Str × Str) :=
  if HasMc tid then
    let elems := tid.splitOn ':'
    let mc := elems.getD 1 []
    let fn := join (elems.dropLast.drop 2)
    some (mc, fn, elems.getLastD [], "mc:".toList ++ mc ++ ':' :: fn)
  else do
    let tid := rsplit tid
    let fn := tid.getD 0 []
    let taskname ← tid[1]?
    return ([], fn, taskname, fn)

/-- The name of a task, which `split_tid_mcfn` takes apart. -/
abbrev Tid := {tid : Str // (splitTidMcfn tid).isSome}

def split (tid : Tid) : Str × Str × Str × Str := (splitTidMcfn tid.1).get tid.2

def buildTid (mc fn taskname : Str) : Str :=
  if mc ≠ [] then "mc:".toList ++ mc ++ ':' :: fn ++ ':' :: taskname else fn ++ ':' :: taskname

/-- The real file, its classes and its multiconfig. -/
def virtualfn2realfn (virtualfn : Str) : Str × Str × Str :=
  let (mc, virtualfn) := if HasMc virtualfn then splitTwice virtualfn else ([], virtualfn)
  if "virtual:".toList <+: virtualfn then
    let elems := virtualfn.splitOn ':'
    (elems.getLastD [], join (elems.dropLast.drop 1), mc)
  else (virtualfn, [], mc)

def realfn2virtual (realfn cls mc : Str) : Str :=
  let realfn := if cls ≠ [] then "virtual:".toList ++ cls ++ ':' :: realfn else realfn
  if mc ≠ [] then "mc:".toList ++ mc ++ ':' :: realfn else realfn

def variant2virtual (realfn variant : Str) : Str :=
  if variant = [] then realfn
  else if HasMc variant then
    let elems := variant.splitOn ':'
    if elems.getD 2 [] ≠ [] then
      "mc:".toList ++ elems.getD 1 [] ++ ":virtual:".toList ++ join (elems.drop 2) ++ ':' :: realfn
    else "mc:".toList ++ elems.getD 1 [] ++ ':' :: realfn
  else "virtual:".toList ++ variant ++ ':' :: realfn

/-! ### The parts of a name -/

/-- A text without a colon. -/
abbrev Field := {s : Str // ':' ∉ s}

/-- What names a recipe file: its multiconfig, which may be empty, the classes that extend it, and
its path. -/
@[ext] structure Recipe where
  mc : Field
  classes : List {s : Str // s ≠ [] ∧ ':' ∉ s}
  path : Field

namespace Recipe

def cls (r : Recipe) : Str := join (r.classes.map Subtype.val)

/-- The file within its multiconfig. -/
def vfn (r : Recipe) : Str := realfn2virtual r.path r.cls []

/-- The same with the multiconfig in front. -/
def mcfn (r : Recipe) : Str := realfn2virtual r.vfn [] r.mc

def tid (r : Recipe) (taskname : Field) : Str := buildTid r.mc r.vfn taskname

end Recipe

/-! ### Names with a multiconfig -/

def mcName (mc n : Str) : Str := "mc:".toList ++ mc ++ ':' :: n

theorem hasMc_mcName (mc n : Str) : HasMc (mcName mc n) := by
  refine ⟨⟨mc ++ ':' :: n, by simp [mcName]⟩, ?_⟩
  have hcount : (mcName mc n).count ':' = mc.count ':' + (n.count ':' + 1) + 1 := by simp [mcName]
  omega

theorem mcName_append (mc n s : Str) : mcName mc n ++ s = mcName mc (n ++ s) := by simp [mcName]

theorem hasMc_iff {s : Str} : HasMc s ↔ ∃ mc n, ':' ∉ mc ∧ s = mcName mc n := by
  constructor
  · rintro ⟨⟨r, rfl⟩, hcount⟩
    have hmem : ':' ∈ r := by
      refine List.count_pos_iff.1 ?_
      have hsum : ("mc:".toList ++ r).count ':' = 1 + r.count ':' := List.count_append ..
      omega
    obtain ⟨mc, n, rfl, hmc⟩ := List.eq_append_cons_of_mem hmem
    exact ⟨mc, n, hmc, by simp [mcName]⟩
  · rintro ⟨mc, n, -, rfl⟩
    exact hasMc_mcName mc n

theorem not_hasMc_of_head {c : Char} {s : Str} (hc : c ≠ 'm') : ¬ HasMc (c :: s) := by
  rintro ⟨h, -⟩
  exact hc (List.cons_prefix_cons.1 h).1.symm

theorem not_hasMc_of_count {s : Str} (h : s.count ':' < 2) : ¬ HasMc s := fun hs => absurd hs.2 (by omega)

theorem count_field (f : Field) : (f : Str).count ':' = 0 := List.count_eq_zero.2 f.2

theorem partition_colon {a : Str} (h : ':' ∉ a) (b : Str) :
    partition ':' (a ++ ':' :: b) = (a, some b) := by
  rw [partition_append_left h]
  simp [partition]

theorem splitTwice_mcName {mc : Str} (h : ':' ∉ mc) (n : Str) : splitTwice (mcName mc n) = (mc, n) := by
  have hfirst : partition ':' (mcName mc n) = ("mc".toList, some (mc ++ ':' :: n)) := by
    have happ : mcName mc n = "mc".toList ++ ':' :: (mc ++ ':' :: n) := by simp [mcName]
    rw [happ, partition_colon (by decide)]
  simp only [splitTwice, hfirst, Option.getD_some, partition_colon h]

theorem splitMc_mcName {mc : Str} (h : ':' ∉ mc) (n : Str) : splitMc (mcName mc n) = (mc, n) := by
  rw [splitMc, if_pos (hasMc_mcName mc n), splitTwice_mcName h]

theorem splitOn_append_colon {a : Str} (h : ':' ∉ a) (b : Str) :
    (a ++ ':' :: b).splitOn ':' = a :: b.splitOn ':' := by
  rw [List.splitOn_append_cons_self, List.splitOn_eq_singleton h]
  rfl

theorem splitOn_mcName {mc : Str} (h : ':' ∉ mc) (n : Str) :
    (mcName mc n).splitOn ':' = "mc".toList :: mc :: n.splitOn ':' := by
  have happ : mcName mc n = "mc".toList ++ ':' :: (mc ++ ':' :: n) := by simp [mcName]
  rw [happ, splitOn_append_colon (by decide), splitOn_append_colon h]

theorem splitOn_colon_append (a : Str) {b : Str} (h : ':' ∉ b) :
    (a ++ ':' :: b).splitOn ':' = a.splitOn ':' ++ [b] := by
  rw [List.splitOn_append_cons_self, List.splitOn_eq_singleton h]

theorem join_splitOn (s : Str) : join (s.splitOn ':') = s := List.intercalate_splitOn ':'

theorem rsplit_colon_append (a : Str) {b : Str} (h : ':' ∉ b) : rsplit (a ++ ':' :: b) = [a, b] := by
  rw [rsplit, rpartition_append h]
  rfl

/-! ### Names within a multiconfig -/

/-- The name of a file without its multiconfig. -/
def virtualName (cls path : Str) : Str :=
  if cls ≠ [] then "virtual:".toList ++ cls ++ ':' :: path else path

theorem vfn_eq (r : Recipe) : r.vfn = virtualName r.cls r.path := rfl

theorem mcfn_eq (r : Recipe) : r.mcfn = if r.mc.1 ≠ [] then mcName r.mc r.vfn else r.vfn := rfl

theorem realfn2virtual_eq (r : Recipe) : realfn2virtual r.path r.cls r.mc = r.mcfn := rfl

theorem not_hasMc_virtualName (cls : Str) (path : Field) : ¬ HasMc (virtualName cls path) := by
  rw [virtualName]
  split
  · exact not_hasMc_of_head (by decide)
  · exact not_hasMc_of_count (by rw [count_field]; omega)

theorem not_hasMc_vfn (r : Recipe) : ¬ HasMc r.vfn := not_hasMc_virtualName r.cls r.path

theorem not_hasMc_task (r : Recipe) (task : Field) : ¬ HasMc (r.vfn ++ ':' :: task.1) := by
  rw [vfn_eq, virtualName]
  split
  · exact not_hasMc_of_head (by decide)
  · refine not_hasMc_of_count ?_
    rw [List.count_append, List.count_cons_self, count_field, count_field]
    omega

/-- The second half of `virtualfn2realfn`. -/
theorem virtual_parts (cls : Str) (path : Field) (mc : Str) :
    (if "virtual:".toList <+: virtualName cls path then
      (((virtualName cls path).splitOn ':').getLastD [],
        join (((virtualName cls path).splitOn ':').dropLast.drop 1), mc)
    else (virtualName cls path, [], mc)) = (path.1, cls, mc) := by
  by_cases hcls : cls = []
  · subst hcls
    have hprefix : ¬ "virtual:".toList <+: path.1 := fun h => path.2 (h.subset (by decide))
    exact if_neg hprefix
  · have hname : virtualName cls path = "virtual".toList ++ ':' :: cls ++ ':' :: path := by
      simp [virtualName, hcls]
    have hsplit : (virtualName cls path).splitOn ':' =
        "virtual".toList :: cls.splitOn ':' ++ [path.1] := by
      rw [hname, splitOn_colon_append _ path.2, splitOn_append_colon (by decide)]
    have hprefix : "virtual:".toList <+: virtualName cls path := by
      rw [hname]
      exact ⟨cls ++ ':' :: path, by simp⟩
    rw [if_pos hprefix, hsplit, List.dropLast_concat, List.getLastD_concat, List.drop_one,
      List.tail_cons, join_splitOn]

theorem virtualfn2realfn_mcName {mc : Str} (h : ':' ∉ mc) (cls : Str) (path : Field) :
    virtualfn2realfn (mcName mc (virtualName cls path)) = (path.1, cls, mc) := by
  rw [virtualfn2realfn, if_pos (hasMc_mcName ..), splitTwice_mcName h]
  exact virtual_parts cls path mc

theorem virtualfn2realfn_virtualName (cls : Str) (path : Field) :
    virtualfn2realfn (virtualName cls path) = (path.1, cls, []) := by
  rw [virtualfn2realfn, if_neg (not_hasMc_virtualName cls path)]
  exact virtual_parts cls path []

/-- The file name gives back its parts. -/
theorem virtualfn2realfn_realfn2virtual (r : Recipe) :
    virtualfn2realfn (realfn2virtual r.path r.cls r.mc) = (r.path.1, r.cls, r.mc.1) := by
  rw [realfn2virtual_eq, mcfn_eq, vfn_eq]
  split
  case isTrue hmc => exact virtualfn2realfn_mcName r.mc.2 r.cls r.path
  case isFalse hmc =>
    rw [virtualfn2realfn_virtualName, not_not.1 hmc]

/-! ### Variants -/

/-- A variant `mc:<mc>::…` : an empty class and further ones behind a multiconfig. -/
def EmptyClass (variant : Str) : Prop := HasMc variant ∧ [':'] <+: (splitMc variant).2

theorem head_splitOn_eq_nil {n : Str} : (n.splitOn ':').getD 0 [] = [] ↔ n = [] ∨ [':'] <+: n := by
  cases n with
  | nil => simp
  | cons c n =>
    rw [List.splitOn_cons_eq_if_modifyHead]
    by_cases hc : c = ':'
    · subst hc
      simp
    · obtain ⟨f, fs, hfs⟩ := List.exists_cons_of_ne_nil (List.splitOn_ne_nil ':' n)
      have hc' : ¬ ':' = c := fun h => hc h.symm
      simp [hfs, hc, hc']

theorem variant2virtual_mcName {mc : Str} (h : ':' ∉ mc) (path n : Str) :
    variant2virtual path (mcName mc n) =
      mcName mc (if n = [] ∨ [':'] <+: n then path else virtualName n path) := by
  have hne : mcName mc n ≠ [] := List.cons_ne_nil _ _
  rw [variant2virtual, if_neg hne, if_pos (hasMc_mcName mc n), splitOn_mcName h]
  simp only [List.getD_cons_succ, List.getD_cons_zero, List.drop_succ_cons, List.drop_zero,
    join_splitOn, ne_eq, head_splitOn_eq_nil]
  by_cases hn : n = [] ∨ [':'] <+: n
  · rw [if_neg (not_not.2 hn), if_pos hn]
    rfl
  · have hn' : n ≠ [] := fun h => hn (.inl h)
    rw [if_pos hn, if_neg hn, virtualName, if_pos hn']
    simp [mcName]

/-- The name of a variant gives back its parts, unless it has an empty class behind a multiconfig. -/
theorem virtualfn2realfn_variant2virtual (path : Field) (variant : Str) :
    virtualfn2realfn (variant2virtual path variant) =
        (path.1, (splitMc variant).2, (splitMc variant).1) ↔ ¬ EmptyClass variant := by
  by_cases hmc : HasMc variant
  · obtain ⟨mc, n, h, rfl⟩ := hasMc_iff.1 hmc
    rw [EmptyClass, and_iff_right hmc, variant2virtual_mcName h, splitMc_mcName h]
    have hplain : virtualfn2realfn (mcName mc path) = (path.1, [], mc) :=
      virtualfn2realfn_mcName h [] path
    rcases eq_or_ne n [] with rfl | hn
    · simpa using hplain
    · by_cases hcolon : [':'] <+: n
      · rw [if_pos (.inr hcolon), hplain]
        simpa [hcolon] using hn.symm
      · have hor : ¬ (n = [] ∨ [':'] <+: n) := fun h => h.elim hn hcolon
        rw [if_neg hor, virtualfn2realfn_mcName h]
        simp [hcolon]
  · have hsplit : splitMc variant = ([], variant) := if_neg hmc
    have hname : variant2virtual path variant = virtualName variant path := by
      rw [variant2virtual, if_neg hmc]
      by_cases hv : variant = [] <;> simp [virtualName, hv]
    rw [hname, hsplit, virtualfn2realfn_virtualName]
    exact iff_of_true rfl fun h => hmc h.1

/-! ### The round trips -/

theorem join_injective {l l' : List {s : Str // s ≠ [] ∧ ':' ∉ s}}
    (h : join (l.map Subtype.val) = join (l'.map Subtype.val)) : l = l' := by
  have hsplit : ∀ l : List {s : Str // s ≠ [] ∧ ':' ∉ s},
      ((join (l.map Subtype.val)).splitOn ':').filter (· ≠ []) = l.map Subtype.val := by
    intro l
    cases l with
    | nil => rfl
    | cons c l =>
      have hplain : ∀ f ∈ (c :: l).map Subtype.val, ':' ∉ f := by
        intro f hf
        obtain ⟨c, -, rfl⟩ := List.mem_map.1 hf
        exact c.2.2
      rw [join, List.splitOn_intercalate _ hplain (by simp), List.filter_eq_self]
      intro f hf
      obtain ⟨c, -, rfl⟩ := List.mem_map.1 hf
      exact decide_eq_true c.2.1
  refine List.map_injective_iff.2 Subtype.val_injective ?_
  rw [← hsplit l, ← hsplit l', h]

theorem Recipe.eq_of_parts {r r' : Recipe} (hmc : r.mc = r'.mc) (hvfn : r.vfn = r'.vfn) : r = r' := by
  have hparts := congrArg virtualfn2realfn hvfn
  rw [vfn_eq, vfn_eq, virtualfn2realfn_virtualName, virtualfn2realfn_virtualName] at hparts
  simp only [Prod.mk.injEq, and_true] at hparts
  exact Recipe.ext hmc (join_injective hparts.2) (Subtype.ext hparts.1)

theorem tid_eq (r : Recipe) (taskname : Field) : r.tid taskname = r.mcfn ++ ':' :: taskname := by
  rw [Recipe.tid, buildTid, mcfn_eq]
  split <;> simp [mcName]

theorem splitTidMcfn_tid (r : Recipe) (taskname : Field) :
    splitTidMcfn (r.tid taskname) = some (r.mc.1, r.vfn, taskname.1, r.mcfn) := by
  rw [tid_eq, mcfn_eq]
  by_cases hmc : r.mc.1 = []
  · rw [if_neg (not_not.2 hmc), splitTidMcfn, if_neg (not_hasMc_task r taskname),
      rsplit_colon_append _ taskname.2, hmc]
    rfl
  · rw [if_pos hmc, mcName_append, splitTidMcfn, if_pos (hasMc_mcName ..), splitOn_mcName r.mc.2,
      splitOn_colon_append _ taskname.2, ← List.cons_append, ← List.cons_append]
    simp only [List.dropLast_concat, List.getLastD_concat]
    simp [join_splitOn, mcName]

theorem mcFromTid_tid (r : Recipe) (taskname : Field) : mcFromTid (r.tid taskname) = r.mc := by
  rw [tid_eq, mcfn_eq]
  by_cases hmc : r.mc.1 = []
  · rw [if_neg (not_not.2 hmc), mcFromTid, if_neg (not_hasMc_task r taskname), hmc]
  · rw [if_pos hmc, mcName_append, mcFromTid, if_pos (hasMc_mcName ..), splitOn_mcName r.mc.2]
    rfl

theorem splitMc_mcfn (r : Recipe) : splitMc r.mcfn = (r.mc.1, r.vfn) := by
  rw [mcfn_eq]
  split
  case isTrue hmc => exact splitMc_mcName r.mc.2 r.vfn
  case isFalse hmc => rw [splitMc, if_neg (not_hasMc_vfn r), not_not.1 hmc]

theorem tid_injective {r r' : Recipe} {taskname taskname' : Field}
    (h : r.tid taskname = r'.tid taskname') : r = r' ∧ taskname = taskname' := by
  have hparts := congrArg splitTidMcfn h
  rw [splitTidMcfn_tid, splitTidMcfn_tid] at hparts
  simp only [Option.some.injEq, Prod.mk.injEq] at hparts
  obtain ⟨hmc, hvfn, htask, -⟩ := hparts
  exact ⟨Recipe.eq_of_parts (Subtype.ext hmc) hvfn, Subtype.ext htask⟩

theorem mcfn_injective {r r' : Recipe} (h : r.mcfn = r'.mcfn) : r = r' := by
  have hparts := congrArg splitMc h
  rw [splitMc_mcfn, splitMc_mcfn] at hparts
  exact Recipe.eq_of_parts (Subtype.ext (Prod.mk.inj hparts).1) (Prod.mk.inj hparts).2

/-- All the functions that take a name apart agree with those that build it. -/
theorem names_round_trip :
    (∀ (r : Recipe) (taskname : Field),
      splitTidMcfn (buildTid r.mc r.vfn taskname) = some (r.mc.1, r.vfn, taskname.1, r.mcfn) ∧
      fnFromTid (buildTid r.mc r.vfn taskname) = r.mcfn ∧
      tasknameFromTid (buildTid r.mc r.vfn taskname) = some taskname.1 ∧
      mcFromTid (buildTid r.mc r.vfn taskname) = r.mc ∧
      splitMc r.mcfn = (r.mc.1, r.vfn)) ∧
    (∀ r : Recipe, virtualfn2realfn (realfn2virtual r.path r.cls r.mc) = (r.path.1, r.cls, r.mc.1)) ∧
    (∀ (path : Field) (variant : Str),
      virtualfn2realfn (variant2virtual path variant) =
          (path.1, (splitMc variant).2, (splitMc variant).1) ↔ ¬ EmptyClass variant) ∧
    (∀ (r r' : Recipe) (taskname taskname' : Field),
      buildTid r.mc r.vfn taskname = buildTid r'.mc r'.vfn taskname' → r = r' ∧ taskname = taskname') ∧
    (∀ r r' : Recipe,
      realfn2virtual r.path r.cls r.mc = realfn2virtual r'.path r'.cls r'.mc → r = r') ∧
    (∀ (path path' : Field) (variant variant' : Str), ¬ EmptyClass variant → ¬ EmptyClass variant' →
      variant2virtual path variant = variant2virtual path' variant' →
      path = path' ∧ splitMc variant = splitMc variant') := by
  refine ⟨fun r taskname => ?_, virtualfn2realfn_realfn2virtual, virtualfn2realfn_variant2virtual,
    fun r r' taskname taskname' => tid_injective, fun r r' => mcfn_injective, ?_⟩
  · have htid : buildTid r.mc r.vfn taskname = r.mcfn ++ ':' :: taskname.1 := tid_eq r taskname
    refine ⟨splitTidMcfn_tid r taskname, ?_, ?_, mcFromTid_tid r taskname, splitMc_mcfn r⟩
    · rw [htid, fnFromTid, rsplit_colon_append _ taskname.2]
      rfl
    · rw [htid, tasknameFromTid, rsplit_colon_append _ taskname.2]
      rfl
  · intro path path' variant variant' hv hv' h
    have hparts := congrArg virtualfn2realfn h
    rw [(virtualfn2realfn_variant2virtual path variant).2 hv,
      (virtualfn2realfn_variant2virtual path' variant').2 hv'] at hparts
    simp only [Prod.mk.injEq] at hparts
    obtain ⟨hpath, hcls, hmc⟩ := hparts
    exact ⟨Subtype.ext hpath, Prod.ext hmc hcls⟩

/-- An empty class behind a multiconfig takes the classes after it along. -/
theorem variant_classes_lost :
    splitMc "mc:x::native".toList = ("x".toList, ":native".toList) ∧
    virtualfn2realfn (variant2virtual "a.bb".toList "mc:x::native".toList) ≠
      ("a.bb".toList, ":native".toList, "x".toList) := by
  decide

end Names
end BitBake
end OpenBmc
