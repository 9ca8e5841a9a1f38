import OpenBmc.Py.Str
import OpenBmc.Lib.Delete

/-!
# Names of systemd units

`SystemdUnit` takes a unit's name apart. Without `dbus-` in the name, an instance `p@i.c` is filed
under the template `p@.c` exactly when every part of `i` after its first dot is `c` itself; and
`is_service` and `is_target` compare the type with the name of the attribute, so no service is asked
for its restart policy.
-/

namespace OpenBmc
namespace Systemd
open Py

/-- `listvar_to_list(d, list_var)`, for the variable's value. -/
def listvarToList (value : Option Str) : List Str :=
  ((value.getD []).splitOn ' ').filter (· ≠ [])

/-- `s.split(sep)[0]`. -/
def firstPart (sep : Char) (s : Str) : Str := (partition sep s).1

/-- `s.split(sep)[-1]`. -/
def lastPart (sep : Char) (s : Str) : Str := (rpartition sep s).2

/-- `s.replace('dbus-', '')`. -/
def plain (s : Str) : Str := delete "dbus-".toList s

structure SystemdUnit where
  unit : Str
  deriving DecidableEq

namespace SystemdUnit
variable (u : SystemdUnit)

def name : Str := u.unit

def isActivated : Bool := "dbus-".toList.isPrefixOf u.unit

def isTemplate : Bool := contains "@.".toList u.unit

def isInstance : Bool := contains "@".toList u.unit && !u.isTemplate

/-- `self.unit.split('.')[-1]`. -/
def cls : Str := lastPart '.' u.unit

/-- The branch of `__getattr__` for `is_service` and `is_target`. -/
def isKind (item : Str) : Bool := u.cls = item

def isService : Bool := u.isKind "is_service".toList

def isTarget : Bool := u.isKind "is_target".toList

def inst : Option Str :=
  if u.isInstance then some (firstPart '.' (lastPart '@' u.unit)) else none

def base : Str :=
  let base := plain u.unit
  let base := delete ('.' :: u.cls) base
  let base := match u.inst with
    | some inst => delete ('@' :: inst) base
    | none => base
  if u.isTemplate then base.rdropWhile (· = '@') else base

def template : Option Str :=
  if u.isInstance then some (u.base ++ "@.".toList ++ u.cls)
  else if u.isTemplate then some (['.'].intercalate (u.base.splitOn '@').dropLast)
  else none

end SystemdUnit

/-- A unit file as `configparser` read it: the options of its sections and of `DEFAULT`. -/
structure UnitFile where
  sections : List (Str × List Str)
  defaults : List Str

/-- `parser.has_option(sectionName, option)`, for a section other than `DEFAULT`. -/
def UnitFile.hasOption (parser : UnitFile) (sectionName option : Str) : Bool :=
  match parser.sections.lookup sectionName with
  | none => false
  | some options => option ∈ options ∨ option ∈ parser.defaults

/-- What `check_sd_unit` reads: the unit files along `FILESPATH`, and
`INHIBIT_SYSTEMD_RESTART_POLICY_WARNING`. -/
structure UnitTree where
  unitFile : Str → Option UnitFile
  inhibit : Option Str

/-- Whether the unit is in the tree, and the names it is warned of for a missing restart policy. -/
def checkSdUnit (d : UnitTree) (unit : SystemdUnit) : Bool × List Str :=
  match d.unitFile unit.name with
  | none => (false, [])
  | some parser =>
    if unit.isService ∧ ¬ unit.isTemplate ∧ unit.name ∉ listvarToList d.inhibit ∧
        ¬ parser.hasOption "Service".toList "Restart".toList then (true, [unit.name])
    else (true, [])

/-- `tmpl + svc` of the loop over a package's services, where `tmpl` goes through a `set`, so that
its order is arbitrary. -/
def loopUnits (services : List Str) : List SystemdUnit :=
  let svc := services.map SystemdUnit.mk
  let tmpl := ((svc.filter (·.isInstance)).filterMap (·.template)).dedup.map SystemdUnit.mk
  tmpl ++ svc.filter (!·.isInstance)

/-! ### Names of instances -/

/-- A name `stem@inst.kind`. -/
structure InstanceName where
  stem : Str
  inst : Str
  kind : Str
  stem_plain : '@' ∉ stem ∧ '/' ∉ stem ∧ '.' ∉ stem
  inst_plain : '@' ∉ inst ∧ '/' ∉ inst
  inst_ne : inst ≠ []
  kind_plain : '@' ∉ kind ∧ '/' ∉ kind ∧ '.' ∉ kind

namespace InstanceName
variable (n : InstanceName)

def name : Str := n.stem ++ '@' :: (n.inst ++ '.' :: n.kind)

def templateName : Str := n.stem ++ "@.".toList ++ n.kind

/-- The instance up to its first dot. -/
def first : Str := firstPart '.' n.inst

/-- The later parts of the name, of which the type is the last. -/
def later : List Str := (n.inst.splitOn '.').tail ++ [n.kind]

end InstanceName

/-- All that is said of a unit's type: the two predicates, and who is asked for a restart policy. -/
structure KindRight (kind : Str) : Prop where
  isService : ∀ u : SystemdUnit, u.cls = kind → (u.isService ↔ kind = "service".toList)
  isTarget : ∀ u : SystemdUnit, u.cls = kind → (u.isTarget ↔ kind = "target".toList)
  restart : ∀ (d : UnitTree) (u : SystemdUnit), u.cls = kind → ((checkSdUnit d u).2 = [u.name] ↔
    kind = "service".toList ∧ ¬ u.isTemplate ∧ u.name ∉ listvarToList d.inhibit ∧
      ∃ f, d.unitFile u.name = some f ∧ ¬ f.hasOption "Service".toList "Restart".toList)

/-- The name is taken for what it is, and filed under its own template. -/
structure Classified (n : InstanceName) : Prop where
  isInstance : (SystemdUnit.mk n.name).isInstance
  template : (SystemdUnit.mk n.name).template = some n.templateName
  shipped : ∀ services, n.name ∈ services → ⟨n.templateName⟩ ∈ loopUnits services
  isTemplate : (SystemdUnit.mk n.templateName).isTemplate
  kind : KindRight n.kind

/-- Deleting `dbus-` and the type leaves a rest behind the first part that makes up for what the
stem has lost. -/
def InstanceName.Reassembles (n : InstanceName) : Prop :=
  (∀ t ∈ n.later, n.kind <+: plain t) ∧ ∃ rest,
    n.first ++ rest = plain n.first ++ n.later.flatMap (fun t => (plain t).drop n.kind.length) ∧
    plain n.stem ++ rest = n.stem

/-- The condition for a name to be classified. -/
def InstanceName.Regular (n : InstanceName) : Prop :=
  n.inst.head? ≠ some '.' ∧
  (if "dbus-".toList <:+: n.name then n.Reassembles else ∀ t ∈ n.later, t = n.kind) ∧
  n.kind ∉ ["service".toList, "target".toList, "is_service".toList, "is_target".toList]

/-! ### Parts of a name -/

/-- A text is its first part and the later ones, each behind the separator. -/
theorem firstPart_append_later (sep : Char) (s : Str) :
    s = firstPart sep s ++ (s.splitOn sep).tail.flatMap (sep :: ·) := by
  obtain ⟨f, ts, hs⟩ := List.exists_cons_of_ne_nil (List.splitOn_ne_nil sep s)
  have hjoin : [sep].intercalate (s.splitOn sep) = s := List.intercalate_splitOn sep
  rw [hs, intercalate_cons] at hjoin
  have hf : sep ∉ f := not_mem_of_mem_splitOn (s := s) (by rw [hs]; simp)
  have hfirst : firstPart sep s = f := by
    rw [firstPart, ← hjoin]
    cases ts with
    | nil => simp [partition_of_not_mem hf]
    | cons t ts => rw [List.flatMap_cons, List.cons_append, partition_append hf]
  rw [hfirst, hs]
  exact hjoin.symm

theorem not_mem_firstPart (sep : Char) (s : Str) : sep ∉ firstPart sep s :=
  not_mem_partition_fst s

/-- What deleting `.kind` leaves of a later part. -/
def residue (kind t : Str) : Str := if kind <+: t then t.drop kind.length else '.' :: t

theorem not_mem_residue {kind t : Str} (h : '.' ∉ residue kind t) : kind <+: t := by
  unfold residue at h
  split at h
  · assumption
  · simp at h

theorem delete_kind {kind : Str} (hk : '.' ∉ kind) : ∀ {ts : List Str}, (∀ t ∈ ts, '.' ∉ t) →
    delete ('.' :: kind) (ts.flatMap ('.' :: ·)) = ts.flatMap (residue kind)
  | [], _ => rfl
  | t :: ts, h => by
    have ht : '.' ∉ t := h t (by simp)
    have ih := delete_kind hk fun t ht => h t (List.mem_cons_of_mem _ ht)
    rw [List.flatMap_cons, List.flatMap_cons, residue]
    split
    · rename_i hp
      obtain ⟨r, rfl⟩ := hp
      have hr : '.' ∉ r := fun hr => ht (by simp [hr])
      rw [List.drop_left, ← List.cons_append, List.append_assoc,
        delete_append_self (by simp), delete_append_of_not_mem hr, ih]
    · rename_i hp
      have hp' : ¬ '.' :: kind <+: '.' :: (t ++ ts.flatMap ('.' :: ·)) := fun hq => by
        have hq := (List.cons_prefix_cons.1 hq).2
        rcases List.prefix_or_prefix_of_prefix hq (List.prefix_append t _) with h' | ⟨r, rfl⟩
        · exact hp h'
        · cases r with
          | nil => exact hp (by simp)
          | cons x r =>
            rw [List.prefix_append_right_inj] at hq
            cases ts with
            | nil => simp at hq
            | cons t' ts =>
              obtain ⟨rfl, -⟩ := List.cons_prefix_cons.1 hq
              exact hk (by simp)
      rw [List.cons_append, delete_cons_of_mismatch hp', delete_append_of_not_mem ht, ih]
      rfl

theorem plain_append_cons {x : Char} (hx : x ∉ "dbus-".toList) (a b : Str) :
    plain (a ++ x :: b) = plain a ++ x :: plain b :=
  delete_append_cons (by decide) hx b a

theorem mem_of_mem_plain {x : Char} {s : Str} (h : x ∈ plain s) : x ∈ s :=
  (delete_sublist _ s).subset h

theorem plain_parts (f : Str) (ts : List Str) :
    plain (f ++ ts.flatMap ('.' :: ·)) =
      plain f ++ (ts.map plain).flatMap ('.' :: ·) := by
  induction ts generalizing f with
  | nil => simp [plain]
  | cons t ts ih =>
    rw [List.flatMap_cons, List.cons_append, plain_append_cons (by decide), ih]
    simp

/-- With a single `@`, a template is seen by the dot right behind it. -/
theorem template_mark_iff {a b : Str} (ha : '@' ∉ a) (hb : '@' ∉ b) :
    "@.".toList <:+: a ++ '@' :: b ↔ b.head? = some '.' := by
  induction a with
  | nil =>
    rw [List.nil_append, List.infix_cons_iff]
    constructor
    · rintro (h | h)
      · obtain ⟨t, ht⟩ := (List.cons_prefix_cons.1 h).2
        rw [← ht]
        rfl
      · exact absurd (h.subset (by decide)) hb
    · intro h
      obtain ⟨t, rfl⟩ := List.head?_eq_some_iff.1 h
      exact .inl ⟨t, rfl⟩
  | cons c a ih =>
    simp only [List.mem_cons, not_or] at ha
    rw [List.cons_append, List.infix_cons_iff, ← ih ha.2]
    exact ⟨fun h => h.resolve_left fun hp => ha.1 (List.cons_prefix_cons.1 hp).1, .inr⟩

namespace InstanceName
variable (n : InstanceName)

theorem not_mem_later {t : Str} (h : t ∈ n.later) : '.' ∉ t := by
  rcases List.mem_append.1 h with h | h
  · exact not_mem_of_mem_splitOn (List.mem_of_mem_tail h)
  · rw [List.mem_singleton.1 h]
    exact n.kind_plain.2.2

theorem tail_eq : n.inst ++ '.' :: n.kind = n.first ++ n.later.flatMap ('.' :: ·) := by
  conv_lhs => rw [firstPart_append_later '.' n.inst]
  simp [first, later]

theorem first_eq_nil : n.first = [] ↔ n.inst.head? = some '.' := by
  have h := firstPart_append_later '.' n.inst
  have hdot := not_mem_firstPart '.' n.inst
  change n.inst = n.first ++ _ at h
  change '.' ∉ n.first at hdot
  cases hf : n.first with
  | nil =>
    rw [hf] at h
    cases ht : (n.inst.splitOn '.').tail with
    | nil =>
      rw [ht] at h
      exact absurd h n.inst_ne
    | cons t ts =>
      rw [ht] at h
      rw [h]
      simp
  | cons x f =>
    rw [hf] at h hdot
    rw [h]
    simp only [List.mem_cons, not_or] at hdot
    simpa using Ne.symm hdot.1

theorem cls_name : (SystemdUnit.mk n.name).cls = n.kind := by
  have h : n.name = (n.stem ++ '@' :: n.inst) ++ '.' :: n.kind := by simp [name]
  rw [SystemdUnit.cls, lastPart, h, rpartition_append n.kind_plain.2.2]

theorem lastPart_name : lastPart '@' n.name = n.first ++ n.later.flatMap ('.' :: ·) := by
  have h : '@' ∉ n.inst ++ '.' :: n.kind := by
    simp [n.inst_plain.1, n.kind_plain.1]
  rw [lastPart, name, rpartition_append h, tail_eq]

theorem isTemplate_iff : (SystemdUnit.mk n.name).isTemplate ↔ n.first = [] := by
  have hrest : '@' ∉ n.inst ++ '.' :: n.kind := by
    simp [n.inst_plain.1, n.kind_plain.1]
  rw [n.first_eq_nil, SystemdUnit.isTemplate, contains, decide_eq_true_eq]
  refine (template_mark_iff n.stem_plain.1 hrest).trans ?_
  rw [List.head?_append_of_ne_nil _ n.inst_ne]

theorem isInstance_iff : (SystemdUnit.mk n.name).isInstance ↔ n.first ≠ [] := by
  have hat : contains "@".toList n.name := by
    rw [contains, decide_eq_true_eq]
    exact ⟨n.stem, n.inst ++ '.' :: n.kind, by simp [name]⟩
  show (contains "@".toList n.name && !(SystemdUnit.mk n.name).isTemplate) ↔ _
  rw [hat, Bool.true_and, ne_eq, ← n.isTemplate_iff]
  simp

theorem inst_name (h : n.first ≠ []) : (SystemdUnit.mk n.name).inst = some n.first := by
  have hdot : '.' ∉ n.first := not_mem_firstPart '.' n.inst
  have hfirst : firstPart '.' (lastPart '@' n.name) = n.first := by
    obtain ⟨t, ts, hts⟩ := List.exists_cons_of_ne_nil (show n.later ≠ [] by simp [later])
    rw [lastPart_name, firstPart, hts, List.flatMap_cons, List.cons_append, partition_append hdot]
  rw [SystemdUnit.inst, if_pos (n.isInstance_iff.2 h)]
  exact congrArg some hfirst

/-- What is left of the instance and the type. -/
def rest : Str :=
  plain n.first ++
    n.later.flatMap fun t => residue n.kind (plain t)

theorem not_mem_rest : '@' ∉ n.rest := by
  have hinst : '@' ∉ n.inst ++ '.' :: n.kind := by
    simp [n.inst_plain.1, n.kind_plain.1]
  rw [tail_eq] at hinst
  simp only [List.mem_append, List.mem_flatMap, List.mem_cons, not_or, not_exists, not_and] at hinst
  obtain ⟨hfirst, hlater⟩ := hinst
  simp only [rest, List.mem_append, List.mem_flatMap, not_or, not_exists, not_and]
  refine ⟨fun h => hfirst (mem_of_mem_plain h), fun t ht h => ?_⟩
  have hplain : '@' ∉ plain t := fun hm =>
    (hlater t ht).2 (mem_of_mem_plain hm)
  unfold residue at h
  split at h
  · exact hplain (List.mem_of_mem_drop h)
  · simp [hplain] at h

theorem base_name (h : n.first ≠ []) : (SystemdUnit.mk n.name).base =
    plain n.stem ++
      (if n.first <+: n.rest then n.rest.drop n.first.length else '@' :: n.rest) := by
  have hstem : ∀ c, c ∉ n.stem → c ∉ plain n.stem := fun c hc hm =>
    hc (mem_of_mem_plain hm)
  have hplain : plain n.name = plain n.stem ++ '@' ::
      (plain n.first ++
        (n.later.map plain).flatMap ('.' :: ·)) := by
    rw [name, plain_append_cons (by decide), tail_eq, plain_parts]
  have hkind : delete ('.' :: n.kind) (plain n.name) =
      plain n.stem ++ '@' :: n.rest := by
    have hdot : '.' ∉ plain n.stem ++ '@' :: plain n.first := by
      have hfirst : '.' ∉ plain n.first := fun hm =>
        not_mem_firstPart '.' n.inst (mem_of_mem_plain hm)
      simp [hstem '.' n.stem_plain.2.2, hfirst]
    rw [hplain, ← List.cons_append, ← List.append_assoc, delete_append_of_not_mem hdot,
      delete_kind n.kind_plain.2.2 fun t ht => ?_]
    · simp [rest, List.flatMap_map]
    · obtain ⟨t', ht', rfl⟩ := List.mem_map.1 ht
      exact fun hm => n.not_mem_later ht' (mem_of_mem_plain hm)
  have hno : ¬ (SystemdUnit.mk n.name).isTemplate := fun ht => h (n.isTemplate_iff.1 ht)
  have hbase : (SystemdUnit.mk n.name).base = delete ('@' :: n.first)
      (delete ('.' :: (SystemdUnit.mk n.name).cls) (plain n.name)) := by
    rw [SystemdUnit.base, inst_name n h]
    exact if_neg hno
  rw [hbase, cls_name, hkind, delete_append_of_not_mem (hstem '@' n.stem_plain.1)]
  congr 1
  split
  · rename_i hp
    obtain ⟨r, hr⟩ := hp
    have hno : ¬ '@' :: n.first <:+: r := fun hi => n.not_mem_rest (by
      rw [← hr]
      exact List.mem_append_right _ (hi.subset (by simp)))
    rw [← hr, List.drop_left, ← List.cons_append, delete_append_self (by simp),
      delete_of_not_infix hno]
  · rename_i hp
    refine delete_of_not_infix fun hi => ?_
    rcases List.infix_cons_iff.1 hi with hi | hi
    · exact hp (List.cons_prefix_cons.1 hi).2
    · exact n.not_mem_rest (hi.subset (by simp))

theorem rest_of_prefixes (h : ∀ t ∈ n.later, n.kind <+: plain t) :
    n.rest = plain n.first ++ n.later.flatMap fun t => (plain t).drop n.kind.length := by
  rw [rest]
  congr 1
  exact List.flatMap_congr fun t ht => if_pos (h t ht)

theorem base_eq_stem_iff (h : n.first ≠ []) :
    (SystemdUnit.mk n.name).base = n.stem ↔ n.Reassembles := by
  rw [base_name n h]
  constructor
  · intro he
    split at he
    · rename_i hp
      obtain ⟨r, hr⟩ := hp
      rw [← hr, List.drop_left] at he
      have hdot : '.' ∉ n.rest := by
        rw [← hr, List.mem_append]
        rintro (hm | hm)
        · exact not_mem_firstPart '.' n.inst hm
        · exact n.stem_plain.2.2 (he ▸ List.mem_append_right _ hm)
      have hlater : ∀ t ∈ n.later, n.kind <+: plain t := fun t ht =>
        not_mem_residue fun hm => hdot
          (List.mem_append_right _ (List.mem_flatMap.2 ⟨t, ht, hm⟩))
      exact ⟨hlater, r, by rw [hr, rest_of_prefixes n hlater], he⟩
    · have hat : '@' ∈ n.stem := he ▸ List.mem_append_right _ List.mem_cons_self
      exact absurd hat n.stem_plain.1
  · rintro ⟨hlater, r, hr, he⟩
    rw [← rest_of_prefixes n hlater] at hr
    rw [← hr, if_pos (List.prefix_append _ _), List.drop_left]
    exact he

/-- Where there is no `dbus-`, only the type can be deleted. -/
theorem reassembles_iff (h : ¬ "dbus-".toList <:+: n.name) :
    n.Reassembles ↔ ∀ t ∈ n.later, t = n.kind := by
  have hplain : ∀ t, t <:+: n.name → plain t = t := fun t ht =>
    delete_of_not_infix fun hd => h (hd.trans ht)
  have htail : n.first ++ n.later.flatMap ('.' :: ·) <:+: n.name := by
    rw [← tail_eq]
    exact ⟨n.stem ++ ['@'], [], by simp [name]⟩
  have hstem : plain n.stem = n.stem := hplain _ ⟨[], '@' :: (n.inst ++ '.' :: n.kind), rfl⟩
  have hfirst : plain n.first = n.first :=
    hplain _ ((List.prefix_append _ _).isInfix.trans htail)
  have hlater : ∀ t ∈ n.later, plain t = t := fun t ht => by
    obtain ⟨a, b, hab⟩ := List.append_of_mem ht
    refine hplain t (List.IsInfix.trans ?_ htail)
    exact ⟨n.first ++ a.flatMap ('.' :: ·) ++ ['.'], b.flatMap ('.' :: ·), by simp [hab]⟩
  unfold Reassembles
  rw [hstem, hfirst]
  constructor
  · rintro ⟨hp, r, hr, he⟩ t ht
    have hr0 : r = [] := List.append_right_eq_self.1 he
    rw [hr0, List.append_cancel_left_eq] at hr
    obtain ⟨s, hs⟩ := hp t ht
    rw [hlater t ht] at hs
    have hnil := List.flatMap_eq_nil_iff.1 hr.symm t ht
    rw [hlater t ht, ← hs, List.drop_left] at hnil
    rw [← hs, hnil, List.append_nil]
  · intro hall
    refine ⟨fun t ht => ?_, [], ?_, List.append_nil _⟩
    · rw [hlater t ht, hall t ht]
    · congr 1
      refine (List.flatMap_eq_nil_iff.2 fun t ht => ?_).symm
      rw [hlater t ht, hall t ht, List.drop_length]

theorem template_iff : (SystemdUnit.mk n.name).isInstance ∧
    (SystemdUnit.mk n.name).template = some n.templateName ↔
    n.inst.head? ≠ some '.' ∧
      if "dbus-".toList <:+: n.name then n.Reassembles else ∀ t ∈ n.later, t = n.kind := by
  rw [isInstance_iff, ne_eq, first_eq_nil]
  refine and_congr_right fun hhead => ?_
  have hfirst : n.first ≠ [] := fun h => hhead (n.first_eq_nil.1 h)
  have htemplate : (SystemdUnit.mk n.name).template = some n.templateName ↔ n.Reassembles := by
    rw [SystemdUnit.template, if_pos (n.isInstance_iff.2 hfirst), Option.some_inj, cls_name,
      templateName, List.append_left_inj, List.append_left_inj, base_eq_stem_iff n hfirst]
  rw [htemplate]
  split
  · exact Iff.rfl
  · rename_i hd
    exact n.reassembles_iff hd

theorem isTemplate_templateName : (SystemdUnit.mk n.templateName).isTemplate := by
  rw [SystemdUnit.isTemplate, contains, decide_eq_true_eq]
  exact ⟨n.stem, n.kind, rfl⟩

/-- An instance that is listed has the loop add the template that it is filed under. -/
theorem template_mem_loopUnits {services : List Str} {t : Str} (hs : n.name ∈ services)
    (hi : (SystemdUnit.mk n.name).isInstance) (ht : (SystemdUnit.mk n.name).template = some t) :
    ⟨t⟩ ∈ loopUnits services := by
  refine List.mem_append_left _ (List.mem_map.2 ⟨t, List.mem_dedup.2 ?_, rfl⟩)
  exact List.mem_filterMap.2 ⟨⟨n.name⟩, List.mem_filter.2 ⟨List.mem_map_of_mem hs, hi⟩, ht⟩

end InstanceName

/-! ### Types of units -/

theorem kindRight_of {kind : Str} (h : kind ∉ ["service".toList, "target".toList,
    "is_service".toList, "is_target".toList]) : KindRight kind := by
  simp only [List.mem_cons, List.not_mem_nil, or_false, not_or] at h
  obtain ⟨hs, ht, his, hit⟩ := h
  have hno : ∀ u : SystemdUnit, u.cls = kind → u.isService = false := fun u hu =>
    decide_eq_false (by rwa [hu])
  refine { isService := fun u hu => ?_, isTarget := fun u hu => ?_, restart := fun d u hu => ?_ }
  · rw [hno u hu]
    simpa using hs
  · have hno : u.isTarget = false := decide_eq_false (by rwa [hu])
    rw [hno]
    simpa using ht
  · have hwarn : (checkSdUnit d u).2 = [] := by
      unfold checkSdUnit
      rw [hno u hu]
      split <;> simp
    rw [hwarn]
    exact ⟨fun he => absurd he (List.cons_ne_nil _ _).symm, fun he => absurd he.1 hs⟩

theorem KindRight.not_mem {kind : Str} {u : SystemdUnit} (hu : u.cls = kind) (h : KindRight kind) :
    kind ∉ ["service".toList, "target".toList, "is_service".toList, "is_target".toList] := by
  have hs := h.isService u hu
  have ht := h.isTarget u hu
  rw [SystemdUnit.isService, SystemdUnit.isKind, hu, decide_eq_true_eq] at hs
  rw [SystemdUnit.isTarget, SystemdUnit.isKind, hu, decide_eq_true_eq] at ht
  intro hm
  fin_cases hm
  · exact absurd (hs.2 rfl) (by decide)
  · exact absurd (ht.2 rfl) (by decide)
  · exact absurd (hs.1 rfl) (by decide)
  · exact absurd (ht.1 rfl) (by decide)

/-- A name of an instance is classified exactly when it is regular. -/
theorem classified_iff (n : InstanceName) : Classified n ↔ n.Regular := by
  constructor
  · intro h
    obtain ⟨hhead, hre⟩ := n.template_iff.1 ⟨h.isInstance, h.template⟩
    exact ⟨hhead, hre, h.kind.not_mem n.cls_name⟩
  · rintro ⟨hhead, hre, hk⟩
    obtain ⟨hi, ht⟩ := n.template_iff.2 ⟨hhead, hre⟩
    exact
      { isInstance := hi
        template := ht
        shipped := fun _ hs => n.template_mem_loopUnits hs hi ht
        isTemplate := n.isTemplate_templateName
        kind := kindRight_of hk }

namespace Sample

/-- `getty@tty.1.socket`. -/
def dottedGetty : InstanceName where
  stem := "getty".toList
  inst := "tty.1".toList
  kind := "socket".toList
  stem_plain := by decide
  inst_plain := by decide
  inst_ne := by decide
  kind_plain := by decide

/-- `getty@tty1.service`. -/
def gettyService : InstanceName where
  stem := "getty".toList
  inst := "tty1".toList
  kind := "service".toList
  stem_plain := by decide
  inst_plain := by decide
  inst_ne := by decide
  kind_plain := by decide

end Sample

/-- A dot in the instance gives the template `getty.1@.socket`, and a service is not taken for
one. -/
theorem getty_misfiled : ¬ Classified Sample.dottedGetty ∧ ¬ Classified Sample.gettyService ∧
    (SystemdUnit.mk Sample.dottedGetty.name).template = some "getty.1@.socket".toList := by
  refine ⟨fun h => ?_, fun h => ?_, by decide⟩
  · exact absurd h.template (by decide)
  · exact absurd ((h.kind.isService ⟨Sample.gettyService.name⟩ (by decide)).2 rfl) (by decide)

end Systemd
end OpenBmc
