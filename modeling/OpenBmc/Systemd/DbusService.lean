import OpenBmc.Systemd.Substitutions

/-!
# D-Bus policies and activations

The package loop of the class lists, for each unit, the text `unit:user` of a default policy and of
a default activation; the task after `do_install` takes the lists apart and writes the files. An
activation names `dbus-<unit>.service`, where the unit's name has the `dbus-` and the `.service`
already, so no activation file is right (`dbus_files_agree_iff`).
-/

namespace OpenBmc
namespace Systemd
open Py

def defaultDbusConfigs : Str := "_DEFAULT_DBUS_CONFIGS".toList

def defaultDbusActivations : Str := "_DEFAULT_DBUS_ACTIVATIONS".toList

def dbusPackages : Str := "DBUS_PACKAGES".toList

def dbusService (pkg : Str) : Str := "DBUS_SERVICE:".toList ++ pkg

def systemdPackages : Str := "SYSTEMD_PACKAGES".toList

def systemdService (pkg : Str) : Str := "SYSTEMD_SERVICE:".toList ++ pkg

def dbusSystemConfdir : Str := "dbus_system_confdir".toList

def dbusSystemServicesdir : Str := "dbus_system_servicesdir".toList

/-! ### The package loop -/

/-- `d.getVar(var, True) or 'root'`. -/
def orRoot : Option Str → Str
  | none => "root".toList
  | some user => if user = [] then "root".toList else user

def getUser (d : DataStore) (service pkg : Str) : Str :=
  (d.get? (systemdUser service)).getD (orRoot (d.get? (systemdUser pkg)))

def confFile (unit : SystemdUnit) : Str := unit.base ++ ".conf".toList

/-- The file that `add_dbus_activation` looks for. -/
def searchMatch (unit : SystemdUnit) : Str :=
  match unit.inst with
  | none => unit.base ++ ".service".toList
  | some inst => unit.base ++ '.' :: inst ++ ".service".toList

section Loop
variable (ready : Str → Bool)

/-- `add_dbus_config`, where `ready` says which files are in the search path. -/
def addDbusConfig (d : DataStore) (unit : SystemdUnit) (pkg : Str) : DataStore :=
  let user := getUser d unit.name pkg
  let d := if !ready (confFile unit) then
      d.setDoappend defaultDbusConfigs (unit.name ++ ':' :: user) ' '
    else
      let d := d.setDoappend "SRC_URI".toList ("file://".toList ++ confFile unit) ' '
      d.setDoappend "_INSTALL_DBUS_CONFIGS".toList (confFile unit) ' '
  d.setDoappend (filesVar pkg) (varText d dbusSystemConfdir ++ confFile unit) ' '

def addDbusActivation (d : DataStore) (unit : SystemdUnit) (pkg : Str) : DataStore :=
  if !unit.isActivated || unit.isTemplate then d
  else
    let user := getUser d unit.base pkg
    let d := if !ready (searchMatch unit) then
        d.setDoappend defaultDbusActivations (unit.name ++ ':' :: user) ' '
      else
        let d := d.setDoappend "SRC_URI".toList ("file://".toList ++ searchMatch unit) ' '
        d.setDoappend "_INSTALL_DBUS_ACTIVATIONS".toList (searchMatch unit) ' '
    d.setDoappend (filesVar pkg) (varText d dbusSystemServicesdir ++ searchMatch unit) ' '

/-- The body of the loop over `tmpl + svc`. -/
def addDbusUnit (pkg : Str) (d : DataStore) (unit : SystemdUnit) : DataStore :=
  let d := addDbusConfig ready d unit pkg
  let d := addDbusActivation ready d unit pkg
  let d := d.setDoappend (systemdService pkg) unit.name ' '
  d.setDoappend systemdSubstitutions (entryText "BUSNAME".toList unit.base unit.name) ' '

/-- The body of the loop over the packages. -/
def addDbusPackage (d : DataStore) (pkg : Str) : DataStore :=
  let d := if contains pkg ((d.get? systemdPackages).getD []) then d
    else d.setDoappend systemdPackages pkg ' '
  let svc := d.listvar (dbusService pkg)
  let inst := (svc.map SystemdUnit.mk).filter (·.isInstance)
  let d := inst.foldl (fun d unit => d.setDoappend (systemdService pkg) unit.name ' ') d
  (loopUnits svc).foldl (addDbusUnit ready pkg) d

/-- The class's anonymous function, for the target. -/
def dbusParse (d : DataStore) : DataStore :=
  (d.listvar dbusPackages).foldl (addDbusPackage ready) d

end Loop

/-! ### The task -/

structure Policy where
  user : Str
  own : Str

structure Activation where
  name : Str
  user : Str
  systemdService : Str

/-- The files in the two directories, by their names. -/
structure DbusFiles where
  policies : Dict Str Policy
  activations : Dict Str Activation

def makeDefaultDbusConfig (fs : DbusFiles) (unit : SystemdUnit) (user : Str) : DbusFiles :=
  let bus := if unit.isTemplate then unit.base ++ ['*'] else unit.base
  { fs with policies := fs.policies.set (confFile unit) ⟨user, bus⟩ }

def makeDefaultDbusActivation (fs : DbusFiles) (unit : SystemdUnit) (user : Str) : DbusFiles :=
  let dest := match unit.inst with
    | none => unit.base
    | some inst => unit.base ++ '.' :: inst
  let sdUnit := match unit.inst with
    | none => unit.name
    | some inst => unit.base ++ '@' :: inst
  let activation := ⟨dest, user, "dbus-".toList ++ sdUnit ++ ".service".toList⟩
  { fs with activations := fs.activations.set (dest ++ ".service".toList) activation }

/-- `service, user = service_user.split(':')`, and what is made of the two. -/
def withUser (make : DbusFiles → SystemdUnit → Str → DbusFiles) (fs : DbusFiles) (serviceUser : Str) :
    Except SubsError DbusFiles := do
  let (service, user) ← subsEntry serviceUser
  return make fs ⟨service⟩ user

def dbusDoPostinst (d : DataStore) : Except SubsError DbusFiles := do
  let fs ← (d.listvar defaultDbusConfigs).foldlM (withUser makeDefaultDbusConfig) ⟨.empty, .empty⟩
  (d.listvar defaultDbusActivations).foldlM (withUser makeDefaultDbusActivation) fs

/-! ### Agreement -/

/-- The variables of a recipe that inherits the class: no default file is listed yet, directories
and user names have no blanks. -/
structure DbusRecipe where
  store : DataStore
  configs_nil : store.listvar defaultDbusConfigs = []
  activations_nil : store.listvar defaultDbusActivations = []
  confdir_plain : ' ' ∉ varText store dbusSystemConfdir
  servicesdir_plain : ' ' ∉ varText store dbusSystemServicesdir
  user_plain : ∀ key user, store.get? (systemdUser key) = some user → ' ' ∉ user

namespace DbusRecipe
variable (r : DbusRecipe)

def packages : List Str := r.store.listvar dbusPackages

/-- `DBUS_SERVICE` of a package. -/
def services (pkg : Str) : List Str := r.store.listvar (dbusService pkg)

/-- The units that the class handles for a package. -/
def units (pkg : Str) : List SystemdUnit := loopUnits (r.services pkg)

/-- `SYSTEMD_USER_<unit>`, else `SYSTEMD_USER_<package>`, else root. -/
def user (unit : SystemdUnit) (pkg : Str) : Str := getUser r.store unit.name pkg

/-- The units that need a policy: those listed that are not instances, and the templates of the
instances. -/
def Required (pkg : Str) (unit : SystemdUnit) : Prop :=
  (unit.name ∈ r.services pkg ∧ ¬ unit.isInstance) ∨
    ∃ n : InstanceName, n.name ∈ r.services pkg ∧ unit = ⟨n.templateName⟩

/-- `FILES` names the policy of a unit. -/
def policyPath (unit : SystemdUnit) : Str := varText r.store dbusSystemConfdir ++ confFile unit

def activationPath (unit : SystemdUnit) : Str :=
  varText r.store dbusSystemServicesdir ++ unit.base ++ ".service".toList

end DbusRecipe

/-- The files of a unit that is started on demand. -/
structure ActivationRight (r : DbusRecipe) (fs : DbusFiles) (pkg : Str) (u : SystemdUnit) : Prop where
  right : ∃ a p, fs.activations.get? (u.base ++ ".service".toList) = some a ∧
    fs.policies.get? (confFile u) = some p ∧ a.name = u.base ∧ a.systemdService = u.name ∧
    a.user = p.user ∧ a.user = r.user u pkg

/-- The task writes the files of all packages, and each is in its package. -/
def DbusFilesAgree (ready : Str → Bool) (r : DbusRecipe) : Prop :=
  ∃ fs, dbusDoPostinst (dbusParse ready r.store) = .ok fs ∧ ∀ pkg ∈ r.packages,
    (∀ u, r.Required pkg u → confFile u ∈ fs.policies ∧
      r.policyPath u ∈ (dbusParse ready r.store).listvar (filesVar pkg)) ∧
    ∀ u : SystemdUnit, u.name ∈ r.services pkg → u.isActivated → ¬ u.isTemplate →
      ActivationRight r fs pkg u ∧
        r.activationPath u ∈ (dbusParse ready r.store).listvar (filesVar pkg)

/-- The condition for agreement. -/
structure DbusRegular (r : DbusRecipe) : Prop where
  /-- Only templates are started on demand. -/
  notActivated : ∀ pkg ∈ r.packages, ∀ u : SystemdUnit, u.name ∈ r.services pkg → u.isActivated →
    u.isTemplate
  noColon : ∀ pkg ∈ r.packages, ∀ u ∈ r.units pkg, ':' ∉ u.name ∧ ':' ∉ r.user u pkg
  /-- The template of an instance shares its base with a unit that is handled. -/
  templates : ∀ pkg ∈ r.packages, ∀ n : InstanceName, n.name ∈ r.services pkg →
    (∃ pkg' ∈ r.packages, ∃ u ∈ r.units pkg', u.base = (SystemdUnit.mk n.templateName).base) ∧
    (r.policyPath ⟨n.templateName⟩ ∈ r.store.listvar (filesVar pkg) ∨
      ∃ u ∈ r.units pkg, u.base = (SystemdUnit.mk n.templateName).base)

/-! ### What the loop adds -/

/-- The variables that the loop reads. -/
def IsInput (var : Str) : Prop :=
  (∃ key, var = systemdUser key) ∨ (∃ pkg, var = dbusService pkg) ∨ var = dbusSystemConfdir ∨
    var = dbusSystemServicesdir

/-- From `d` to `d'` the lists grow by the given texts, and what the loop reads stays. -/
structure Adds (d d' : DataStore) (configs activations : List Str) (files : Str → List Str) :
    Prop where
  configs : d'.listvar defaultDbusConfigs = d.listvar defaultDbusConfigs ++ configs
  activations : d'.listvar defaultDbusActivations =
    d.listvar defaultDbusActivations ++ activations
  files : ∀ pkg, d'.listvar (filesVar pkg) = d.listvar (filesVar pkg) ++ files pkg
  inputs : ∀ var, IsInput var → d'.get? var = d.get? var

theorem configs_ne_activations : defaultDbusConfigs ≠ defaultDbusActivations := by decide +kernel

theorem configs_ne_files (pkg : Str) : filesVar pkg ≠ defaultDbusConfigs :=
  append_ne 1 (by decide +kernel) (by decide +kernel)

theorem activations_ne_files (pkg : Str) : filesVar pkg ≠ defaultDbusActivations :=
  append_ne 1 (by decide +kernel) (by decide +kernel)

/-- A written variable is none of those read, and no list. -/
structure Scratch (var : Str) : Prop where
  input : ¬ IsInput var
  configs : var ≠ defaultDbusConfigs
  activations : var ≠ defaultDbusActivations
  files : ∀ pkg, var ≠ filesVar pkg

/-- The first letters of the variables read. -/
def inputHeads : List Str := ["SYSTEMD_U".toList, "DBUS_SERV".toList, "dbus_syst".toList]

theorem take_append_mem {s t : Str} (hlen : 9 ≤ s.length) :
    (s ++ t).take 9 ∈ inputHeads ↔ s.take 9 ∈ inputHeads := by
  rw [List.take_append_of_le_length hlen]

theorem IsInput.take {var : Str} (h : IsInput var) : var.take 9 ∈ inputHeads := by
  rcases h with ⟨key, rfl⟩ | ⟨pkg, rfl⟩ | rfl | rfl
  · exact (take_append_mem (by decide +kernel)).2 (by decide +kernel)
  · exact (take_append_mem (by decide +kernel)).2 (by decide +kernel)
  · decide +kernel
  · decide +kernel

theorem not_isInput_append {s t : Str} (hlen : 9 ≤ s.length) (h : s.take 9 ∉ inputHeads) :
    ¬ IsInput (s ++ t) := fun hi => h ((take_append_mem hlen).1 hi.take)

theorem not_isInput_files (pkg : Str) : ¬ IsInput (filesVar pkg) := fun hi => by
  have hheads : ∀ s ∈ inputHeads, s.head? ≠ some 'F' := by decide +kernel
  exact hheads _ hi.take rfl

theorem get?_of_isInput {d : DataStore} {var text v : Str} {sep : Char} (hvar : ¬ IsInput var)
    (hv : IsInput v) : (d.setDoappend var text sep).get? v = d.get? v := by
  have hne : v ≠ var := fun he => hvar (he ▸ hv)
  rw [DataStore.get?_setDoappend, if_neg hne]

section Adds
variable {d d₁ d₂ : DataStore} {c c' a a' : List Str} {f f' : Str → List Str}

theorem Adds.refl (d : DataStore) : Adds d d [] [] fun _ => [] where
  configs := (List.append_nil _).symm
  activations := (List.append_nil _).symm
  files _ := (List.append_nil _).symm
  inputs _ _ := rfl

theorem Adds.trans (h : Adds d d₁ c a f) (h' : Adds d₁ d₂ c' a' f') :
    Adds d d₂ (c ++ c') (a ++ a') fun pkg => f pkg ++ f' pkg where
  configs := by rw [h'.configs, h.configs, List.append_assoc]
  activations := by rw [h'.activations, h.activations, List.append_assoc]
  files pkg := by rw [h'.files, h.files, List.append_assoc]
  inputs var hv := (h'.inputs var hv).trans (h.inputs var hv)

theorem adds_configs {text : Str} (hne : text ≠ []) (hs : ' ' ∉ text) :
    Adds d (d.setDoappend defaultDbusConfigs text ' ') [text] [] fun _ => [] where
  configs := listvar_setDoappend hne hs
  activations := by
    rw [listvar_setDoappend_of_ne configs_ne_activations.symm, List.append_nil]
  files pkg := by rw [listvar_setDoappend_of_ne (configs_ne_files pkg), List.append_nil]
  inputs _ := get?_of_isInput fun h => absurd h.take (by decide +kernel)

theorem adds_activations {text : Str} (hne : text ≠ []) (hs : ' ' ∉ text) :
    Adds d (d.setDoappend defaultDbusActivations text ' ') [] [text] fun _ => [] where
  configs := by rw [listvar_setDoappend_of_ne configs_ne_activations, List.append_nil]
  activations := listvar_setDoappend hne hs
  files pkg := by rw [listvar_setDoappend_of_ne (activations_ne_files pkg), List.append_nil]
  inputs _ := get?_of_isInput fun h => absurd h.take (by decide +kernel)

theorem adds_files {pkg text : Str} (hne : text ≠ []) (hs : ' ' ∉ text) :
    Adds d (d.setDoappend (filesVar pkg) text ' ') [] [] fun p => if p = pkg then [text] else [] where
  configs := by rw [listvar_setDoappend_of_ne (configs_ne_files pkg).symm, List.append_nil]
  activations := by rw [listvar_setDoappend_of_ne (activations_ne_files pkg).symm, List.append_nil]
  files p := by
    by_cases hp : p = pkg
    · rw [hp, if_pos rfl]
      exact listvar_setDoappend hne hs
    · have hvar : filesVar p ≠ filesVar pkg := fun he => hp ((List.append_right_inj _).1 he)
      rw [if_neg hp, listvar_setDoappend_of_ne hvar, List.append_nil]
  inputs _ := get?_of_isInput (not_isInput_files pkg)

theorem adds_scratch {var : Str} (hvar : Scratch var) (d : DataStore) (text : Str) :
    Adds d (d.setDoappend var text ' ') [] [] fun _ => [] where
  configs := by rw [listvar_setDoappend_of_ne hvar.configs.symm, List.append_nil]
  activations := by rw [listvar_setDoappend_of_ne hvar.activations.symm, List.append_nil]
  files pkg := by rw [listvar_setDoappend_of_ne (hvar.files pkg).symm, List.append_nil]
  inputs _ := get?_of_isInput hvar.input

end Adds

/-! ### The loop -/

/-- What the loop reads is still as the recipe has it. -/
def SameInputs (r : DbusRecipe) (d : DataStore) : Prop :=
  ∀ var, IsInput var → d.get? var = r.store.get? var

/-- The unit is started on demand and is no template. -/
def onDemand (u : SystemdUnit) : Bool := u.isActivated && !u.isTemplate

namespace DbusRecipe
variable (r : DbusRecipe)

def configText (pkg : Str) (u : SystemdUnit) : Str := u.name ++ ':' :: r.user u pkg

def activationText (pkg : Str) (u : SystemdUnit) : Str :=
  u.name ++ ':' :: getUser r.store u.base pkg

/-- What a unit adds to the list of activations. -/
def activationTexts (pkg : Str) (u : SystemdUnit) : List Str :=
  if onDemand u then [r.activationText pkg u] else []

/-- What a unit adds to `FILES`. -/
def unitFiles (u : SystemdUnit) : List Str :=
  r.policyPath u ::
    if onDemand u then [varText r.store dbusSystemServicesdir ++ searchMatch u] else []

end DbusRecipe

section Loop
variable {r : DbusRecipe} {d d' : DataStore} {ready : Str → Bool} {pkg : Str} {u : SystemdUnit}

theorem Adds.sameInputs {c a : List Str} {f : Str → List Str} (h : Adds d d' c a f)
    (hd : SameInputs r d) : SameInputs r d' := fun var hv => (h.inputs var hv).trans (hd var hv)

theorem Adds.foldl {α : Type} {c a : α → List Str} {f : α → Str → List Str} (xs : List α)
    (step : DataStore → α → DataStore)
    (hstep : ∀ d, SameInputs r d → ∀ x ∈ xs, Adds d (step d x) (c x) (a x) (f x))
    (hd : SameInputs r d) : Adds d (xs.foldl step d) (xs.flatMap c) (xs.flatMap a)
      fun pkg => xs.flatMap fun x => f x pkg := by
  induction xs generalizing d with
  | nil => exact Adds.refl d
  | cons x xs ih =>
    have hx := hstep d hd x List.mem_cons_self
    have hxs := ih (fun d hd y hy => hstep d hd y (List.mem_cons_of_mem _ hy)) (hx.sameInputs hd)
    exact hx.trans hxs

theorem SameInputs.getUser (hd : SameInputs r d) (service pkg : Str) :
    getUser d service pkg = getUser r.store service pkg := by
  unfold Systemd.getUser
  rw [hd _ (.inl ⟨_, rfl⟩), hd _ (.inl ⟨_, rfl⟩)]

theorem SameInputs.confdir (hd : SameInputs r d) :
    varText d dbusSystemConfdir = varText r.store dbusSystemConfdir := by
  rw [varText, hd _ (.inr (.inr (.inl rfl))), varText]

theorem SameInputs.servicesdir (hd : SameInputs r d) :
    varText d dbusSystemServicesdir = varText r.store dbusSystemServicesdir := by
  rw [varText, hd _ (.inr (.inr (.inr rfl))), varText]

theorem SameInputs.services (hd : SameInputs r d) (pkg : Str) :
    d.listvar (dbusService pkg) = r.services pkg := by
  rw [DataStore.listvar, hd _ (.inr (.inl ⟨pkg, rfl⟩))]
  rfl

theorem getUser_plain (r : DbusRecipe) (service pkg : Str) : ' ' ∉ getUser r.store service pkg := by
  have hroot : ' ' ∉ "root".toList := by decide
  unfold getUser orRoot
  cases hs : r.store.get? (systemdUser service) with
  | some user => exact r.user_plain _ _ hs
  | none =>
    cases hp : r.store.get? (systemdUser pkg) with
    | none => exact hroot
    | some user =>
      show ' ' ∉ if user = [] then "root".toList else user
      split
      · exact hroot
      · exact r.user_plain _ _ hp

theorem mem_of_mem_base {c : Char} (h : c ∈ u.base) : c ∈ u.unit := by
  have hkind : ∀ w, c ∈ delete w (plain u.unit) → c ∈ u.unit := fun w hm =>
    mem_of_mem_plain ((delete_sublist _ _).subset hm)
  have hdrop : ∀ {l : Str} {p : Char → Bool}, c ∈ l.rdropWhile p → c ∈ l := fun hm =>
    (List.rdropWhile_prefix _ _).subset hm
  unfold SystemdUnit.base at h
  cases hi : u.inst with
  | none =>
    simp only [hi] at h
    split at h
    · exact hkind _ (hdrop h)
    · exact hkind _ h
  | some inst =>
    simp only [hi] at h
    split at h
    · exact hkind _ ((delete_sublist _ _).subset (hdrop h))
    · exact hkind _ ((delete_sublist _ _).subset h)

theorem confFile_plain (hu : ' ' ∉ u.name) : ' ' ∉ confFile u := by
  have hbase : ' ' ∉ u.base := fun hm => hu (mem_of_mem_base hm)
  have hconf : ' ' ∉ ".conf".toList := by decide
  simp only [confFile, List.mem_append, not_or]
  exact ⟨hbase, hconf⟩

theorem searchMatch_plain (hu : ' ' ∉ u.name) : ' ' ∉ searchMatch u := by
  have hbase : ' ' ∉ u.base := fun hm => hu (mem_of_mem_base hm)
  have hservice : ' ' ∉ ".service".toList := by decide
  unfold searchMatch
  cases hi : u.inst with
  | none =>
    simp only [List.mem_append, not_or]
    exact ⟨hbase, hservice⟩
  | some inst =>
    have hinst : ' ' ∉ inst := fun hm => by
      unfold SystemdUnit.inst at hi
      split at hi
      · rw [← Option.some.inj hi] at hm
        exact hu (mem_of_mem_rpartition_snd (mem_of_mem_partition_fst hm))
      · cases hi
    simp only [List.mem_append, List.mem_cons, not_or]
    exact ⟨⟨hbase, by decide, hinst⟩, hservice⟩

theorem adds_config (hready : ∀ f, ready f = false) (hd : SameInputs r d) (hu : ' ' ∉ u.name)
    (pkg : Str) : Adds d (addDbusConfig ready d u pkg) [r.configText pkg u] []
      fun p => if p = pkg then [r.policyPath u] else [] := by
  have htext : r.configText pkg u ≠ [] ∧ ' ' ∉ r.configText pkg u := by
    simp [DbusRecipe.configText, DbusRecipe.user, hu, getUser_plain r u.name pkg]
  have hpath : r.policyPath u ≠ [] ∧ ' ' ∉ r.policyPath u := by
    simp only [DbusRecipe.policyPath, List.mem_append, not_or]
    exact ⟨by simp [confFile], r.confdir_plain, confFile_plain hu⟩
  have hc : Adds d (d.setDoappend defaultDbusConfigs (r.configText pkg u) ' ') _ _ _ :=
    adds_configs htext.1 htext.2
  unfold addDbusConfig
  simp only [hready, Bool.not_false, if_true]
  rw [(show getUser d u.name pkg = r.user u pkg from hd.getUser _ _)]
  have hdir := (hc.sameInputs hd).confdir
  unfold DbusRecipe.configText at hc hdir
  rw [hdir]
  exact hc.trans (adds_files hpath.1 hpath.2)

theorem adds_activation (hready : ∀ f, ready f = false) (hd : SameInputs r d)
    (hu : ' ' ∉ u.name) (pkg : Str) : Adds d (addDbusActivation ready d u pkg) [] (r.activationTexts pkg u)
      fun p => if p = pkg then
        (if onDemand u then [varText r.store dbusSystemServicesdir ++ searchMatch u] else [])
      else [] := by
  have htext : r.activationText pkg u ≠ [] ∧ ' ' ∉ r.activationText pkg u := by
    simp [DbusRecipe.activationText, hu, getUser_plain r u.base pkg]
  have hpath : varText r.store dbusSystemServicesdir ++ searchMatch u ≠ [] ∧
      ' ' ∉ varText r.store dbusSystemServicesdir ++ searchMatch u := by
    simp only [List.mem_append, not_or]
    refine ⟨?_, r.servicesdir_plain, searchMatch_plain hu⟩
    unfold searchMatch
    cases u.inst <;> simp
  have hdemand : (!u.isActivated || u.isTemplate) = !onDemand u := by
    unfold onDemand
    cases u.isActivated <;> cases u.isTemplate <;> rfl
  unfold addDbusActivation DbusRecipe.activationTexts
  rw [hdemand]
  cases onDemand u with
  | false =>
    simp only [Bool.not_false, if_true, Bool.false_eq_true, if_false, ite_self]
    exact Adds.refl d
  | true =>
    have ha : Adds d (d.setDoappend defaultDbusActivations (r.activationText pkg u) ' ') _ _ _ :=
      adds_activations htext.1 htext.2
    have hdir := (ha.sameInputs hd).servicesdir
    unfold DbusRecipe.activationText at ha hdir
    simp only [Bool.not_true, Bool.false_eq_true, if_false, hready, Bool.not_false, if_true]
    rw [hd.getUser, hdir]
    exact ha.trans (adds_files hpath.1 hpath.2)

theorem scratch_service (pkg : Str) : Scratch (systemdService pkg) where
  input := not_isInput_append (by decide +kernel) (by decide +kernel)
  configs := append_ne 1 (by decide +kernel) (by decide +kernel)
  activations := append_ne 1 (by decide +kernel) (by decide +kernel)
  files p he := by
    have hs : (systemdService pkg).head? = some 'S' := rfl
    rw [he] at hs
    exact absurd (hs.symm.trans (show (filesVar p).head? = some 'F' from rfl)) (by decide)

theorem scratch_substitutions : Scratch systemdSubstitutions where
  input h := absurd h.take (by decide +kernel)
  configs := by decide +kernel
  activations := by decide +kernel
  files p := filesVar_ne_substitutions p

theorem scratch_packages : Scratch systemdPackages where
  input h := absurd h.take (by decide +kernel)
  configs := by decide +kernel
  activations := by decide +kernel
  files p := (append_ne 1 (by decide +kernel) (by decide +kernel)).symm

/-- A unit adds its texts and, to `FILES` of its package, its files. -/
theorem adds_unit (hready : ∀ f, ready f = false) (hd : SameInputs r d) (hu : ' ' ∉ u.name) :
    Adds d (addDbusUnit ready pkg d u) [r.configText pkg u] (r.activationTexts pkg u)
      fun p => if p = pkg then r.unitFiles u else [] := by
  have hc := adds_config hready hd hu pkg
  have ha := adds_activation hready (hc.sameInputs hd) hu pkg
  have h := ((hc.trans ha).trans (adds_scratch (scratch_service pkg) _ u.name)).trans
    (adds_scratch scratch_substitutions _ (entryText "BUSNAME".toList u.base u.name))
  refine ⟨h.configs, h.activations.trans (by simp), fun p => ?_, h.inputs⟩
  have hfiles := h.files p
  rw [addDbusUnit, hfiles]
  by_cases hp : p = pkg <;> simp [hp, DbusRecipe.unitFiles]

theorem services_plain {name : Str} (h : name ∈ r.services pkg) : ' ' ∉ name :=
  not_mem_of_mem_splitOn (List.mem_filter.1 h).1

/-- The units of the loop are those listed that are not instances, and the templates of the
instances. -/
theorem mem_units : u ∈ r.units pkg ↔ (u.name ∈ r.services pkg ∧ ¬ u.isInstance) ∨
    ∃ i : SystemdUnit, i.name ∈ r.services pkg ∧ i.isInstance ∧ i.template = some u.name := by
  unfold DbusRecipe.units loopUnits
  simp only [List.mem_append, List.mem_map, List.mem_dedup, List.mem_filterMap, List.mem_filter]
  constructor
  · rintro (⟨t, ⟨i, ⟨⟨name, hname, rfl⟩, hi⟩, ht⟩, rfl⟩ | ⟨⟨name, hname, rfl⟩, hi⟩)
    · exact .inr ⟨⟨name⟩, hname, hi, ht⟩
    · exact .inl ⟨hname, by simpa using hi⟩
  · rintro (⟨hname, hi⟩ | ⟨i, hname, hi, ht⟩)
    · exact .inr ⟨⟨u.name, hname, rfl⟩, by simpa using hi⟩
    · exact .inl ⟨u.name, ⟨i, ⟨⟨i.name, hname, rfl⟩, hi⟩, ht⟩, rfl⟩

theorem template_of_isInstance (h : u.isInstance) :
    u.template = some (u.base ++ "@.".toList ++ u.cls) := if_pos h

theorem isTemplate_of_template {i : SystemdUnit} (hi : i.isInstance)
    (ht : i.template = some u.name) : u.isTemplate := by
  rw [template_of_isInstance hi, Option.some_inj] at ht
  rw [SystemdUnit.isTemplate, contains, decide_eq_true_eq]
  exact ⟨i.base, i.cls, ht⟩

theorem units_plain (h : u ∈ r.units pkg) : ' ' ∉ u.name := by
  rcases mem_units.1 h with ⟨hname, -⟩ | ⟨i, hname, hi, ht⟩
  · exact services_plain hname
  · have hplain := services_plain hname
    have hat : ' ' ∉ "@.".toList := by decide
    rw [template_of_isInstance hi, Option.some_inj] at ht
    rw [← ht]
    simp only [List.mem_append, not_or]
    exact ⟨⟨fun hm => hplain (mem_of_mem_base hm), hat⟩,
      fun hm => hplain (mem_of_mem_rpartition_snd hm)⟩

theorem adds_package (hready : ∀ f, ready f = false) (hd : SameInputs r d) :
    Adds d (addDbusPackage ready d pkg) ((r.units pkg).map (r.configText pkg))
      ((r.units pkg).flatMap (r.activationTexts pkg))
      fun p => if p = pkg then (r.units pkg).flatMap r.unitFiles else [] := by
  have hpackages : Adds d (if contains pkg ((d.get? systemdPackages).getD []) then d
      else d.setDoappend systemdPackages pkg ' ') [] [] fun _ => [] := by
    split
    · exact Adds.refl d
    · exact adds_scratch scratch_packages d pkg
  have hd₁ := hpackages.sameInputs hd
  unfold addDbusPackage
  simp only
  rw [hd₁.services]
  have hinst := Adds.foldl (((r.services pkg).map SystemdUnit.mk).filter (·.isInstance))
    (fun d unit => d.setDoappend (systemdService pkg) unit.name ' ')
    (fun d _ x _ => adds_scratch (scratch_service pkg) d x.name) hd₁
  have hunits := Adds.foldl (r.units pkg) (addDbusUnit ready pkg)
    (fun d hd x hx => adds_unit hready hd (units_plain hx)) (hinst.sameInputs hd₁)
  have h := (hpackages.trans hinst).trans hunits
  refine ⟨h.configs.trans ?_, h.activations.trans ?_, fun p => (h.files p).trans ?_, h.inputs⟩
  · simp [List.map_eq_flatMap]
  · simp
  · by_cases hp : p = pkg <;> simp [hp]

/-- What the whole loop adds. -/
theorem adds_parse (r : DbusRecipe) (hready : ∀ f, ready f = false) :
    Adds r.store (dbusParse ready r.store)
      (r.packages.flatMap fun pkg => (r.units pkg).map (r.configText pkg))
      (r.packages.flatMap fun pkg => (r.units pkg).flatMap (r.activationTexts pkg))
      fun p => r.packages.flatMap fun pkg =>
        if p = pkg then (r.units pkg).flatMap r.unitFiles else [] :=
  Adds.foldl r.packages (addDbusPackage ready) (fun _ hd _ _ => adds_package hready hd)
    fun _ _ => rfl

end Loop

/-! ### The files -/

section Files
variable {make : DbusFiles → SystemdUnit → Str → DbusFiles} {fs fs' : DbusFiles}

theorem withUser_ok_iff {service user : Str} : withUser make fs (service ++ ':' :: user) = .ok fs' ↔
    (':' ∉ service ∧ ':' ∉ user) ∧ fs' = make fs ⟨service⟩ user := by
  unfold withUser
  rw [bindExcept_ok_iff]
  constructor
  · rintro ⟨p, hp, h⟩
    obtain ⟨hno, rfl⟩ := subsEntry_append.1 hp
    exact ⟨hno, (Except.ok.inj h).symm⟩
  · rintro ⟨hno, rfl⟩
    exact ⟨_, subsEntry_append.2 ⟨hno, rfl⟩, rfl⟩

/-- A list of units with their users is taken apart when there is no other colon. -/
theorem foldlM_withUser {cs : List (SystemdUnit × Str)} :
    (cs.map fun c => c.1.name ++ ':' :: c.2).foldlM (withUser make) fs = .ok fs' ↔
      (∀ c ∈ cs, ':' ∉ c.1.name ∧ ':' ∉ c.2) ∧ fs' = cs.foldl (fun fs c => make fs c.1 c.2) fs := by
  induction cs generalizing fs with
  | nil =>
    constructor
    · intro h
      exact ⟨fun c hc => absurd hc List.not_mem_nil, (Except.ok.inj h).symm⟩
    · rintro ⟨-, rfl⟩
      rfl
  | cons c cs ih =>
    rw [List.map_cons, List.foldlM_cons, bindExcept_ok_iff]
    constructor
    · rintro ⟨fs₁, h₁, h⟩
      obtain ⟨hc, rfl⟩ := withUser_ok_iff.1 h₁
      obtain ⟨hcs, hfs⟩ := ih.1 h
      exact ⟨List.forall_mem_cons.2 ⟨hc, hcs⟩, hfs⟩
    · rintro ⟨hall, hfs⟩
      obtain ⟨hc, hcs⟩ := List.forall_mem_cons.1 hall
      exact ⟨_, withUser_ok_iff.2 ⟨hc, rfl⟩, ih.2 ⟨hcs, hfs⟩⟩

theorem foldl_config {cs : List (SystemdUnit × Str)} :
    (cs.foldl (fun fs c => makeDefaultDbusConfig fs c.1 c.2) fs).activations = fs.activations ∧
    ∀ f, f ∈ (cs.foldl (fun fs c => makeDefaultDbusConfig fs c.1 c.2) fs).policies ↔
      f ∈ fs.policies ∨ ∃ c ∈ cs, f = confFile c.1 := by
  induction cs generalizing fs with
  | nil => simp
  | cons c cs ih =>
    rw [List.foldl_cons]
    refine ⟨ih.1, fun f => (ih.2 f).trans ?_⟩
    show f ∈ fs.policies.set (confFile c.1) _ ∨ _ ↔ _
    rw [Dict.mem_set, List.exists_mem_cons_iff]
    tauto

theorem foldl_activation_policies {cs : List (SystemdUnit × Str)} :
    (cs.foldl (fun fs c => makeDefaultDbusActivation fs c.1 c.2) fs).policies = fs.policies := by
  induction cs generalizing fs with
  | nil => rfl
  | cons c cs ih =>
    rw [List.foldl_cons, ih]
    rfl

end Files

/-! ### The condition -/

namespace DbusRecipe
variable (r : DbusRecipe)

/-- The policies that are written, in order. -/
def policyUsers : List (SystemdUnit × Str) :=
  r.packages.flatMap fun pkg => (r.units pkg).map fun u => (u, r.user u pkg)

/-- The activations that are written, in order. -/
def activationUsers : List (SystemdUnit × Str) :=
  r.packages.flatMap fun pkg =>
    ((r.units pkg).filter onDemand).map fun u => (u, getUser r.store u.base pkg)

end DbusRecipe

section Agreement
variable {r : DbusRecipe} {ready : Str → Bool} {pkg : Str} {u : SystemdUnit}

theorem mem_policyUsers {c : SystemdUnit × Str} : c ∈ r.policyUsers ↔
    ∃ pkg ∈ r.packages, ∃ u ∈ r.units pkg, (u, r.user u pkg) = c := by
  simp [DbusRecipe.policyUsers]

theorem mem_activationUsers {c : SystemdUnit × Str} (h : c ∈ r.activationUsers) :
    ∃ pkg ∈ r.packages, c.1 ∈ r.units pkg ∧ onDemand c.1 := by
  obtain ⟨pkg, hpkg, hc⟩ := List.mem_flatMap.1 h
  obtain ⟨u, hu, rfl⟩ := List.mem_map.1 hc
  exact ⟨pkg, hpkg, List.mem_filter.1 hu⟩

theorem flatMap_activationTexts (us : List SystemdUnit) :
    us.flatMap (r.activationTexts pkg) = (us.filter onDemand).map (r.activationText pkg) := by
  induction us with
  | nil => rfl
  | cons u us ih =>
    rw [List.flatMap_cons, ih, DbusRecipe.activationTexts, List.filter_cons]
    split <;> rfl

theorem dbusDoPostinst_ok_iff (hready : ∀ f, ready f = false) {fs : DbusFiles} :
    dbusDoPostinst (dbusParse ready r.store) = .ok fs ↔
      (∀ c ∈ r.policyUsers, ':' ∉ c.1.name ∧ ':' ∉ c.2) ∧
      (∀ c ∈ r.activationUsers, ':' ∉ c.1.name ∧ ':' ∉ c.2) ∧
      fs = r.activationUsers.foldl (fun fs c => makeDefaultDbusActivation fs c.1 c.2)
        (r.policyUsers.foldl (fun fs c => makeDefaultDbusConfig fs c.1 c.2) ⟨.empty, .empty⟩) := by
  have h := adds_parse r hready
  have hconfigs : (dbusParse ready r.store).listvar defaultDbusConfigs =
      r.policyUsers.map fun c => c.1.name ++ ':' :: c.2 := by
    rw [h.configs, r.configs_nil, List.nil_append, DbusRecipe.policyUsers, List.map_flatMap]
    simp only [List.map_map]
    rfl
  have hactivations : (dbusParse ready r.store).listvar defaultDbusActivations =
      r.activationUsers.map fun c => c.1.name ++ ':' :: c.2 := by
    rw [h.activations, r.activations_nil, List.nil_append, DbusRecipe.activationUsers,
      List.map_flatMap]
    simp only [List.map_map, flatMap_activationTexts]
    rfl
  unfold dbusDoPostinst
  rw [hconfigs, hactivations, bindExcept_ok_iff]
  constructor
  · rintro ⟨fs₁, h₁, h₂⟩
    obtain ⟨hp, rfl⟩ := foldlM_withUser.1 h₁
    obtain ⟨ha, hfs⟩ := foldlM_withUser.1 h₂
    exact ⟨hp, ha, hfs⟩
  · rintro ⟨hp, ha, hfs⟩
    exact ⟨_, foldlM_withUser.2 ⟨hp, rfl⟩, foldlM_withUser.2 ⟨ha, hfs⟩⟩

/-- A unit that is started on demand is listed itself. -/
theorem onDemand_listed (hu : u ∈ r.units pkg) (hd : onDemand u) :
    u.name ∈ r.services pkg ∧ ¬ u.isInstance ∧ u.isActivated ∧ ¬ u.isTemplate := by
  rw [onDemand, Bool.and_eq_true, Bool.not_eq_true'] at hd
  have hno : ¬ u.isTemplate := by simp [hd.2]
  rcases mem_units.1 hu with ⟨hname, hi⟩ | ⟨i, -, hi, ht⟩
  · exact ⟨hname, hi, hd.1, hno⟩
  · exact absurd (isTemplate_of_template hi ht) hno

theorem policyPath_inj {u v : SystemdUnit} : r.policyPath u = r.policyPath v ↔ u.base = v.base := by
  rw [DbusRecipe.policyPath, DbusRecipe.policyPath, List.append_right_inj, confFile, confFile,
    List.append_left_inj]

/-- The name of the unit in an activation is longer than any name that it could be. -/
theorem systemdService_ne (name : Str) : "dbus-".toList ++ name ++ ".service".toList ≠ name := by
  intro h
  have hlen := congrArg List.length h
  simp only [List.length_append] at hlen
  have hpos : 0 < "dbus-".toList.length := by decide
  omega

/-- The last activation that is written is wrong. -/
theorem no_onDemand (hready : ∀ f, ready f = false) (h : DbusFilesAgree ready r) :
    r.activationUsers = [] := by
  obtain ⟨fs, hrun, hall⟩ := h
  obtain ⟨-, -, hfs⟩ := (dbusDoPostinst_ok_iff hready).1 hrun
  rcases List.eq_nil_or_concat r.activationUsers with hnil | ⟨cs, c, hcs⟩
  · exact hnil
  obtain ⟨pkg, hpkg, hu, hd⟩ := mem_activationUsers (c := c) (r := r) (by rw [hcs]; simp)
  obtain ⟨hname, hi, hact, ht⟩ := onDemand_listed hu hd
  obtain ⟨⟨a, p, ha, -, -, hservice, -⟩, -⟩ := (hall pkg hpkg).2 c.1 hname hact ht
  have hinst : c.1.inst = none := if_neg hi
  rw [hfs, hcs, List.concat_eq_append, List.foldl_concat, makeDefaultDbusActivation, hinst] at ha
  rw [Dict.get?_set_self, Option.some_inj] at ha
  rw [← ha] at hservice
  exact absurd hservice (systemdService_ne c.1.name)

theorem mem_files (hready : ∀ f, ready f = false) {path : Str} (hpkg : pkg ∈ r.packages) :
    path ∈ (dbusParse ready r.store).listvar (filesVar pkg) ↔
      path ∈ r.store.listvar (filesVar pkg) ∨ ∃ u ∈ r.units pkg, path ∈ r.unitFiles u := by
  rw [(adds_parse r hready).files, List.mem_append, List.mem_flatMap]
  refine or_congr_right ⟨?_, fun ⟨u, hu, hp⟩ => ⟨pkg, hpkg, ?_⟩⟩
  · rintro ⟨pkg', -, hp⟩
    split at hp
    · rename_i he
      rw [he]
      exact List.mem_flatMap.1 hp
    · cases hp
  · rw [if_pos rfl]
    exact List.mem_flatMap.2 ⟨u, hu, hp⟩

theorem mem_policies (hready : ∀ f, ready f = false) {fs : DbusFiles}
    (hrun : dbusDoPostinst (dbusParse ready r.store) = .ok fs) {f : Str} :
    f ∈ fs.policies ↔ ∃ pkg ∈ r.packages, ∃ u ∈ r.units pkg, f = confFile u := by
  obtain ⟨-, -, rfl⟩ := (dbusDoPostinst_ok_iff hready).1 hrun
  rw [foldl_activation_policies, foldl_config.2]
  constructor
  · rintro (h | ⟨c, hc, rfl⟩)
    · exact absurd h List.not_mem_nil
    · obtain ⟨pkg, hpkg, u, hu, rfl⟩ := mem_policyUsers.1 hc
      exact ⟨pkg, hpkg, u, hu, rfl⟩
  · rintro ⟨pkg, hpkg, u, hu, rfl⟩
    exact .inr ⟨_, mem_policyUsers.2 ⟨pkg, hpkg, u, hu, rfl⟩, rfl⟩

theorem DbusFilesAgree.regular (hready : ∀ f, ready f = false) (h : DbusFilesAgree ready r) :
    DbusRegular r := by
  have hnone := no_onDemand hready h
  have hdemand : ∀ pkg ∈ r.packages, ∀ u ∈ r.units pkg, ¬ onDemand u := fun pkg hpkg u hu hd => by
    have hm : (u, getUser r.store u.base pkg) ∈ r.activationUsers :=
      List.mem_flatMap.2 ⟨pkg, hpkg, List.mem_map_of_mem (List.mem_filter.2 ⟨hu, hd⟩)⟩
    rw [hnone] at hm
    cases hm
  obtain ⟨fs, hrun, hall⟩ := h
  obtain ⟨hcolon, -, hfs⟩ := (dbusDoPostinst_ok_iff hready).1 hrun
  refine { notActivated := ?_, noColon := ?_, templates := ?_ }
  · intro pkg hpkg u hname hact
    by_contra ht
    obtain ⟨⟨a, p, ha, -⟩, -⟩ := (hall pkg hpkg).2 u hname hact ht
    rw [hfs, hnone, List.foldl_nil, foldl_config.1, Dict.get?_empty] at ha
    cases ha
  · exact fun pkg hpkg u hu => hcolon _ (mem_policyUsers.2 ⟨pkg, hpkg, u, hu, rfl⟩)
  · intro pkg hpkg n hn
    obtain ⟨hpol, hpath⟩ := (hall pkg hpkg).1 _ (.inr ⟨n, hn, rfl⟩)
    constructor
    · obtain ⟨pkg', hpkg', u, hu, he⟩ := (mem_policies hready hrun).1 hpol
      exact ⟨pkg', hpkg', u, hu, ((List.append_left_inj _).1 he).symm⟩
    · refine ((mem_files hready hpkg).1 hpath).imp_right ?_
      rintro ⟨u, hu, hp⟩
      rw [DbusRecipe.unitFiles, if_neg (hdemand pkg hpkg u hu), List.mem_singleton] at hp
      exact ⟨u, hu, (policyPath_inj.1 hp).symm⟩

theorem DbusRegular.agree (hready : ∀ f, ready f = false) (h : DbusRegular r) :
    DbusFilesAgree ready r := by
  have hnone : r.activationUsers = [] := List.eq_nil_iff_forall_not_mem.2 fun c hc => by
    obtain ⟨pkg, hpkg, hu, hd⟩ := mem_activationUsers hc
    obtain ⟨hname, -, hact, ht⟩ := onDemand_listed hu hd
    exact ht (h.notActivated pkg hpkg _ hname hact)
  have hrun := (dbusDoPostinst_ok_iff hready (r := r)).2 ⟨fun c hc => by
    obtain ⟨pkg, hpkg, u, hu, rfl⟩ := mem_policyUsers.1 hc
    exact h.noColon pkg hpkg u hu, by simp [hnone], rfl⟩
  refine ⟨_, hrun, fun pkg hpkg => ⟨fun u hreq => ?_, fun u hname hact ht => ?_⟩⟩
  · rw [mem_policies hready hrun, mem_files hready hpkg]
    have hown : ∀ v ∈ r.units pkg, r.policyPath v ∈ r.unitFiles v := fun v _ =>
      List.mem_cons_self
    rcases hreq with ⟨hname, hi⟩ | ⟨n, hn, rfl⟩
    · have hu : u ∈ r.units pkg := mem_units.2 (.inl ⟨hname, hi⟩)
      exact ⟨⟨pkg, hpkg, u, hu, rfl⟩, .inr ⟨u, hu, hown u hu⟩⟩
    · obtain ⟨⟨pkg', hpkg', v, hv, hbase⟩, hpath⟩ := h.templates pkg hpkg n hn
      refine ⟨⟨pkg', hpkg', v, hv, ?_⟩, hpath.imp_right ?_⟩
      · rw [confFile, confFile, hbase]
      · rintro ⟨w, hw, hbase⟩
        rw [policyPath_inj.2 hbase.symm]
        exact ⟨w, hw, hown w hw⟩
  · exact absurd (h.notActivated pkg hpkg u hname hact) ht

end Agreement

namespace Sample

def serviceVars (service : String) : List (Str × Str) :=
  [(dbusPackages, "app".toList), (dbusService "app".toList, service.toList)]

def serviceStore (service : String) : DataStore := Dict.ofList (serviceVars service)

theorem get?_serviceStore {service : String} {var : Str}
    (h : var ∉ [dbusPackages, dbusService "app".toList]) :
    (serviceStore service).get? var = none :=
  Dict.get?_eq_none_iff.2 fun hm => h (Dict.mem_ofList.1 hm)

theorem listvar_serviceStore {service : String} {var : Str}
    (h : var ∉ [dbusPackages, dbusService "app".toList]) :
    (serviceStore service).listvar var = [] := by
  rw [DataStore.listvar, get?_serviceStore h]
  rfl

theorem varText_serviceStore {service : String} {var : Str}
    (h : var ∉ [dbusPackages, dbusService "app".toList]) :
    ' ' ∉ varText (serviceStore service) var := by
  rw [varText, get?_serviceStore h]
  decide

theorem user_serviceStore {service : String} (h : ' ' ∉ service.toList) {key : Str}
    (user : Str) (hu : (serviceStore service).get? key = some user) : ' ' ∉ user := by
  have hm := Dict.mem_of_get?_ofList hu
  simp only [serviceVars, List.mem_cons, Prod.mk.injEq, List.not_mem_nil, or_false] at hm
  rcases hm with ⟨-, rfl⟩ | ⟨-, rfl⟩
  · decide
  · exact h

/-- A recipe with the package `app` and one service without blanks. -/
def serviceRecipe (service : String) (h : ' ' ∉ service.toList) : DbusRecipe where
  store := serviceStore service
  configs_nil := listvar_serviceStore (by decide +kernel)
  activations_nil := listvar_serviceStore (by decide +kernel)
  confdir_plain := varText_serviceStore (by decide +kernel)
  servicesdir_plain := varText_serviceStore (by decide +kernel)
  user_plain _ := user_serviceStore h

end Sample

end Systemd
end OpenBmc
