import OpenBmc.Systemd.Unit
import OpenBmc.Py.Words
import OpenBmc.Lib.Dict
import OpenBmc.Lib.Wp

/-!
# Users of systemd units

`addSdUser` asks for a system user by adding text to `USERADD_PARAM:<pkg>` and `USERADD_PACKAGES`,
unless that text occurs there already, anywhere. A sequence of calls creates every user it asks for
exactly when each call finds either its user's entry or no occurrence of the name at all
(`StepsOk`).
-/

namespace OpenBmc
namespace Systemd
open Py

/-- The variables of a recipe with their expanded values. Text that is appended behind a separator is
expanded apart from what stands before it. -/
abbrev DataStore := Dict Str Str

namespace DataStore
variable (d : DataStore)

def appendVar (var value : Str) : DataStore := d.set var ((d.get? var).getD [] ++ value)

/-- `set_doappend`. In Python 3 `filter(bool, values)` is an object, which is true, so that the
separator is written before the first value too. -/
def setDoappend (var val : Str) (sep : Char) : DataStore := d.appendVar var (sep :: val)

def listvar (var : Str) : List Str := listvarToList (d.get? var)

end DataStore

inductive ParseError
  | fatal (msg : Str)
  /-- A search in an unset variable, which is `None`. -/
  | typeError
  deriving DecidableEq

def systemdSubstitutions : Str := "SYSTEMD_SUBSTITUTIONS".toList

def systemdUser (key : Str) : Str := "SYSTEMD_USER_".toList ++ key

def useraddPackages : Str := "USERADD_PACKAGES".toList

def useraddParam (pkg : Str) : Str := "USERADD_PARAM:".toList ++ pkg

def opts : List Str :=
  ["--system".toList, "--home".toList, "/".toList, "--no-create-home".toList,
    "--shell /sbin/nologin".toList, "--user-group".toList]

/-- `d.getVar(var, True)`, where the value is searched. -/
def getText (d : DataStore) (var : Str) : Except ParseError Str :=
  (d.get? var).elim (.error .typeError) .ok

/-- The variable that assigns the user of a file, and the users it names. -/
def sdUsers (d : DataStore) (file pkg : Str) : Str × List Str :=
  if (d.listvar (systemdUser file)).length = 0 then (systemdUser pkg, d.listvar (systemdUser pkg))
  else (systemdUser file, d.listvar (systemdUser file))

/-- `' '.join(opts + [user])`. -/
def useraddEntry (user : Str) : Str := [' '].intercalate (opts ++ [user])

def addSdUser (d : DataStore) (file pkg : Str) : Except ParseError DataStore :=
  match sdUsers d file pkg with
  | (_, []) => .ok d
  | (_, [user]) => do
    let d := d.setDoappend systemdSubstitutions ("USER:".toList ++ user ++ ':' :: file) ' '
    let param ← getText d (useraddParam pkg)
    let d := if contains user param then d
      else d.setDoappend (useraddParam pkg) (useraddEntry user) ';'
    let packages ← getText d useraddPackages
    return if contains pkg packages then d else d.setDoappend useraddPackages pkg ' '
  | (var, users) => .error (.fatal ("Too many users assigned to ".toList ++ var ++ ": '".toList ++
      [' '].intercalate users ++ "'".toList))

/-- One call of `add_sd_user`. -/
structure UserCall where
  file : Str
  pkg : Str

namespace UserCall

def users (d : DataStore) (call : UserCall) : List Str := (sdUsers d call.file call.pkg).2

def run (d : DataStore) (calls : List UserCall) : Except ParseError DataStore :=
  calls.foldlM (fun d call => addSdUser d call.file call.pkg) d

end UserCall

/-- The entries of a `USERADD_PARAM` that end with a user. -/
def entriesFor (param user : Str) : List Str :=
  (param.splitOn ';').filter fun e => (words e).getLast? = some user

/-- `useradd` is run for the package, and creates the user once. -/
structure Created (d : DataStore) (pkg user : Str) : Prop where
  package : ∃ packages, d.get? useraddPackages = some packages ∧ pkg ∈ words packages
  entry : ∃ param, d.get? (useraddParam pkg) = some param ∧ (entriesFor param user).length = 1

/-- The calls run through, and every user they found is created. -/
def AllCreated (d : DataStore) (calls : List UserCall) : Prop :=
  ∃ d', UserCall.run d calls = .ok d' ∧
    ∀ call ∈ calls, ∀ user, call.users d = [user] → Created d' call.pkg user

/-- What a call needs of the variables before it: they are set, and each of the two searches finds
the name as a whole or not at all. -/
def StepOk (d : DataStore) (call : UserCall) : Prop :=
  ∀ user, call.users d = [user] → ∃ param packages,
    d.get? (useraddParam call.pkg) = some param ∧ d.get? useraddPackages = some packages ∧
    ((entriesFor param user).length = 1 ∨ ¬ user <:+: param ∧ IsWord user ∧ ';' ∉ user) ∧
    (call.pkg ∈ words packages ∨ ¬ call.pkg <:+: packages ∧ IsWord call.pkg)

/-- Every call of a run finds the variables as it needs them. -/
def StepsOk (d : DataStore) : List UserCall → Prop
  | [] => True
  | call :: calls => StepOk d call ∧
      ∀ d', addSdUser d call.file call.pkg = .ok d' → StepsOk d' calls

/-! ### Entries -/

theorem intercalate_concat {sep : Char} {l : List Str} (hl : l ≠ []) (s : Str) :
    [sep].intercalate (l ++ [s]) = [sep].intercalate l ++ sep :: s := by
  obtain ⟨f, ts, rfl⟩ := List.exists_cons_of_ne_nil hl
  rw [List.cons_append, intercalate_cons, intercalate_cons]
  simp

theorem useraddEntry_eq (user : Str) :
    useraddEntry user = [' '].intercalate opts ++ ' ' :: user :=
  intercalate_concat (by decide) user

theorem useraddEntry_plain {user : Str} (h : ';' ∉ user) : ';' ∉ useraddEntry user := by
  have hopts : ';' ∉ [' '].intercalate opts := by decide
  rw [useraddEntry_eq, List.mem_append, List.mem_cons, not_or, not_or]
  exact ⟨hopts, by decide, h⟩

theorem words_useraddEntry {user : Str} (h : IsWord user) :
    (words (useraddEntry user)).getLast? = some user := by
  rw [useraddEntry_eq, words_append_space, h.words, List.getLast?_concat]

section Entries
variable {param user user' e : Str}

theorem mem_entriesFor (h : e ∈ entriesFor param user) :
    IsWord user ∧ ';' ∉ user ∧ user <:+: param := by
  obtain ⟨he, hlast⟩ := List.mem_filter.1 h
  have hword : user ∈ words e := List.mem_of_getLast? (by simpa using hlast)
  have hin := infix_of_mem_words hword
  rw [List.splitOn_eq_splitOnP] at he
  obtain ⟨hno, he⟩ := mem_splitOnP he
  exact ⟨isWord_of_mem_words hword, fun hm => hno ';' (hin.subset hm) (by decide), hin.trans he⟩

theorem entriesFor_of_absent (h : ¬ user <:+: param) : entriesFor param user = [] :=
  List.eq_nil_iff_forall_not_mem.2 fun _ he => h (mem_entriesFor he).2.2

/-- An entry that is added counts for its own user only. -/
theorem entriesFor_append (hw : IsWord user') (hu : ';' ∉ user') :
    entriesFor (param ++ ';' :: useraddEntry user') user =
      entriesFor param user ++ if user' = user then [useraddEntry user'] else [] := by
  rw [entriesFor, List.splitOn_append_cons_self, List.filter_append,
    List.splitOn_eq_singleton (useraddEntry_plain hu), List.filter_singleton, words_useraddEntry hw]
  simp [entriesFor]

end Entries

/-! ### One call -/

/-- What a call for a user does. -/
structure Asked (d d' : DataStore) (call : UserCall) (user param packages : Str) : Prop where
  users : call.users d = [user]
  oldParam : d.get? (useraddParam call.pkg) = some param
  oldPackages : d.get? useraddPackages = some packages
  newParam : d'.get? (useraddParam call.pkg) =
    some (if user <:+: param then param else param ++ ';' :: useraddEntry user)
  newPackages : d'.get? useraddPackages =
    some (if call.pkg <:+: packages then packages else packages ++ ' ' :: call.pkg)
  substitutions : d'.get? systemdSubstitutions =
    some ((d.get? systemdSubstitutions).getD [] ++ ' ' :: ("USER:".toList ++ user ++ ':' :: call.file))
  frame : ∀ var, var ≠ useraddParam call.pkg → var ≠ useraddPackages →
    var ≠ systemdSubstitutions → d'.get? var = d.get? var

theorem append_ne {s t u : Str} (n : Nat) (hn : n ≤ s.length) (h : s.take n ≠ u.take n) :
    s ++ t ≠ u := fun he => h (by
  rw [← he, List.take_append_of_le_length hn])

theorem useraddParam_ne_packages (pkg : Str) : useraddParam pkg ≠ useraddPackages :=
  append_ne 14 (by decide +kernel) (by decide +kernel)

theorem useraddParam_ne_substitutions (pkg : Str) : useraddParam pkg ≠ systemdSubstitutions :=
  append_ne 1 (by decide +kernel) (by decide +kernel)

theorem useraddPackages_ne_substitutions : useraddPackages ≠ systemdSubstitutions := by
  decide +kernel

theorem systemdUser_ne_param (key pkg : Str) : systemdUser key ≠ useraddParam pkg := fun h => by
  have hs : (systemdUser key).head? = some 'S' := rfl
  have hu : (useraddParam pkg).head? = some 'U' := rfl
  rw [h, hu] at hs
  exact absurd hs (by decide)

theorem systemdUser_ne_packages (key : Str) : systemdUser key ≠ useraddPackages :=
  append_ne 1 (by decide +kernel) (by decide +kernel)

theorem systemdUser_ne_substitutions (key : Str) : systemdUser key ≠ systemdSubstitutions :=
  append_ne 10 (by decide +kernel) (by decide +kernel)

theorem useraddParam_inj {pkg pkg' : Str} : useraddParam pkg = useraddParam pkg' ↔ pkg = pkg' :=
  List.append_right_inj _

theorem DataStore.get?_setDoappend (d : DataStore) (var val v : Str) (sep : Char) :
    (d.setDoappend var val sep).get? v =
      if v = var then some ((d.get? var).getD [] ++ sep :: val) else d.get? v :=
  Dict.get?_set ..

/-- A value that is added unless a text is found in another. -/
theorem DataStore.get?_unless (d : DataStore) (sub s var val v : Str) (sep : Char) :
    (if contains sub s then d else d.setDoappend var val sep).get? v =
      if v = var ∧ ¬ sub <:+: s then some ((d.get? var).getD [] ++ sep :: val) else d.get? v := by
  by_cases hc : sub <:+: s
  · rw [if_pos (show contains sub s by simpa [contains] using hc), if_neg fun h => h.2 hc]
  · rw [if_neg (show ¬ contains sub s by simpa [contains] using hc), get?_setDoappend]
    simp [hc]

theorem getText_some {d : DataStore} {var s : Str} (h : d.get? var = some s) :
    getText d var = .ok s := by rw [getText, h]; rfl

theorem getText_eq_ok {d : DataStore} {var s : Str} (h : getText d var = .ok s) :
    d.get? var = some s := by
  unfold getText at h
  cases hv : d.get? var with
  | none => rw [hv] at h; cases h
  | some t => rw [hv] at h; cases h; rfl

section Call
variable {d d' : DataStore} {call : UserCall} {user : Str}

theorem addSdUser_none (h : call.users d = []) : addSdUser d call.file call.pkg = .ok d := by
  unfold UserCall.users at h
  unfold addSdUser
  rcases hs : sdUsers d call.file call.pkg with ⟨var, users⟩
  rw [hs] at h
  change users = [] at h
  rw [h]

theorem addSdUser_one (h : call.users d = [user]) : addSdUser d call.file call.pkg = (do
    let d := d.setDoappend systemdSubstitutions ("USER:".toList ++ user ++ ':' :: call.file) ' '
    let param ← getText d (useraddParam call.pkg)
    let d := if contains user param then d
      else d.setDoappend (useraddParam call.pkg) (useraddEntry user) ';'
    let packages ← getText d useraddPackages
    return if contains call.pkg packages then d else d.setDoappend useraddPackages call.pkg ' ') := by
  unfold UserCall.users at h
  unfold addSdUser
  rcases hs : sdUsers d call.file call.pkg with ⟨var, users⟩
  rw [hs] at h
  change users = [user] at h
  rw [h]

theorem addSdUser_spec (hu : (call.users d).length ≤ 1)
    (h : addSdUser d call.file call.pkg = .ok d') :
    call.users d = [] ∧ d' = d ∨ ∃ user param packages, Asked d d' call user param packages := by
  rcases hs : call.users d with _ | ⟨user, _ | ⟨user', users⟩⟩
  · rw [addSdUser_none hs] at h
    exact .inl ⟨rfl, (Except.ok.inj h).symm⟩
  · rw [addSdUser_one hs] at h
    obtain ⟨param, hparam, h⟩ := bindExcept_ok_iff.1 h
    obtain ⟨packages, hpackages, h⟩ := bindExcept_ok_iff.1 h
    have hparam := getText_eq_ok hparam
    have hpackages := getText_eq_ok hpackages
    have hinner := hpackages
    have hd := useraddParam_ne_packages call.pkg
    rw [DataStore.get?_setDoappend, if_neg (useraddParam_ne_substitutions _)] at hparam
    rw [DataStore.get?_unless, if_neg fun h => hd h.1.symm, DataStore.get?_setDoappend,
      if_neg useraddPackages_ne_substitutions] at hpackages
    cases h
    refine .inr ⟨user, param, packages, hs, hparam, hpackages, ?_, ?_, ?_, fun var h₁ h₂ h₃ => ?_⟩
    · rw [DataStore.get?_unless, if_neg fun h => hd h.1, DataStore.get?_unless,
        DataStore.get?_setDoappend, if_neg (useraddParam_ne_substitutions _), hparam]
      split_ifs with h₁ h₂ h₂
      exacts [absurd h₂ h₁.2, rfl, rfl, absurd ⟨rfl, h₂⟩ h₁]
    · rw [DataStore.get?_unless, hinner]
      split_ifs with h₁ h₂ h₂
      exacts [absurd h₂ h₁.2, rfl, rfl, absurd ⟨rfl, h₂⟩ h₁]
    · rw [DataStore.get?_unless, if_neg fun h => useraddPackages_ne_substitutions h.1.symm,
        DataStore.get?_unless, if_neg fun h => useraddParam_ne_substitutions _ h.1.symm,
        DataStore.get?_setDoappend, if_pos rfl]
    · rw [DataStore.get?_unless, if_neg fun h => h₂ h.1, DataStore.get?_unless,
        if_neg fun h => h₁ h.1, DataStore.get?_setDoappend, if_neg h₃]
  · rw [hs] at hu
    simp at hu

/-- A call for a user goes through when the two variables are set. -/
theorem addSdUser_ok {param packages : Str} (hu : call.users d = [user])
    (hparam : d.get? (useraddParam call.pkg) = some param)
    (hpackages : d.get? useraddPackages = some packages) :
    ∃ d', addSdUser d call.file call.pkg = .ok d' := by
  rw [addSdUser_one hu]
  refine ⟨_, bindExcept_ok_iff.2 ⟨param, getText_some ?_, bindExcept_ok_iff.2
    ⟨packages, getText_some ?_, rfl⟩⟩⟩
  · rw [DataStore.get?_setDoappend, if_neg (useraddParam_ne_substitutions _), hparam]
  · rw [DataStore.get?_unless, if_neg fun h => useraddParam_ne_packages _ h.1.symm,
      DataStore.get?_setDoappend, if_neg useraddPackages_ne_substitutions, hpackages]

theorem Asked.users_eq {param packages : Str} (h : Asked d d' call user param packages)
    (other : UserCall) : other.users d' = other.users d := by
  have hget : ∀ key, d'.get? (systemdUser key) = d.get? (systemdUser key) := fun key =>
    h.frame _ (systemdUser_ne_param _ _) (systemdUser_ne_packages _) (systemdUser_ne_substitutions _)
  unfold UserCall.users sdUsers DataStore.listvar
  rw [hget, hget]

/-- What a call that finds its variables as it needs them does to a user that stands in them, in
whatever way: nothing. -/
theorem Asked.entries {param packages : Str} (h : Asked d d' call user param packages)
    (hs : StepOk d call) {pkg user' p : Str} (hp : d.get? (useraddParam pkg) = some p)
    (hin : user' <:+: p) : ∃ p', d'.get? (useraddParam pkg) = some p' ∧ user' <:+: p' ∧
      (entriesFor p' user').length = (entriesFor p user').length := by
  obtain ⟨param', packages', hparam', -, huser, -⟩ := hs user h.users
  have hparam : param' = param := Option.some.inj (hparam'.symm.trans h.oldParam)
  rw [hparam] at huser
  by_cases hpkg : pkg = call.pkg
  · rw [hpkg, h.oldParam, Option.some_inj] at hp
    rw [← hp] at hin ⊢
    rw [hpkg, h.newParam]
    split_ifs with hc
    · exact ⟨param, rfl, hin, rfl⟩
    · refine ⟨_, rfl, hin.trans (List.prefix_append _ _).isInfix, ?_⟩
      have hne : user ≠ user' := fun he => hc (he ▸ hin)
      obtain ⟨-, hw, hsep⟩ := huser.resolve_left fun h1 => by
        rw [entriesFor_of_absent hc] at h1
        cases h1
      rw [entriesFor_append hw hsep, if_neg hne, List.append_nil]
  · refine ⟨p, ?_, hin, rfl⟩
    rw [h.frame _ (fun he => hpkg (useraddParam_inj.1 he)) (useraddParam_ne_packages _)
      (useraddParam_ne_substitutions _), hp]

theorem Asked.packages {param packages : Str} (h : Asked d d' call user param packages)
    (hs : StepOk d call) {pkg : Str} (hin : pkg <:+: packages) :
    ∃ packages', d'.get? useraddPackages = some packages' ∧ pkg <:+: packages' ∧
      (pkg ∈ words packages' ↔ pkg ∈ words packages) := by
  obtain ⟨-, packages', -, hold, -, hpkg⟩ := hs user h.users
  have hold : packages' = packages := Option.some.inj (hold.symm.trans h.oldPackages)
  rw [hold] at hpkg
  rw [h.newPackages]
  split_ifs with hc
  · exact ⟨packages, rfl, hin, Iff.rfl⟩
  · refine ⟨_, rfl, hin.trans (List.prefix_append _ _).isInfix, ?_⟩
    have hne : pkg ≠ call.pkg := fun he => hc (he ▸ hin)
    obtain ⟨-, hw⟩ := hpkg.resolve_left fun hm => hc (infix_of_mem_words hm)
    rw [words_append_space, hw.words, List.mem_append, List.mem_singleton]
    exact ⟨fun h => h.resolve_right hne, .inl⟩

/-- A call that finds its variables as it needs them has its user created. -/
theorem Asked.created {param packages : Str} (h : Asked d d' call user param packages)
    (hs : StepOk d call) : Created d' call.pkg user := by
  obtain ⟨param', packages', hparam', hpackages', huser, hpkg⟩ := hs user h.users
  have hparam : param' = param := Option.some.inj (hparam'.symm.trans h.oldParam)
  have hpackages : packages' = packages := Option.some.inj (hpackages'.symm.trans h.oldPackages)
  rw [hparam] at huser
  rw [hpackages] at hpkg
  refine { package := ⟨_, h.newPackages, ?_⟩, entry := ⟨_, h.newParam, ?_⟩ }
  · rcases hpkg with hm | ⟨hno, hw⟩
    · rwa [if_pos (infix_of_mem_words hm)]
    · rw [if_neg hno, words_append_space, hw.words]
      exact List.mem_append_right _ (List.mem_singleton_self _)
  · rcases huser with h1 | ⟨hno, hw, hsep⟩
    · obtain ⟨e, he⟩ := List.exists_mem_of_length_pos (by rw [h1]; exact Nat.one_pos)
      rwa [if_pos (mem_entriesFor he).2.2]
    · rw [if_neg hno, entriesFor_append hw hsep, if_pos rfl, entriesFor_of_absent hno]
      rfl

end Call

/-! ### Runs -/

section Runs
variable {d d' : DataStore} {calls : List UserCall}

theorem run_cons {call : UserCall} : UserCall.run d (call :: calls) = .ok d' ↔
    ∃ d₁, addSdUser d call.file call.pkg = .ok d₁ ∧ UserCall.run d₁ calls = .ok d' := by
  rw [UserCall.run, List.foldlM_cons]
  exact bindExcept_ok_iff

/-- The calls of a run name at most one user each, whatever was added before. -/
theorem users_le_one {call : UserCall} {d₁ : DataStore}
    (h : ∀ c ∈ call :: calls, (c.users d).length ≤ 1)
    (hstep : addSdUser d call.file call.pkg = .ok d₁) :
    ∀ c ∈ calls, c.users d₁ = c.users d := fun c _ => by
  rcases addSdUser_spec (h call (by simp)) hstep with ⟨-, rfl⟩ | ⟨user, param, packages, ha⟩
  · rfl
  · exact ha.users_eq c

/-- The number of entries of a user that stands in a `USERADD_PARAM` stays what it is. -/
theorem run_entries (hu : ∀ c ∈ calls, (c.users d).length ≤ 1) (hs : StepsOk d calls)
    (hr : UserCall.run d calls = .ok d') {pkg user p : Str}
    (hp : d.get? (useraddParam pkg) = some p) (hin : user <:+: p) :
    ∃ p', d'.get? (useraddParam pkg) = some p' ∧
      (entriesFor p' user).length = (entriesFor p user).length := by
  induction calls generalizing d p with
  | nil =>
    cases hr
    exact ⟨p, hp, rfl⟩
  | cons call calls ih =>
    obtain ⟨d₁, hstep, hrest⟩ := run_cons.1 hr
    have heq := users_le_one hu hstep
    have hu₁ : ∀ c ∈ calls, (c.users d₁).length ≤ 1 := fun c hc => by
      rw [heq c hc]
      exact hu c (by simp [hc])
    rcases addSdUser_spec (hu call (by simp)) hstep with ⟨-, rfl⟩ | ⟨user', param, packages, ha⟩
    · exact ih hu₁ (hs.2 _ hstep) hrest hp hin
    · obtain ⟨p₁, hp₁, hin₁, hlen⟩ := ha.entries hs.1 hp hin
      rw [← hlen]
      exact ih hu₁ (hs.2 _ hstep) hrest hp₁ hin₁

/-- A package that stands in `USERADD_PACKAGES` is a word of it or not, as it was. -/
theorem run_packages (hu : ∀ c ∈ calls, (c.users d).length ≤ 1) (hs : StepsOk d calls)
    (hr : UserCall.run d calls = .ok d') {pkg packages : Str}
    (hp : d.get? useraddPackages = some packages) (hin : pkg <:+: packages) :
    ∃ packages', d'.get? useraddPackages = some packages' ∧
      (pkg ∈ words packages' ↔ pkg ∈ words packages) := by
  induction calls generalizing d packages with
  | nil =>
    cases hr
    exact ⟨packages, hp, Iff.rfl⟩
  | cons call calls ih =>
    obtain ⟨d₁, hstep, hrest⟩ := run_cons.1 hr
    have heq := users_le_one hu hstep
    have hu₁ : ∀ c ∈ calls, (c.users d₁).length ≤ 1 := fun c hc => by
      rw [heq c hc]
      exact hu c (by simp [hc])
    rcases addSdUser_spec (hu call (by simp)) hstep with ⟨-, rfl⟩ | ⟨user', param, packages', ha⟩
    · exact ih hu₁ (hs.2 _ hstep) hrest hp hin
    · have heq : packages' = packages := Option.some.inj (ha.oldPackages.symm.trans hp)
      rw [← heq] at hin ⊢
      obtain ⟨packages₁, hp₁, hin₁, hiff⟩ := ha.packages hs.1 hin
      rw [← hiff]
      exact ih hu₁ (hs.2 _ hstep) hrest hp₁ hin₁

/-- What was created stays created. -/
theorem Created.run {pkg user : Str} (h : Created d pkg user)
    (hu : ∀ c ∈ calls, (c.users d).length ≤ 1) (hs : StepsOk d calls)
    (hr : UserCall.run d calls = .ok d') : Created d' pkg user := by
  obtain ⟨⟨packages, hp, hm⟩, ⟨param, hq, h1⟩⟩ := h
  obtain ⟨e, he⟩ := List.exists_mem_of_length_pos (by rw [h1]; exact Nat.one_pos)
  obtain ⟨packages', hp', hiff⟩ := run_packages hu hs hr hp (infix_of_mem_words hm)
  obtain ⟨param', hq', hlen⟩ := run_entries hu hs hr hq (mem_entriesFor he).2.2
  exact ⟨⟨packages', hp', hiff.2 hm⟩, ⟨param', hq', hlen.trans h1⟩⟩

theorem StepsOk.allCreated (hu : ∀ c ∈ calls, (c.users d).length ≤ 1) (hs : StepsOk d calls) :
    AllCreated d calls := by
  induction calls generalizing d with
  | nil => exact ⟨d, rfl, fun _ h => absurd h (by simp)⟩
  | cons call calls ih =>
    have hstep : ∃ d₁, addSdUser d call.file call.pkg = .ok d₁ := by
      rcases hf : call.users d with _ | ⟨user, _ | ⟨user', users⟩⟩
      · exact ⟨d, addSdUser_none hf⟩
      · obtain ⟨param, packages, hp, hq, -⟩ := hs.1 user hf
        exact addSdUser_ok hf hp hq
      · have := hu call (by simp)
        rw [hf] at this
        simp at this
    obtain ⟨d₁, hstep⟩ := hstep
    have heq := users_le_one hu hstep
    have hu₁ : ∀ c ∈ calls, (c.users d₁).length ≤ 1 := fun c hc => by
      rw [heq c hc]
      exact hu c (by simp [hc])
    obtain ⟨d', hrest, hall⟩ := ih hu₁ (hs.2 _ hstep)
    refine ⟨d', run_cons.2 ⟨d₁, hstep, hrest⟩, fun c hc user hf => ?_⟩
    rcases List.mem_cons.1 hc with rfl | hc
    · rcases addSdUser_spec (hu c (by simp)) hstep with ⟨hnil, -⟩ | ⟨user', param, packages, ha⟩
      · rw [hf] at hnil
        cases hnil
      · have hw : user' = user := by simpa [hf] using ha.users.symm
        rw [← hw]
        exact (ha.created hs.1).run hu₁ (hs.2 _ hstep) hrest
    · exact hall c hc user (by rw [heq c hc, hf])

theorem AllCreated.stepsOk (hu : ∀ c ∈ calls, (c.users d).length ≤ 1) (h : AllCreated d calls) :
    StepsOk d calls := by
  induction calls generalizing d with
  | nil => trivial
  | cons call calls ih =>
    obtain ⟨d', hr, hall⟩ := h
    obtain ⟨d₁, hstep, hrest⟩ := run_cons.1 hr
    have heq := users_le_one hu hstep
    have hu₁ : ∀ c ∈ calls, (c.users d₁).length ≤ 1 := fun c hc => by
      rw [heq c hc]
      exact hu c (by simp [hc])
    have hs₁ : StepsOk d₁ calls := ih hu₁ ⟨d', hrest, fun c hc user hf =>
      hall c (by simp [hc]) user (by rw [← heq c hc, hf])⟩
    refine ⟨fun user hf => ?_, fun d₂ hd₂ => ?_⟩
    · rcases addSdUser_spec (hu call (by simp)) hstep with ⟨hnil, -⟩ | ⟨user', param, packages, ha⟩
      · rw [hf] at hnil
        cases hnil
      have hw : user' = user := by simpa [hf] using ha.users.symm
      rw [hw] at ha
      obtain ⟨⟨packages', hp', hm⟩, ⟨param', hq', h1⟩⟩ := hall call (by simp) user hf
      refine ⟨param, packages, ha.oldParam, ha.oldPackages, ?_, ?_⟩
      · by_cases hc : user <:+: param
        · have hnew := ha.newParam
          rw [if_pos hc] at hnew
          obtain ⟨q, hq, hlen⟩ := run_entries hu₁ hs₁ hrest hnew hc
          rw [hq', Option.some_inj] at hq
          rw [← hq, h1] at hlen
          exact .inl hlen.symm
        · obtain ⟨e, he⟩ := List.exists_mem_of_length_pos (by rw [h1]; exact Nat.one_pos)
          exact .inr ⟨hc, (mem_entriesFor he).1, (mem_entriesFor he).2.1⟩
      · by_cases hc : call.pkg <:+: packages
        · have hnew := ha.newPackages
          rw [if_pos hc] at hnew
          obtain ⟨q, hq, hiff⟩ := run_packages hu₁ hs₁ hrest hnew hc
          rw [hp', Option.some_inj] at hq
          exact .inl (hiff.1 (hq ▸ hm))
        · exact .inr ⟨hc, isWord_of_mem_words hm⟩
    · rw [hstep, Except.ok.injEq] at hd₂
      rw [← hd₂]
      exact hs₁

end Runs

/-- A sequence of calls, none of which finds two users, creates every user it finds exactly when
every call finds its variables as it needs them. -/
theorem all_created_iff (d : DataStore) (calls : List UserCall)
    (hu : ∀ c ∈ calls, (c.users d).length ≤ 1) : AllCreated d calls ↔ StepsOk d calls :=
  ⟨fun h => h.stepsOk hu, fun h => h.allCreated hu⟩

namespace Sample

/-- A recipe `app` with one service, of a given user, and a given `USERADD_PARAM`. -/
def appRecipe (user param : String) : DataStore := Dict.ofList
  [(systemdUser "app.service".toList, user.toList), (useraddPackages, " ".toList),
    (useraddParam "app".toList, param.toList)]

def appCall : UserCall := ⟨"app.service".toList, "app".toList⟩

end Sample

theorem bmc_created : (∀ c ∈ [Sample.appCall], (c.users (Sample.appRecipe "bmc" ";")).length ≤ 1) ∧
    (AllCreated (Sample.appRecipe "bmc" ";") [Sample.appCall] ↔
      StepsOk (Sample.appRecipe "bmc" ";") [Sample.appCall]) :=
  ⟨by decide +kernel, all_created_iff _ _ (by decide +kernel)⟩

/-- The user `bin` is taken to be there already when another one has the shell `/sbin/nologin`; and
for a package without a `USERADD_PARAM` the call fails. -/
theorem bin_not_created :
    ¬ AllCreated (Sample.appRecipe "bin" "--system --shell /sbin/nologin bmc") [Sample.appCall] ∧
    ¬ AllCreated (Sample.appRecipe "bmc" ";") [⟨"app.service".toList, "app-tools".toList⟩] := by
  constructor
  · intro h
    have hs := (h.stepsOk (by decide +kernel)).1
    obtain ⟨param, packages, hp, -, huser, -⟩ := hs "bin".toList (by decide +kernel)
    have hparam : param = "--system --shell /sbin/nologin bmc".toList := by
      rw [← Option.some_inj, ← hp]
      decide +kernel
    rw [hparam] at huser
    revert huser
    decide +kernel
  · intro h
    have hs := (h.stepsOk (by decide +kernel)).1
    obtain ⟨param, packages, hp, -⟩ := hs "bmc".toList (by decide +kernel)
    have hnone : (Sample.appRecipe "bmc" ";").get? (useraddParam "app-tools".toList) = none := by
      decide +kernel
    rw [hnone] at hp
    cases hp

end Systemd
end OpenBmc
