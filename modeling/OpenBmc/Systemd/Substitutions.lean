import OpenBmc.Systemd.Users
import OpenBmc.Py.Format

/-!
# Substitutions in unit files

`makeSubs` fills the fields of the installed unit files in from `SYSTEMD_SUBSTITUTIONS`. Its effect
is what the entries say (`Exact`) when no value has a colon, every file with an entry is installed
and plain, and every variable a file uses has an entry. Without the first, the second or the last it
never is: a variable without an entry ends the task only after the file was emptied.
-/

namespace OpenBmc
namespace Systemd
open Py

/-! ### Collecting -/

/-- `'%s' % d.getVar(var, True)`. -/
def varText (d : DataStore) (var : Str) : Str := (d.get? var).getD "None".toList

def defaultVars : List Str :=
  ["base_bindir".toList, "bindir".toList, "sbindir".toList, "libexecdir".toList,
    "envfiledir".toList, "sysconfdir".toList, "localstatedir".toList, "datadir".toList,
    "SYSTEMD_DEFAULT_TARGET".toList]

/-- `'%s:%s:%s' % (var, val, file)`. -/
def entryText (var val file : Str) : Str := var ++ ':' :: (val ++ ':' :: file)

def addDefaultSubs (d : DataStore) (file : Str) : DataStore :=
  defaultVars.foldl
    (fun d x => d.setDoappend systemdSubstitutions (entryText x (varText d x) file) ' ') d

def unitDir (d : DataStore) : Str := varText d "systemd_system_unitdir".toList

def filesVar (pkg : Str) : Str := "FILES:".toList ++ pkg

def addSdUnit (d : DataStore) (unit : SystemdUnit) (pkg : Str) (unitExist : Bool) : DataStore :=
  if !unitExist then d
  else
    let name := unit.name
    let dir := unitDir d
    let d := d.setDoappend "SRC_URI".toList ("file://".toList ++ name) ' '
    let d := d.setDoappend (filesVar pkg) (dir ++ '/' :: name) ' '
    let d := d.setDoappend "_INSTALL_SD_UNITS".toList name ' '
    addDefaultSubs d name

/-- `add_override`, for a specification that splits in two. -/
def addOverride (d : DataStore) (tmpl dest pkg : Str) : Except ParseError DataStore :=
  let d := d.setDoappend "_INSTALL_OVERRIDES".toList (tmpl ++ ':' :: dest) ' '
  let d := d.setDoappend (filesVar pkg) (unitDir d ++ '/' :: dest) ' '
  let d := addDefaultSubs d dest
  addSdUser d dest pkg

/-! ### Substituting -/

inductive SubsError
  | fatal (var file : Str)
  | noFile (file : Str)
  /-- A text that does not split into as many parts as it has to. -/
  | valueError
  | format (e : FormatError)

/-- The files below `${D}${systemd_system_unitdir}`, with their texts. -/
abbrev Files := Dict Str Str

/-- The entries of each file, without the file. -/
def allSubs (specs : List Str) : Except SubsError (Dict Str (List Str)) :=
  specs.foldlM
    (fun all spec => match rpartition ':' spec with
      | (some spec, file) => .ok (all.set file ((all.get? file).getD [] ++ [spec]))
      | (none, _) => .error .valueError)
    Dict.empty

/-- `x.split(':')`, as an entry of a dictionary. -/
def subsEntry (x : Str) : Except SubsError (Str × Str) :=
  match x.splitOn ':' with
  | [key, value] => .ok (key, value)
  | _ => .error .valueError

/-- `fd.write(content.format(**subs))` and its handler, for the outcome of the formatting. The file
was truncated before. -/
def writeFormatted (f : Str) (fs : Files) :
    Except FormatError Str → Files × Except SubsError Unit
  | .ok content => (fs.set f content, .ok ())
  | .error (.keyError e) => (fs.set f [], .error (.fatal e f))
  | .error e => (fs.set f [], .error (.format e))

/-- The loop's body, for a file and its entries. -/
def substituteFile (py : PyFormat) (f : Str) (v : List Str) (fs : Files) :
    Files × Except SubsError Unit :=
  match v.mapM subsEntry with
  | .error e => (fs, .error e)
  | .ok pairs =>
    let subs := Dict.ofList pairs
    if subs.entries = [] then (fs, .ok ())
    else match fs.get? f with
      | none => (fs, .error (.noFile f))
      | some text => writeFormatted f fs (format py subs (universalNewlines text))

def substituteAll (py : PyFormat) : List (Str × List Str) → Files → Files × Except SubsError Unit
  | [], fs => (fs, .ok ())
  | (f, v) :: rest, fs =>
    match substituteFile py f v fs with
    | (fs', .ok ()) => substituteAll py rest fs'
    | (fs', .error e) => (fs', .error e)

def makeSubs (py : PyFormat) (d : DataStore) (fs : Files) : Files × Except SubsError Unit :=
  match allSubs (d.listvar systemdSubstitutions) with
  | .error e => (fs, .error e)
  | .ok all => substituteAll py all.entries fs

/-! ### Entries -/

/-- An entry `var:val:file`. -/
structure SubsEntry where
  var : Str
  val : Str
  file : Str
  var_plain : ∀ c ∈ var, c ≠ ':' ∧ c ≠ '{' ∧ c ≠ '}' ∧ c ≠ ' '
  val_plain : ∀ c ∈ val, ¬ isSpace c
  file_plain : ∀ c ∈ file, c ≠ ':' ∧ c ≠ ' '

namespace SubsEntry

def text (e : SubsEntry) : Str := entryText e.var e.val e.file

/-- The entry without its file. -/
def spec (e : SubsEntry) : Str := e.var ++ ':' :: e.val

end SubsEntry

/-- Variables in which entries were collected. -/
structure Collected where
  store : DataStore
  entries : List SubsEntry
  listed : store.listvar systemdSubstitutions = entries.map SubsEntry.text

namespace Collected
variable (c : Collected)

/-- The entries of a file. -/
def entriesOf (f : Str) : List SubsEntry := c.entries.filter (·.file = f)

/-- The value of the last entry for a variable and a file. -/
def value (f x : Str) : Option Str :=
  (((c.entriesOf f).filter (·.var = x)).getLast?).map SubsEntry.val

/-- Every variable that a file with entries uses has one for it. -/
def Defined (fs : Files) : Prop :=
  ∀ e ∈ c.entries, ∀ text, fs.get? e.file = some text → ∀ x ∈ fieldNames text,
    (c.value e.file x).isSome

/-- The files once the entries are carried out. -/
def filled (fs : Files) (f : Str) : Option Str :=
  (fs.get? f).map fun text =>
    if f ∈ c.entries.map SubsEntry.file then substitute (c.value f) text else text

end Collected

/-- With all variables defined, the files with entries are filled in and the others kept; otherwise
the task ends with the complaint about a file that is still whole. -/
structure Exact (py : PyFormat) (c : Collected) (fs : Files) : Prop where
  filled : c.Defined fs → (makeSubs py c.store fs).2 = .ok () ∧
    ∀ f, (makeSubs py c.store fs).1.get? f = c.filled fs f
  fatal : ¬ c.Defined fs → ∃ x f, (makeSubs py c.store fs).2 = .error (.fatal x f) ∧
    (makeSubs py c.store fs).1.get? f = fs.get? f

/-- What the code needs whatever the texts are. -/
structure Sound (c : Collected) (fs : Files) : Prop where
  noColon : ∀ e ∈ c.entries, ':' ∉ e.val
  installed : ∀ e ∈ c.entries, e.file ∈ fs
  defined : c.Defined fs

/-- The texts with entries have braces around plain names only, and no carriage return. -/
def PlainTexts (py : PyFormat) (c : Collected) (fs : Files) : Prop :=
  ∀ e ∈ c.entries, ∀ text, fs.get? e.file = some text → Plain py text ∧ '\r' ∉ text

/-! ### What the parts of a recipe collect -/

section Collect
variable {d : DataStore}

theorem listvar_setDoappend {var text : Str} (hne : text ≠ []) (hs : ' ' ∉ text) :
    (d.setDoappend var text ' ').listvar var = d.listvar var ++ [text] := by
  rw [DataStore.listvar, DataStore.get?_setDoappend, if_pos rfl, listvarToList, Option.getD_some,
    List.splitOn_append_cons_self, List.filter_append, List.splitOn_eq_singleton hs,
    List.filter_singleton, decide_eq_true hne]
  rfl

theorem listvar_setDoappend_of_ne {var v text : Str} {sep : Char} (h : v ≠ var) :
    (d.setDoappend var text sep).listvar v = d.listvar v := by
  rw [DataStore.listvar, DataStore.get?_setDoappend, if_neg h, DataStore.listvar]

theorem entryText_plain {var val file : Str} (hvar : ' ' ∉ var) (hval : ' ' ∉ val)
    (hfile : ' ' ∉ file) : entryText var val file ≠ [] ∧ ' ' ∉ entryText var val file := by
  simp [entryText, hvar, hval, hfile]

/-- The entries of a file for the default variables follow those that are there. -/
theorem listvar_addDefaultSubs {file : Str} (hv : ∀ x ∈ defaultVars, ' ' ∉ varText d x)
    (hf : ' ' ∉ file) : (addDefaultSubs d file).listvar systemdSubstitutions =
      d.listvar systemdSubstitutions ++
        defaultVars.map fun x => entryText x (varText d x) file := by
  have hvars : ∀ x ∈ defaultVars, ' ' ∉ x ∧ x ≠ systemdSubstitutions := by decide +kernel
  suffices h : ∀ (xs : List Str) (d' : DataStore), xs ⊆ defaultVars →
      (∀ x ∈ defaultVars, varText d' x = varText d x) →
      (xs.foldl (fun d x =>
        d.setDoappend systemdSubstitutions (entryText x (varText d x) file) ' ') d').listvar
          systemdSubstitutions = d'.listvar systemdSubstitutions ++
            xs.map fun x => entryText x (varText d x) file from
    h defaultVars d (fun _ h => h) fun _ _ => rfl
  intro xs
  induction xs with
  | nil => exact fun d' _ _ => (List.append_nil _).symm
  | cons x xs ih =>
    intro d' hsub hsame
    obtain ⟨hx, hxs⟩ := List.cons_subset.1 hsub
    obtain ⟨hne, hs⟩ := entryText_plain (hvars x hx).1 (hv x hx) hf
    rw [List.foldl_cons, ih _ hxs fun y hy => ?_, hsame x hx, listvar_setDoappend hne hs]
    · simp
    · rw [varText, DataStore.get?_setDoappend, if_neg (hvars y hy).2]
      exact hsame y hy

theorem filesVar_ne_substitutions (pkg : Str) : systemdSubstitutions ≠ filesVar pkg :=
  (append_ne 1 (by decide +kernel) (by decide +kernel)).symm

/-- The default entries of a file do not depend on variables that are not among the defaults. -/
theorem varText_setDoappend {x var val : Str} {sep : Char} (h : x ≠ var) :
    varText (d.setDoappend var val sep) x = varText d x := by
  rw [varText, DataStore.get?_setDoappend, if_neg h, varText]

theorem defaultVars_ne : ∀ x ∈ defaultVars, x ≠ "SRC_URI".toList ∧
    x ≠ "_INSTALL_SD_UNITS".toList ∧ x ≠ "_INSTALL_OVERRIDES".toList ∧ ∀ pkg, x ≠ filesVar pkg := by
  have hvars : ∀ x ∈ defaultVars, x ≠ "SRC_URI".toList ∧ x ≠ "_INSTALL_SD_UNITS".toList ∧
      x ≠ "_INSTALL_OVERRIDES".toList ∧ x.head? ≠ some 'F' := by decide +kernel
  intro x hx
  obtain ⟨h₁, h₂, h₃, hf⟩ := hvars x hx
  exact ⟨h₁, h₂, h₃, fun pkg he => hf (by rw [he]; rfl)⟩

/-- A unit that is installed brings the default entries for its file. -/
theorem listvar_addSdUnit {unit : SystemdUnit} {pkg : Str}
    (hv : ∀ x ∈ defaultVars, ' ' ∉ varText d x) (hu : ' ' ∉ unit.name) :
    (addSdUnit d unit pkg true).listvar systemdSubstitutions = d.listvar systemdSubstitutions ++
      defaultVars.map fun x => entryText x (varText d x) unit.name := by
  have hsame : ∀ (d : DataStore) (a b c : Str), ∀ x ∈ defaultVars,
      varText (((d.setDoappend "SRC_URI".toList a ' ').setDoappend (filesVar pkg) b ' ').setDoappend
        "_INSTALL_SD_UNITS".toList c ' ') x = varText d x := fun d a b c x hx => by
    obtain ⟨h₁, h₂, -, hf⟩ := defaultVars_ne x hx
    rw [varText_setDoappend h₂, varText_setDoappend (hf pkg), varText_setDoappend h₁]
  unfold addSdUnit
  rw [if_neg (by decide)]
  simp only
  rw [listvar_addDefaultSubs (fun x hx => by rw [hsame _ _ _ _ x hx]; exact hv x hx) hu,
    listvar_setDoappend_of_ne (by decide +kernel),
    listvar_setDoappend_of_ne (filesVar_ne_substitutions pkg),
    listvar_setDoappend_of_ne (by decide +kernel)]
  congr 1
  exact List.map_congr_left fun x hx => by rw [hsame _ _ _ _ x hx]

/-- A call for a user brings an entry for it. -/
theorem listvar_addSdUser {d' : DataStore} (call : UserCall) (hu : (call.users d).length ≤ 1)
    (hf : ' ' ∉ call.file) (h : addSdUser d call.file call.pkg = .ok d') :
    d'.listvar systemdSubstitutions = d.listvar systemdSubstitutions ++
      (call.users d).map fun user => entryText "USER".toList user call.file := by
  rcases addSdUser_spec hu h with ⟨hnil, rfl⟩ | ⟨user, param, packages, ha⟩
  · rw [hnil]
    exact (List.append_nil _).symm
  · have huser : ' ' ∉ user := by
      have hmem : ∀ value, user ∈ listvarToList value → ' ' ∉ user := fun value hm =>
        not_mem_of_mem_splitOn (List.mem_filter.1 hm).1
      have hm : user ∈ call.users d := by
        rw [ha.users]
        exact List.mem_singleton_self user
      unfold UserCall.users sdUsers at hm
      split at hm
      exacts [hmem _ hm, hmem _ hm]
    obtain ⟨hne, hs⟩ := entryText_plain (show ' ' ∉ "USER".toList by decide) huser hf
    have hset : d'.get? systemdSubstitutions = (d.setDoappend systemdSubstitutions
        (entryText "USER".toList user call.file) ' ').get? systemdSubstitutions := by
      rw [ha.substitutions, DataStore.get?_setDoappend, if_pos rfl]
      simp [entryText]
    rw [DataStore.listvar, hset, ha.users]
    exact listvar_setDoappend hne hs

theorem users_setDoappend {call : UserCall} {var val : Str} {sep : Char}
    (h : ∀ key, systemdUser key ≠ var) : call.users (d.setDoappend var val sep) = call.users d := by
  unfold UserCall.users sdUsers
  rw [listvar_setDoappend_of_ne (h _), listvar_setDoappend_of_ne (h _)]

theorem users_addDefaultSubs {call : UserCall} {file : Str} :
    call.users (addDefaultSubs d file) = call.users d := by
  unfold addDefaultSubs
  generalize defaultVars = xs
  induction xs generalizing d with
  | nil => rfl
  | cons x xs ih =>
    rw [List.foldl_cons, ih, users_setDoappend fun key => systemdUser_ne_substitutions key]

/-- An override brings the default entries for its file, and one for its user. -/
theorem listvar_addOverride {d' : DataStore} {tmpl dest pkg : Str}
    (hv : ∀ x ∈ defaultVars, ' ' ∉ varText d x) (hdest : ' ' ∉ dest)
    (hu : ((UserCall.mk dest pkg).users d).length ≤ 1) (h : addOverride d tmpl dest pkg = .ok d') :
    d'.listvar systemdSubstitutions = d.listvar systemdSubstitutions ++
      defaultVars.map (fun x => entryText x (varText d x) dest) ++
      ((UserCall.mk dest pkg).users d).map fun user => entryText "USER".toList user dest := by
  have hinstall : ∀ key, systemdUser key ≠ "_INSTALL_OVERRIDES".toList := fun key =>
    append_ne 1 (by decide +kernel) (by decide +kernel)
  have hfiles : ∀ key, systemdUser key ≠ filesVar pkg := fun key he => by
    have hs : (systemdUser key).head? = some 'S' := rfl
    rw [he] at hs
    exact absurd (hs.symm.trans (show (filesVar pkg).head? = some 'F' from rfl)) (by decide)
  have hsame : ∀ (d : DataStore) (a b : Str), ∀ x ∈ defaultVars,
      varText ((d.setDoappend "_INSTALL_OVERRIDES".toList a ' ').setDoappend (filesVar pkg) b ' ') x =
        varText d x := fun d a b x hx => by
    obtain ⟨-, -, h₃, hf⟩ := defaultVars_ne x hx
    rw [varText_setDoappend (hf pkg), varText_setDoappend h₃]
  have husers : ∀ (d : DataStore) (a b : Str), (UserCall.mk dest pkg).users (addDefaultSubs
      ((d.setDoappend "_INSTALL_OVERRIDES".toList a ' ').setDoappend (filesVar pkg) b ' ') dest) =
        (UserCall.mk dest pkg).users d := fun d a b => by
    rw [users_addDefaultSubs, users_setDoappend hfiles, users_setDoappend hinstall]
  unfold addOverride at h
  have hlist := listvar_addSdUser ⟨dest, pkg⟩ (by rw [husers]; exact hu) hdest h
  rw [hlist, husers,
    listvar_addDefaultSubs (fun x hx => by rw [hsame _ _ _ x hx]; exact hv x hx) hdest,
    listvar_setDoappend_of_ne (filesVar_ne_substitutions pkg),
    listvar_setDoappend_of_ne (by decide +kernel)]
  congr 2
  exact List.map_congr_left fun x hx => by rw [hsame _ _ _ x hx]

end Collect

namespace SubsEntry

theorem text_plain (e : SubsEntry) : e.text ≠ [] ∧ ' ' ∉ e.text :=
  entryText_plain (fun h => (e.var_plain _ h).2.2.2 rfl)
    (fun h => e.val_plain _ h (by decide)) (fun h => (e.file_plain _ h).2 rfl)

end SubsEntry

namespace Collected

def empty : Collected where
  store := Dict.empty
  entries := []
  listed := rfl

/-- One more entry, added as `set_doappend` does. -/
def add (c : Collected) (e : SubsEntry) : Collected where
  store := c.store.setDoappend systemdSubstitutions e.text ' '
  entries := c.entries ++ [e]
  listed := by rw [listvar_setDoappend e.text_plain.1 e.text_plain.2, c.listed]; simp

end Collected

/-! ### Splitting the entries -/

theorem rpartition_text (e : SubsEntry) : rpartition ':' e.text = (some e.spec, e.file) := by
  have h : e.text = e.spec ++ ':' :: e.file := by simp [SubsEntry.text, entryText, SubsEntry.spec]
  rw [h, rpartition_append fun hm => (e.file_plain _ hm).1 rfl]

theorem allSubs_from (es : List SubsEntry) (all : Dict Str (List Str)) :
    ∃ all', (es.map SubsEntry.text).foldlM
      (fun all spec => match rpartition ':' spec with
        | (some spec, file) => Except.ok (all.set file ((all.get? file).getD [] ++ [spec]))
        | (none, _) => .error SubsError.valueError) all = .ok all' ∧
      ∀ f, all'.get? f = if es.filter (·.file = f) = [] then all.get? f
        else some ((all.get? f).getD [] ++ (es.filter (·.file = f)).map SubsEntry.spec) := by
  induction es generalizing all with
  | nil => exact ⟨all, rfl, fun f => rfl⟩
  | cons e es ih =>
    obtain ⟨all', hall, hget⟩ := ih (all.set e.file ((all.get? e.file).getD [] ++ [e.spec]))
    refine ⟨all', ?_, fun f => ?_⟩
    · rw [List.map_cons, List.foldlM_cons, rpartition_text]
      exact hall
    · rw [hget, Dict.get?_set]
      by_cases hf : f = e.file
      · rw [if_pos hf, ← hf, List.filter_cons_of_pos (by simp [hf])]
        split_ifs with hnil h h
        · cases h
        · simp [hnil]
        · cases h
        · simp
      · rw [if_neg hf, List.filter_cons_of_neg (by simpa using Ne.symm hf)]

theorem allSubs_eq (c : Collected) : ∃ all,
    allSubs (c.store.listvar systemdSubstitutions) = .ok all ∧
    ∀ f, all.get? f =
      if c.entriesOf f = [] then none else some ((c.entriesOf f).map SubsEntry.spec) := by
  obtain ⟨all, hall, hget⟩ := allSubs_from c.entries Dict.empty
  refine ⟨all, ?_, fun f => ?_⟩
  · rw [c.listed]
    exact hall
  · rw [hget f]
    rfl

theorem mem_entriesOf {c : Collected} {f : Str} {e : SubsEntry} :
    e ∈ c.entriesOf f ↔ e ∈ c.entries ∧ e.file = f := by
  simp [Collected.entriesOf]

theorem splitOn_eq_singleton_iff {sep : Char} {s f : Str} :
    s.splitOn sep = [f] ↔ sep ∉ s ∧ f = s := by
  constructor
  · intro h
    have hjoin : [sep].intercalate (s.splitOn sep) = s := List.intercalate_splitOn sep
    rw [h, List.intercalate_singleton] at hjoin
    have hf : sep ∉ f := not_mem_of_mem_splitOn (h ▸ List.mem_singleton_self f)
    rw [hjoin] at hf
    exact ⟨hf, hjoin⟩
  · rintro ⟨hs, rfl⟩
    exact List.splitOn_eq_singleton hs

/-- A text with a colon splits in two exactly when it has no other. -/
theorem subsEntry_append {a b : Str} {p : Str × Str} :
    subsEntry (a ++ ':' :: b) = .ok p ↔ (':' ∉ a ∧ ':' ∉ b) ∧ p = (a, b) := by
  unfold subsEntry
  rw [List.splitOn_append_cons_self]
  constructor
  · intro h
    split at h
    · rename_i key value hs
      obtain ⟨x, xs, ha⟩ := List.exists_cons_of_ne_nil (List.splitOn_ne_nil ':' a)
      obtain ⟨y, ys, hb⟩ := List.exists_cons_of_ne_nil (List.splitOn_ne_nil ':' b)
      rw [ha, hb, List.cons_append, List.cons.injEq, List.append_eq_singleton_iff] at hs
      obtain ⟨rfl, ⟨rfl, hy⟩ | ⟨-, hy⟩⟩ := hs
      · rw [hy] at hb
        obtain ⟨ha, rfl⟩ := splitOn_eq_singleton_iff.1 ha
        obtain ⟨hb, rfl⟩ := splitOn_eq_singleton_iff.1 hb
        exact ⟨⟨ha, hb⟩, (Except.ok.inj h).symm⟩
      · cases hy
    · cases h
  · rintro ⟨⟨ha, hb⟩, rfl⟩
    rw [List.splitOn_eq_singleton ha, List.splitOn_eq_singleton hb]
    rfl

/-- An entry splits in two exactly when its value has no colon. -/
theorem subsEntry_ok_iff {e : SubsEntry} {p : Str × Str} :
    subsEntry e.spec = .ok p ↔ ':' ∉ e.val ∧ p = (e.var, e.val) := by
  have hvar : ':' ∉ e.var := fun hm => (e.var_plain _ hm).1 rfl
  exact subsEntry_append.trans (and_congr_left fun _ => and_iff_right hvar)

theorem mapM_subsEntry {es : List SubsEntry} (h : ∀ e ∈ es, ':' ∉ e.val) :
    (es.map SubsEntry.spec).mapM subsEntry = .ok (es.map fun e => (e.var, e.val)) := by
  induction es with
  | nil => rfl
  | cons e es ih =>
    rw [List.map_cons, List.mapM_cons, subsEntry_ok_iff.2 ⟨h e (by simp), rfl⟩,
      ih fun e' he => h e' (List.mem_cons_of_mem _ he)]
    rfl

theorem noColon_of_mapM {es : List SubsEntry} {ps : List (Str × Str)}
    (h : (es.map SubsEntry.spec).mapM subsEntry = .ok ps) : ∀ e ∈ es, ':' ∉ e.val := by
  induction es generalizing ps with
  | nil => exact fun e he => absurd he List.not_mem_nil
  | cons e es ih =>
    rw [List.map_cons, List.mapM_cons] at h
    obtain ⟨p, hp, h⟩ := bindExcept_ok_iff.1 h
    obtain ⟨ps', hps, -⟩ := bindExcept_ok_iff.1 h
    intro e' he'
    rcases List.mem_cons.1 he' with rfl | he'
    · exact (subsEntry_ok_iff.1 hp).1
    · exact ih hps e' he'

/-- The dictionary of a file's entries answers with the last one. -/
theorem get?_subs (es : List SubsEntry) (x : Str) :
    (Dict.ofList (es.map fun e => (e.var, e.val))).get? x =
      ((es.filter (·.var = x)).getLast?).map SubsEntry.val := by
  induction es using List.reverseRecOn with
  | nil => rfl
  | append_singleton es e ih =>
    rw [List.map_append, Dict.ofList, Dict.assign_append, List.filter_append]
    show ((Dict.ofList _).set e.var e.val).get? x = _
    rw [Dict.get?_set, ih]
    by_cases hx : x = e.var
    · simp [hx]
    · simp [hx, Ne.symm hx]

/-! ### The loop -/

section Loop
variable {py : PyFormat} {fs fs' : Files} {f : Str} {v : List Str}

/-- A file is substituted without an error. -/
def Fills (py : PyFormat) (v : List Str) (text content : Str) : Prop :=
  ∃ pairs, v.mapM subsEntry = .ok pairs ∧
    format py (Dict.ofList pairs) (universalNewlines text) = .ok content

theorem ofList_ne_nil {pairs : List (Str × Str)} (h : pairs ≠ []) :
    (Dict.ofList pairs).entries ≠ [] := by
  obtain ⟨p, hp⟩ := List.exists_mem_of_ne_nil _ h
  intro hn
  have hm : p.1 ∈ Dict.ofList pairs := Dict.mem_ofList.2 (List.mem_map_of_mem hp)
  obtain ⟨x, hx⟩ := Dict.mem_iff_get?_isSome.1 hm
  have := Dict.get?_eq_some_iff.1 hx
  rw [hn] at this
  cases this

theorem mapM_ne_nil {pairs : List (Str × Str)} (hv : v ≠ [])
    (h : v.mapM subsEntry = .ok pairs) : pairs ≠ [] := by
  obtain ⟨x, v, rfl⟩ := List.exists_cons_of_ne_nil hv
  rw [List.mapM_cons] at h
  obtain ⟨p, -, h⟩ := bindExcept_ok_iff.1 h
  obtain ⟨ps, -, h⟩ := bindExcept_ok_iff.1 h
  cases h
  exact List.cons_ne_nil _ _

theorem mapM_subsEntry_error {e : SubsError} (h : v.mapM subsEntry = .error e) :
    e = .valueError := by
  induction v with
  | nil => cases h
  | cons x v ih =>
    have hx : ∀ e', subsEntry x = .error e' → e' = .valueError := fun e' he => by
      unfold subsEntry at he
      split at he
      · cases he
      · exact (Except.error.inj he).symm
    rw [List.mapM_cons] at h
    cases hs : subsEntry x with
    | error e' =>
      rw [hs] at h
      cases h
      exact hx _ hs
    | ok p =>
      cases hm : v.mapM subsEntry with
      | error e' =>
        rw [hs, hm] at h
        cases h
        exact ih hm
      | ok ps =>
        rw [hs, hm] at h
        cases h

theorem writeFormatted_ok_iff {r : Except FormatError Str} :
    writeFormatted f fs r = (fs', .ok ()) ↔ ∃ content, r = .ok content ∧ fs' = fs.set f content := by
  rcases r with (_ | _ | _ | _) | content
  case ok => simp [writeFormatted, eq_comm]
  all_goals simp [writeFormatted]

theorem writeFormatted_fatal {r : Except FormatError Str} {x g : Str}
    (h : writeFormatted f fs r = (fs', .error (.fatal x g))) :
    g = f ∧ fs' = fs.set f [] ∧ ∃ e, r = .error e := by
  rcases r with (_ | _ | _ | _) | content
  case error.keyError =>
    simp only [writeFormatted, Prod.mk.injEq, Except.error.injEq, SubsError.fatal.injEq] at h
    exact ⟨h.2.2.symm, h.1.symm, _, rfl⟩
  all_goals simp [writeFormatted] at h

theorem substituteFile_ok_iff (hv : v ≠ []) : substituteFile py f v fs = (fs', .ok ()) ↔
    ∃ text content, fs.get? f = some text ∧ Fills py v text content ∧ fs' = fs.set f content := by
  unfold substituteFile Fills
  cases hm : v.mapM subsEntry with
  | error e => simp
  | ok pairs =>
    have hne := ofList_ne_nil (mapM_ne_nil hv hm)
    simp only [if_neg hne]
    cases fs.get? f with
    | none => simp
    | some text => simp [writeFormatted_ok_iff]

/-- A complaint about a variable comes when its file is empty, which it was not before. -/
theorem substituteFile_fatal {x g : Str} (hv : v ≠ [])
    (h : substituteFile py f v fs = (fs', .error (.fatal x g))) :
    g = f ∧ fs' = fs.set f [] ∧ ∃ text, fs.get? f = some text ∧ text ≠ [] := by
  unfold substituteFile at h
  cases hm : v.mapM subsEntry with
  | error e =>
    rw [hm, mapM_subsEntry_error hm] at h
    simp at h
  | ok pairs =>
    have hne := ofList_ne_nil (mapM_ne_nil hv hm)
    rw [hm] at h
    simp only [if_neg hne] at h
    cases hf : fs.get? f with
    | none => simp [hf] at h
    | some text =>
      rw [hf] at h
      obtain ⟨hg, hfs, e, he⟩ := writeFormatted_fatal h
      refine ⟨hg, hfs, text, rfl, fun hnil => ?_⟩
      rw [hnil] at he
      cases he

variable {L : List (Str × List Str)}

theorem substituteAll_cons (hv : v ≠ []) : substituteAll py ((f, v) :: L) fs = (fs', .ok ()) ↔
    ∃ text content, fs.get? f = some text ∧ Fills py v text content ∧
      substituteAll py L (fs.set f content) = (fs', .ok ()) := by
  rw [substituteAll]
  rcases hs : substituteFile py f v fs with ⟨fs₁, e | ⟨⟩⟩
  · constructor
    · intro h
      simp at h
    · rintro ⟨text, content, hf, hfill, -⟩
      have hok := (substituteFile_ok_iff hv).2 ⟨text, content, hf, hfill, rfl⟩
      rw [hs] at hok
      simp at hok
  · obtain ⟨text, content, hf, hfill, hfs⟩ := (substituteFile_ok_iff hv).1 hs
    constructor
    · exact fun h => ⟨text, content, hf, hfill, hfs ▸ h⟩
    · rintro ⟨text', content', hf', hfill', h⟩
      have hok := (substituteFile_ok_iff hv).2 ⟨text', content', hf', hfill', rfl⟩
      rw [hs] at hok
      rw [(Prod.mk.inj hok).1]
      exact h

theorem substituteAll_ok (hv : ∀ p ∈ L, p.2 ≠ []) (hn : (L.map Prod.fst).Nodup)
    (h : ∀ p ∈ L, ∃ text content, fs.get? p.1 = some text ∧ Fills py p.2 text content) :
    ∃ fs', substituteAll py L fs = (fs', .ok ()) := by
  induction L generalizing fs with
  | nil => exact ⟨fs, rfl⟩
  | cons p L ih =>
    obtain ⟨hp, hn⟩ := List.nodup_cons.1 hn
    obtain ⟨text, content, hf, hfill⟩ := h p (by simp)
    obtain ⟨fs', hfs'⟩ := ih (fun q hq => hv q (by simp [hq])) hn fun q hq => by
      obtain ⟨text', content', hf', hfill'⟩ := h q (by simp [hq])
      have hne : q.1 ≠ p.1 := fun he => hp (he ▸ List.mem_map_of_mem hq)
      exact ⟨text', content', (Dict.get?_set_ne fs hne content).trans hf', hfill'⟩
    exact ⟨fs', (substituteAll_cons (hv p (by simp))).2 ⟨text, content, hf, hfill, hfs'⟩⟩

/-- A run without an error has filled in every file of the list, and no other. -/
theorem substituteAll_of_ok (hv : ∀ p ∈ L, p.2 ≠ []) (hn : (L.map Prod.fst).Nodup)
    (h : substituteAll py L fs = (fs', .ok ())) :
    (∀ p ∈ L, ∃ text content, fs.get? p.1 = some text ∧ Fills py p.2 text content ∧
      fs'.get? p.1 = some content) ∧ ∀ f ∉ L.map Prod.fst, fs'.get? f = fs.get? f := by
  induction L generalizing fs with
  | nil =>
    cases h
    exact ⟨fun p hp => absurd hp List.not_mem_nil, fun _ _ => rfl⟩
  | cons p L ih =>
    obtain ⟨hp, hn⟩ := List.nodup_cons.1 hn
    obtain ⟨text, content, hf, hfill, h⟩ := (substituteAll_cons (hv p (by simp))).1 h
    obtain ⟨hin, hout⟩ := ih (fun q hq => hv q (by simp [hq])) hn h
    refine ⟨fun q hq => ?_, fun f hf => ?_⟩
    · rcases List.mem_cons.1 hq with rfl | hq
      · exact ⟨text, content, hf, hfill, (hout _ hp).trans (Dict.get?_set_self fs _ content)⟩
      · obtain ⟨text', content', hf', hfill', hc'⟩ := hin q hq
        have hne : q.1 ≠ p.1 := fun he => hp (he ▸ List.mem_map_of_mem hq)
        exact ⟨text', content', (Dict.get?_set_ne fs hne content).symm.trans hf', hfill', hc'⟩
    · rw [List.map_cons, List.mem_cons, not_or] at hf
      exact (hout f hf.2).trans (Dict.get?_set_ne fs hf.1 content)

theorem substituteAll_fatal {x g : Str} (hv : ∀ p ∈ L, p.2 ≠ []) (hn : (L.map Prod.fst).Nodup)
    (h : substituteAll py L fs = (fs', .error (.fatal x g))) :
    g ∈ L.map Prod.fst ∧ fs'.get? g = some [] ∧ ∃ text, fs.get? g = some text ∧ text ≠ [] := by
  induction L generalizing fs with
  | nil => simp [substituteAll] at h
  | cons p L ih =>
    obtain ⟨f, v⟩ := p
    obtain ⟨hp, hn⟩ := List.nodup_cons.1 hn
    have hv₁ : v ≠ [] := hv (f, v) (by simp)
    rw [substituteAll] at h
    rcases hs : substituteFile py f v fs with ⟨fs₁, e | ⟨⟩⟩
    · rw [hs] at h
      obtain ⟨rfl, he⟩ := Prod.mk.inj h
      rw [Except.error.inj he] at hs
      obtain ⟨hg, hfs, text, hf, hne⟩ := substituteFile_fatal hv₁ hs
      rw [hg, hfs]
      exact ⟨by simp, Dict.get?_set_self fs f [], text, hf, hne⟩
    · rw [hs] at h
      obtain ⟨text, content, hf, -, hfs⟩ := (substituteFile_ok_iff hv₁).1 hs
      obtain ⟨hg, hempty, text', hf', hne⟩ := ih (fun q hq => hv q (by simp [hq])) hn h
      have hgf : g ≠ f := fun he => hp (he ▸ hg)
      rw [hfs, Dict.get?_set_ne fs hgf] at hf'
      exact ⟨by simp [hg], hempty, text', hf', hne⟩

end Loop

/-! ### The whole task -/

section Task
variable {py : PyFormat} {c : Collected} {fs : Files}

theorem makeSubs_eq (py : PyFormat) (c : Collected) (fs : Files) : ∃ all : Dict Str (List Str),
    makeSubs py c.store fs = substituteAll py all.entries fs ∧
    (∀ p ∈ all.entries, p.2 ≠ [] ∧ p.2 = (c.entriesOf p.1).map SubsEntry.spec) ∧
    ∀ f, f ∈ all.entries.map Prod.fst ↔ f ∈ c.entries.map SubsEntry.file := by
  obtain ⟨all, hall, hget⟩ := allSubs_eq c
  refine ⟨all, by rw [makeSubs, hall], fun p hp => ?_, fun f => ?_⟩
  · have hp : all.get? p.1 = some p.2 := Dict.get?_eq_some_iff.2 hp
    rw [hget] at hp
    split at hp
    · cases hp
    · rename_i hne
      rw [← Option.some.inj hp]
      exact ⟨by simpa using hne, rfl⟩
  · show f ∈ all ↔ _
    rw [Dict.mem_iff_get?_isSome, hget, List.mem_map]
    constructor
    · rintro ⟨v, hv⟩
      split at hv
      · cases hv
      · rename_i hne
        obtain ⟨e, he⟩ := List.exists_mem_of_ne_nil _ hne
        exact ⟨e, mem_entriesOf.1 he⟩
    · rintro ⟨e, he⟩
      have hne : c.entriesOf f ≠ [] := List.ne_nil_of_mem (mem_entriesOf.2 he)
      exact ⟨_, if_neg hne⟩

theorem fills_of_sound (h : Sound c fs) {f text : Str} (hf : f ∈ c.entries.map SubsEntry.file)
    (ht : fs.get? f = some text) (hplain : Plain py text) (hr : '\r' ∉ text) :
    Fills py ((c.entriesOf f).map SubsEntry.spec) text (substitute (c.value f) text) := by
  refine ⟨_, mapM_subsEntry fun e he => h.noColon e (mem_entriesOf.1 he).1, ?_⟩
  have hvalue : (Dict.ofList ((c.entriesOf f).map fun e => (e.var, e.val))).get? = c.value f :=
    funext fun x => get?_subs _ x
  rw [universalNewlines_of_not_mem hr, ← hvalue]
  refine format_plain hplain fun x hx => ?_
  obtain ⟨e, he, rfl⟩ := List.mem_map.1 hf
  obtain ⟨v, hv⟩ := Option.isSome_iff_exists.1 (h.defined e he text ht x hx)
  exact Dict.mem_iff_get?_isSome.2 ⟨v, (congrFun hvalue x).trans hv⟩

/-- With sound entries and plain texts, the task does what the entries say. -/
theorem Sound.exact (h : Sound c fs) (hp : PlainTexts py c fs) : Exact py c fs := by
  refine { filled := fun _ => ?_, fatal := fun hno => absurd h.defined hno }
  obtain ⟨all, hrun, hentries, hkeys⟩ := makeSubs_eq py c fs
  have hfill : ∀ p ∈ all.entries, ∃ text, fs.get? p.1 = some text ∧
      Fills py p.2 text (substitute (c.value p.1) text) := fun p hm => by
    have hf : p.1 ∈ c.entries.map SubsEntry.file := (hkeys p.1).1 (List.mem_map_of_mem hm)
    obtain ⟨e, he, hef⟩ := List.mem_map.1 hf
    obtain ⟨text, ht⟩ := Dict.mem_iff_get?_isSome.1 (h.installed e he)
    obtain ⟨hplain, hr⟩ := hp e he text ht
    rw [hef] at ht
    rw [(hentries p hm).2]
    exact ⟨text, ht, fills_of_sound h hf ht hplain hr⟩
  obtain ⟨fs', hfs'⟩ := substituteAll_ok (fun p hm => (hentries p hm).1) all.nodup fun p hm => by
    obtain ⟨text, ht, hf⟩ := hfill p hm
    exact ⟨text, _, ht, hf⟩
  rw [hrun, hfs']
  refine ⟨rfl, fun f => ?_⟩
  obtain ⟨hin, hout⟩ := substituteAll_of_ok (fun p hm => (hentries p hm).1) all.nodup hfs'
  rw [Collected.filled]
  split_ifs with hf
  · obtain ⟨p, hm, rfl⟩ := List.mem_map.1 ((hkeys f).2 hf)
    obtain ⟨text, ht, pairs, hpairs, hformat⟩ := hfill p hm
    obtain ⟨text', content, ht', ⟨pairs', hpairs', hformat'⟩, hget⟩ := hin p hm
    rw [ht, Option.some_inj] at ht'
    rw [hpairs, Except.ok.injEq] at hpairs'
    rw [← ht', ← hpairs', hformat, Except.ok.injEq] at hformat'
    rw [hget, ht, ← hformat']
    rfl
  · rw [hout f fun hm => hf ((hkeys f).1 hm)]
    simp

/-- A task that does what the entries say had sound entries. -/
theorem Exact.sound (h : Exact py c fs) : Sound c fs := by
  obtain ⟨all, hrun, hentries, hkeys⟩ := makeSubs_eq py c fs
  have hne : ∀ p ∈ all.entries, p.2 ≠ [] := fun p hm => (hentries p hm).1
  have hdefined : c.Defined fs := by
    by_contra hno
    obtain ⟨x, f, herr, hsame⟩ := h.fatal hno
    rw [hrun] at herr hsame
    obtain ⟨-, hempty, text, ht, htext⟩ := substituteAll_fatal hne all.nodup (Prod.ext rfl herr)
    rw [hempty, ht, Option.some_inj] at hsame
    exact htext hsame.symm
  obtain ⟨hok, -⟩ := h.filled hdefined
  rw [hrun] at hok
  obtain ⟨hin, -⟩ := substituteAll_of_ok hne all.nodup (Prod.ext rfl hok)
  have hfill : ∀ e ∈ c.entries, ∃ text content, fs.get? e.file = some text ∧
      Fills py ((c.entriesOf e.file).map SubsEntry.spec) text content := fun e he => by
    obtain ⟨p, hm, hp⟩ := List.mem_map.1 ((hkeys e.file).2 (List.mem_map_of_mem he))
    obtain ⟨text, content, ht, hf, -⟩ := hin p hm
    rw [(hentries p hm).2, hp] at hf
    exact ⟨text, content, hp ▸ ht, hf⟩
  refine { noColon := fun e he => ?_, installed := fun e he => ?_, defined := hdefined }
  · obtain ⟨-, -, -, pairs, hpairs, -⟩ := hfill e he
    exact noColon_of_mapM hpairs e (mem_entriesOf.2 ⟨he, rfl⟩)
  · obtain ⟨text, -, ht, -⟩ := hfill e he
    exact Dict.mem_iff_get?_isSome.2 ⟨text, ht⟩

end Task

/-- The task does what the entries say when they are sound and the texts are plain; and only when
they are sound. -/
theorem substitutions_exact (py : PyFormat) (c : Collected) (fs : Files) :
    (Sound c fs ∧ PlainTexts py c fs → Exact py c fs) ∧ (Exact py c fs → Sound c fs) :=
  ⟨fun h => h.1.exact h.2, Exact.sound⟩

namespace Sample

/-- A formatter for values without attributes, conversions and format specifications. -/
def pyFormat : PyFormat := ⟨Char.isDigit, fun _ _ _ _ _ => .error .other⟩

/-- `USER:<val>:app.service`. -/
def userEntry (val : String) (h : ∀ c ∈ val.toList, ¬ isSpace c) : SubsEntry where
  var := "USER".toList
  val := val.toList
  file := "app.service".toList
  var_plain := by simp
  val_plain := h
  file_plain := by simp

def appFile (text : String) : Files := Dict.ofList [("app.service".toList, text.toList)]

end Sample

theorem user_filled :
    Exact Sample.pyFormat (.add .empty (Sample.userEntry "bmc" (by simp [isSpace])))
      (Sample.appFile "User={USER}") := by
  have hget : (Sample.appFile "User={USER}").get? "app.service".toList =
      some "User={USER}".toList := by decide +kernel
  refine (substitutions_exact _ _ _).1 ⟨⟨?_, ?_, ?_⟩, ?_⟩
  · intro e he
    cases List.mem_singleton.1 he
    decide +kernel
  · intro e he
    cases List.mem_singleton.1 he
    exact Dict.mem_iff_get?_isSome.2 ⟨_, hget⟩
  · intro e he text ht x hx
    cases List.mem_singleton.1 he
    rw [← Option.some.inj (hget.symm.trans ht)] at hx
    revert x
    decide +kernel
  · intro e he text ht
    cases List.mem_singleton.1 he
    rw [← Option.some.inj (hget.symm.trans ht)]
    decide +kernel

/-- A value with a colon stops the task, and a variable without an entry leaves an empty file. -/
theorem port_not_filled :
    ¬ Exact Sample.pyFormat (.add .empty (Sample.userEntry "bmc:users" (by simp [isSpace])))
      (Sample.appFile "User={USER}") ∧
    ¬ Exact Sample.pyFormat (.add .empty (Sample.userEntry "bmc" (by simp [isSpace])))
      (Sample.appFile "Port={PORT}") ∧
    (makeSubs Sample.pyFormat (Collected.add .empty (Sample.userEntry "bmc" (by simp [isSpace]))).store
      (Sample.appFile "Port={PORT}")).1.get? "app.service".toList = some [] := by
  refine ⟨fun h => ?_, fun h => ?_, by decide +kernel⟩
  · exact absurd (h.sound.noColon _ (List.mem_singleton_self _)) (by decide +kernel)
  · have hget : (Sample.appFile "Port={PORT}").get? "app.service".toList =
        some "Port={PORT}".toList := by decide +kernel
    have hdef := h.sound.defined _ (List.mem_singleton_self _) _ hget "PORT".toList
      (by decide +kernel)
    revert hdef
    decide +kernel

end Systemd
end OpenBmc
