import OpenBmc.BitBake.Dependencies

/-!
# Signature generation

`SignatureGeneratorBasic`: `prepTaskhash` and `getTaskhash` compute the hash of a task, and
`dumpSigtask` writes the data of which `calcBasehash` and `calcTaskhash` recompute the hashes. The
dumped hashes of the dependencies are keyed by recipe name and task, without the recipe file.
-/

namespace OpenBmc
namespace BitBake
open Py

inductive PyError where
  | keyError
  | indexError
  /-- `bb.fatal`. -/
  | fatal
deriving DecidableEq

/-- `d[key]`. -/
def item {β : Type*} (d : Dict Str β) (key : Str) : Except PyError β :=
  match d.get? key with
  | some v => .ok v
  | none => .error .keyError

/-! ### Task ids -/

def joinColons (elems : List Str) : Str := [':'].intercalate elems

/-- The tid names a multiconfig. -/
def isMc (tid : Str) : Bool := "mc:".toList.isPrefixOf tid && tid.count ':' ≥ 2

def mcFromTid (tid : Str) : Str := if isMc tid then (tid.splitOn ':').getD 1 [] else []

structure Tid where
  mc : Str
  fn : Str
  taskname : Str
  mcfn : Str
deriving DecidableEq

def splitTidMcfn (tid : Str) : Except PyError Tid :=
  if isMc tid then
    let elems := tid.splitOn ':'
    let mc := elems.getD 1 []
    let fn := joinColons (elems.drop 2).dropLast
    .ok ⟨mc, fn, elems.getLast?.getD [], "mc:".toList ++ mc ++ ':' :: fn⟩
  else
    match rpartition ':' tid with
    | (some fn, taskname) => .ok ⟨[], fn, taskname, fn⟩
    | (none, _) => .error .indexError

theorem isMc_append (mc fn : Str) : isMc ("mc:".toList ++ mc ++ ':' :: fn) = true := by
  have hcount : 2 ≤ ("mc:".toList ++ mc ++ ':' :: fn).count ':' := by
    rw [List.count_append, List.count_append, List.count_cons_self]
    have : "mc:".toList.count ':' = 1 := by decide
    omega
  have hmc : "mc:".toList.isPrefixOf ("mc:".toList ++ mc ++ ':' :: fn) = true := by
    rw [List.isPrefixOf_iff_prefix, List.append_assoc]
    exact List.prefix_append _ _
  simp only [isMc, hmc, hcount, decide_true, Bool.and_self]

theorem isMc_of_left {mcfn task : Str} (h : isMc mcfn = true) : isMc (mcfn ++ ':' :: task) = true := by
  simp only [isMc, Bool.and_eq_true, decide_eq_true_eq, List.isPrefixOf_iff_prefix] at h ⊢
  refine ⟨h.1.trans (List.prefix_append _ _), ?_⟩
  rw [List.count_append]
  omega

theorem mcFromTid_append {mc : Str} (h : ':' ∉ mc) (fn : Str) :
    mcFromTid ("mc:".toList ++ mc ++ ':' :: fn) = mc := by
  have hsplit : ("mc:".toList ++ mc ++ ':' :: fn).splitOn ':' = ['m', 'c'] :: mc :: fn.splitOn ':' := by
    rw [show "mc:".toList ++ mc ++ ':' :: fn = ['m', 'c'] ++ ':' :: (mc ++ ':' :: fn) by simp,
      List.splitOn_append_cons_self_of_not_mem (by decide),
      List.splitOn_append_cons_self_of_not_mem h]
  rw [mcFromTid, if_pos (isMc_append mc fn), hsplit]
  rfl

/-- A tid, given by its parts. -/
def Tid.str (t : Tid) : Str := t.mcfn ++ ':' :: t.taskname

/-- The parts of a tid are those it is split into. -/
def Tid.Valid (t : Tid) : Prop := splitTidMcfn t.str = .ok t

theorem Tid.Valid.mcFromTid_eq {t : Tid} (h : t.Valid) : mcFromTid t.mcfn = t.mc := by
  unfold Tid.Valid splitTidMcfn at h
  split at h
  · have h := Except.ok.inj h
    have hmc : ':' ∉ t.mc := by
      rw [← h]
      rcases hs : (t.str.splitOn ':')[1]? with _ | mc
      · simp [List.getD, hs]
      · simpa [List.getD, hs] using not_mem_of_mem_splitOn (List.mem_of_getElem? hs)
    have hfn : t.mcfn = "mc:".toList ++ t.mc ++ ':' :: t.fn := by rw [← h]
    rw [hfn, mcFromTid_append hmc]
  · rename_i hmc
    split at h
    · have h := Except.ok.inj h
      rw [mcFromTid, if_neg fun hm => hmc (isMc_of_left hm), ← h]
    · cases h

def buildPnid (mc pn taskname : Str) : Str :=
  if mc ≠ [] then "mc:".toList ++ mc ++ ':' :: pn ++ ':' :: taskname else pn ++ ':' :: taskname

/-! ### Checksummed files -/

/-- The text from the first `/./` to the next one. -/
def afterDot (f : Str) : Str := ((splitSub "/./".toList f)[1]?).getD []

def hasDot (f : Str) : Bool := contains "/./".toList f

def basename (f : Str) : Str := (rpartition '/' f).2

def cleanChecksumFilePath (c : Str × Option Str) : Str :=
  if hasDot c.1 then "./".toList ++ afterDot c.1 else basename c.1

/-! ### The generator -/

/-- What the caches know of the recipe files of one multiconfig. -/
structure DataCache where
  pkgFn : Str → Str
  /-- `siggen_gendeps` and `siggen_varvals`, of which the task dependencies and base hashes are
  computed. -/
  siggen : Str → Gendeps
  fileChecksums : Str → Str → Option (List (Str × Option Str))
  nostamp : Str → Str → Bool
  stamp : Str → Str

structure Env where
  hexdigest : ByteArray → Str
  /-- The unihash of a task that a cache or a server knows. -/
  cachedUnihash : Str → Option Str
  taskhashIgnoreTasks : Option Str
  /-- The search for `BB_TASKHASH_IGNORE_TASKS`. -/
  twl : Option (Str → Bool)
  datacaches : Str → DataCache
  /-- The taint files. -/
  files : Str → Option Str

structure SigGen where
  basehash : Dict Str Str
  taskhash : Dict Str Str
  /-- The name and the tid of every dependency. -/
  runtaskdeps : Dict Str (List (Str × Str))
  fileChecksumValues : Dict Str (List (Str × Option Str))
  taints : Dict Str Str
  tidtopn : Dict Str Str
deriving DecidableEq

def nostampPrefix : Str := "nostamp:".toList

namespace Env
variable (env : Env)

def siggenTaskdeps (mc mcfn task : Str) : Except PyError (Finset Str) :=
  item (((env.datacaches mc).siggen mcfn).generateDependencyHash env.hexdigest mcfn).1 task

def basetaskhash (mc mcfn tid : Str) : Except PyError Str :=
  item (((env.datacaches mc).siggen mcfn).generateDependencyHash env.hexdigest mcfn).2 tid

def rundepCheck (recipename depname : Str) : Bool :=
  match env.twl with
  | some search => search recipename || !search depname
  | none => true

/-- A taint file, where it is not empty. -/
def readTaint (stampbase task : Str) : Option Str :=
  match env.files (stampbase ++ '.' :: task ++ ".taint".toList) with
  | some taint => if taint ≠ [] then some taint else none
  | none => none

end Env

namespace SigGen
variable (s : SigGen) (env : Env)

def getUnihash (tid : Str) : Except PyError Str :=
  match env.cachedUnihash tid with
  | some unihash => if unihash ≠ [] then .ok unihash else item s.taskhash tid
  | none => item s.taskhash tid

/-- The dependencies of a task that `rundep_check` keeps, with their names. -/
def prepRuntaskdeps (recipename : Str) : List Str → Except PyError (List (Str × Str))
  | [] => return []
  | dep :: deps => do
    let t ← splitTidMcfn dep
    let depPn := (env.datacaches t.mc).pkgFn t.mcfn
    if !env.rundepCheck recipename depPn then prepRuntaskdeps recipename deps
    else if dep ∉ s.taskhash then throw .fatal
    else return (buildPnid t.mc depPn t.taskname, dep) :: (← prepRuntaskdeps recipename deps)

/-- The taint of a task that always runs. -/
def prepNostamp (tid uuid : Str) : Dict Str Str :=
  match s.taints.get? tid with
  | some taint => if nostampPrefix.isPrefixOf taint then s.taints else s.taints.set tid (nostampPrefix ++ uuid)
  | none => s.taints.set tid (nostampPrefix ++ uuid)

def prepTaskhash (tid : Str) (deps : List Str) (uuid : Str) : Except PyError SigGen := do
  let t ← splitTidMcfn tid
  let cache := env.datacaches t.mc
  let basehash ← env.basetaskhash t.mc t.mcfn tid
  let recipename := cache.pkgFn t.mcfn
  let runtaskdeps ← s.prepRuntaskdeps env recipename deps
  let taints := if cache.nostamp t.mcfn t.taskname then s.prepNostamp tid uuid else s.taints
  let taints := match env.readTaint (cache.stamp t.mcfn) t.taskname with
    | some taint => taints.set tid taint
    | none => taints
  return { s with
    basehash := s.basehash.set tid basehash
    runtaskdeps := s.runtaskdeps.set tid runtaskdeps
    fileChecksumValues := s.fileChecksumValues.set tid ((cache.fileChecksums t.mcfn t.taskname).getD [])
    taints := taints
    tidtopn := s.tidtopn.set tid recipename }

/-- The text of a checksummed file that `get_taskhash` hashes. -/
def checksumData (c : Str × Option Str) : Str :=
  match c.2 with
  | some cs => if cs ≠ [] then (if hasDot c.1 then "./".toList ++ afterDot c.1 else []) ++ cs else []
  | none => []

def taintData (taint : Str) : Str := if nostampPrefix.isPrefixOf taint then taint.drop 8 else taint

/-- The tuples in the order of their names and tids. -/
def sortedDeps (deps : List (Str × Str)) : List (Str × Str) := sortedBy toLex deps

/-- The data that `get_taskhash` hashes. -/
def taskData (tid : Str) : Except PyError Str := do
  let basehash ← item s.basehash tid
  let unihashes ← (sortedDeps (← item s.runtaskdeps tid)).mapM fun dep => s.getUnihash env dep.2
  let checksums := sortedBy cleanChecksumFilePath (← item s.fileChecksumValues tid)
  return basehash ++ unihashes.flatten ++ checksums.flatMap checksumData ++
    ((s.taints.get? tid).map taintData).getD []

def getTaskhash (tid : Str) : Except PyError SigGen := do
  let data ← s.taskData env tid
  return { s with taskhash := s.taskhash.set tid (env.hexdigest (encode data)) }

end SigGen

/-! ### The dump -/

inductive Runtime where
  | no
  | yes
  /-- `customfile:` and the stamp to refer to. -/
  | customfile (referencestamp : Str)
deriving DecidableEq

/-- The stamp beside which the taint file is. -/
def Runtime.referencestamp (stampbase : Str) : Runtime → Str
  | .customfile referencestamp => referencestamp
  | _ => stampbase

/-- What the dump says of the run. -/
structure RunData where
  runtaskdeps : List Str
  fileChecksumValues : List (Str × Option Str)
  runtaskhashes : Dict Str Str
  taskhash : Str
  unihash : Str

structure Sigdata where
  task : Str
  basehashIgnoreVars : Finset Str
  taskhashIgnoreTasks : Option Str
  taskdeps : Finset Str
  basehash : Str
  gendeps : Dict Str (Finset Str)
  varvals : Dict Str (Option Str)
  run : Option RunData
  taint : Option Str

namespace SigGen
variable (s : SigGen) (env : Env)

def runData (tid : Str) (taskhash : Str) : Except PyError RunData := do
  let deps ← item s.runtaskdeps tid
  let checksums := sortedBy cleanChecksumFilePath (← item s.fileChecksumValues tid)
  let runtaskhashes ← deps.mapM fun dep => do return (dep.1, ← s.getUnihash env dep.2)
  return {
    runtaskdeps := (sortedDeps deps).map Prod.fst
    fileChecksumValues := checksums.map fun c =>
      (if hasDot c.1 then "./".toList ++ afterDot c.1 else basename c.1, c.2)
    runtaskhashes := .ofList runtaskhashes
    taskhash := taskhash
    unihash := ← s.getUnihash env tid }

/-- The data of the run, for a task that has a hash. -/
def dumpRun (tid : Str) (runtime : Runtime) : Except PyError (Option RunData) :=
  match s.taskhash.get? tid with
  | some taskhash => if runtime ≠ .no then some <$> s.runData env tid taskhash else .ok none
  | none => .ok none

/-- The taint file, or a taint of the state that is none of a file. -/
def dumpTaint (tid task referencestamp : Str) (runtime : Runtime) : Option Str :=
  match s.taints.get? tid with
  | some taint => if runtime ≠ .no ∧ contains nostampPrefix taint then some taint
    else env.readTaint referencestamp task
  | none => env.readTaint referencestamp task

def dumpSigtask (mcfn task stampbase : Str) (runtime : Runtime) : Except PyError Sigdata := do
  let tid := mcfn ++ ':' :: task
  let mc := mcFromTid mcfn
  let g := (env.datacaches mc).siggen mcfn
  let taskdeps ← env.siggenTaskdeps mc mcfn task
  let deps := (sorted taskdeps).filter (· ∉ g.ignoredVars)
  let run ← s.dumpRun env tid runtime
  let basehash ← item s.basehash tid
  return {
    task := task
    basehashIgnoreVars := g.ignoredVars
    taskhashIgnoreTasks := env.taskhashIgnoreTasks
    taskdeps := taskdeps
    basehash := basehash
    gendeps := .ofList (deps.map fun dep => (dep, g.gendeps dep))
    varvals := .ofList ((task :: deps).map fun dep => (dep, g.lookupcache dep))
    run := run
    taint := s.dumpTaint env tid task (runtime.referencestamp stampbase) runtime }

end SigGen

namespace Sigdata
variable (data : Sigdata) (hexdigest : ByteArray → Str)

def calcBasehash : Except PyError Str := do
  let basedata := (← item data.varvals data.task).getD []
  let deps ← (sorted data.taskdeps).mapM fun dep => do
    return dep ++ (← item data.varvals dep).getD []
  return hexdigest (encode (basedata ++ deps.flatten))

/-- The text of a dumped file that `calc_taskhash` hashes. -/
def checksumData (c : Str × Option Str) : Str :=
  match c.2 with
  | some cs => if cs ≠ [] then (if contains "./".toList c.1 then c.1 else []) ++ cs else []
  | none => []

def taintData (taint : Str) : Str := if contains nostampPrefix taint then taint.drop 8 else taint

def taskData (run : RunData) : Except PyError Str := do
  let unihashes ← run.runtaskdeps.mapM fun dep => item run.runtaskhashes dep
  return data.basehash ++ unihashes.flatten ++ run.fileChecksumValues.flatMap checksumData ++
    (data.taint.map taintData).getD []

/-- Without the data of a run there is no `runtaskdeps`. -/
def calcTaskhash : Except PyError Str :=
  match data.run with
  | some run => do return hexdigest (encode (← data.taskData run))
  | none => .error .keyError

end Sigdata

/-! ### Hashes of the prepared tasks -/

section Item
variable {β γ : Type*} {d : Dict Str β} {key : Str}

theorem item_eq_ok {v : β} : item d key = .ok v ↔ d.get? key = some v := by
  unfold item
  split <;> simp_all

theorem ok_bind {β γ : Type} {a : β} {f : β → Except PyError γ} : (Except.ok a >>= f) = f a := rfl

theorem mapM_ok {l : List β} {f : β → Except PyError γ} {g : β → γ} (h : ∀ x ∈ l, f x = .ok (g x)) :
    l.mapM f = .ok (l.map g) := by
  induction l with
  | nil => rfl
  | cons x l ih =>
    rw [List.mapM_cons, h x List.mem_cons_self, ih fun y hy => h y (List.mem_cons_of_mem _ hy)]
    rfl

end Item

namespace SigGen
variable {env : Env} {s s' : SigGen} {tid : Str}

/-- Two states have the same entries for a task. -/
structure SameAt (s s' : SigGen) (tid : Str) : Prop where
  basehash : s'.basehash.get? tid = s.basehash.get? tid
  runtaskdeps : s'.runtaskdeps.get? tid = s.runtaskdeps.get? tid
  fileChecksumValues : s'.fileChecksumValues.get? tid = s.fileChecksumValues.get? tid
  taints : s'.taints.get? tid = s.taints.get? tid

theorem getUnihash_congr (h : s'.taskhash.get? tid = s.taskhash.get? tid) :
    s'.getUnihash env tid = s.getUnihash env tid := by
  unfold getUnihash item
  rw [h]

theorem exists_getUnihash (env : Env) (h : tid ∈ s.taskhash) : ∃ u, s.getUnihash env tid = .ok u := by
  obtain ⟨v, hv⟩ := Dict.mem_iff_get?_isSome.1 h
  unfold getUnihash
  rw [item_eq_ok.2 hv]
  split
  · split
    exacts [⟨_, rfl⟩, ⟨_, rfl⟩]
  · exact ⟨_, rfl⟩

theorem prepRuntaskdeps_ok {recipename : Str} {deps : List Str} {rt : List (Str × Str)}
    (h : s.prepRuntaskdeps env recipename deps = .ok rt) :
    ∀ dep ∈ rt, dep.2 ∈ deps ∧ dep.2 ∈ s.taskhash := by
  induction deps generalizing rt with
  | nil =>
    cases h
    simp
  | cons dep deps ih =>
    rw [prepRuntaskdeps] at h
    rcases ht : splitTidMcfn dep with e | t
    · rw [ht] at h
      cases h
    simp only [ht, bind, Except.bind] at h
    split at h
    · intro d hd
      exact (ih h d hd).imp_left (List.mem_cons_of_mem _)
    · split at h
      · cases h
      · rename_i hmem
        rcases hr : s.prepRuntaskdeps env recipename deps with e | rt'
        · rw [hr] at h
          cases h
        · rw [hr] at h
          cases h
          intro d hd
          rcases List.mem_cons.1 hd with rfl | hd
          · exact ⟨List.mem_cons_self, not_not.1 hmem⟩
          · exact (ih hr d hd).imp_left (List.mem_cons_of_mem _)

/-- A run over the tasks in the order of their dependencies: `done` are the prepared ones. -/
inductive Run (env : Env) : List Str → SigGen → Prop
  | start {s : SigGen} : (∀ tid taint, s.taints.get? tid = some taint → taint ≠ []) → Run env [] s
  | step {done : List Str} {s s₁ s₂ : SigGen} {tid uuid : Str} {deps : List Str} :
      Run env done s → tid ∉ done → deps ⊆ done → s.prepTaskhash env tid deps uuid = .ok s₁ →
      s₁.getTaskhash env tid = .ok s₂ → Run env (tid :: done) s₂

/-- What the state holds of a prepared task. -/
structure Kept (env : Env) (done : List Str) (s : SigGen) (t : Tid) : Prop where
  basehash : ∃ b, env.basetaskhash t.mc t.mcfn t.str = .ok b ∧ s.basehash.get? t.str = some b
  runtaskdeps : ∃ rt, s.runtaskdeps.get? t.str = some rt ∧ ∀ dep ∈ rt, dep.2 ∈ done
  fileChecksumValues : ∃ cs, s.fileChecksumValues.get? t.str = some cs
  taskhash : ∃ data, s.taskData env t.str = .ok data ∧
    s.taskhash.get? t.str = some (env.hexdigest (encode data))
  taint : ∀ taint, env.readTaint ((env.datacaches t.mc).stamp t.mcfn) t.taskname = some taint →
    s.taints.get? t.str = some taint

theorem taskData_congr (h : SameAt s s' tid)
    (hu : ∀ rt, s.runtaskdeps.get? tid = some rt → ∀ dep ∈ rt,
      s'.getUnihash env dep.2 = s.getUnihash env dep.2) : s'.taskData env tid = s.taskData env tid := by
  have hmap : ∀ l : List (Str × Str), (∀ dep ∈ l, s'.getUnihash env dep.2 = s.getUnihash env dep.2) →
      (l.mapM fun dep => s'.getUnihash env dep.2) = l.mapM fun dep => s.getUnihash env dep.2 := by
    intro l hl
    induction l with
    | nil => rfl
    | cons dep l ih =>
      rw [List.mapM_cons, List.mapM_cons, hl dep List.mem_cons_self,
        ih fun d hd => hl d (List.mem_cons_of_mem _ hd)]
  unfold taskData item
  rw [h.basehash, h.runtaskdeps, h.fileChecksumValues, h.taints]
  cases hr : s.runtaskdeps.get? tid with
  | none => rfl
  | some rt =>
    have := hmap (sortedDeps rt) fun dep hdep => hu rt hr dep (mem_sortedBy.1 hdep)
    simp only [bind, Except.bind, this]

theorem Kept.congr {done done' : List Str} {t : Tid} (h : Kept env done s t) (hs : SameAt s s' t.str)
    (hsub : done ⊆ done') (ht : t.str ∈ done)
    (hh : ∀ tid ∈ done, s'.taskhash.get? tid = s.taskhash.get? tid) : Kept env done' s' t := by
  obtain ⟨rt, hrt, hdeps⟩ := h.runtaskdeps
  obtain ⟨data, hdata, hhash⟩ := h.taskhash
  refine ⟨?_, ⟨rt, hs.runtaskdeps.trans hrt, fun dep hdep => hsub (hdeps dep hdep)⟩, ?_,
    ⟨data, ?_, (hh _ ht).trans hhash⟩, fun taint htaint => hs.taints.trans (h.taint taint htaint)⟩
  · obtain ⟨b, hb, hbase⟩ := h.basehash
    exact ⟨b, hb, hs.basehash.trans hbase⟩
  · obtain ⟨cs, hcs⟩ := h.fileChecksumValues
    exact ⟨cs, hs.fileChecksumValues.trans hcs⟩
  · rw [taskData_congr hs, hdata]
    intro rt' hrt' dep hdep
    obtain rfl := Option.some.inj (hrt.symm.trans hrt')
    exact getUnihash_congr (hh _ (hdeps dep hdep))

/-- What `prep_taskhash` leaves. -/
structure Prepped (env : Env) (s s' : SigGen) (tid : Str) (deps : List Str) : Prop where
  other : ∀ tid', tid' ≠ tid → SameAt s s' tid'
  taskhash : s'.taskhash = s.taskhash
  basehash : ∀ t : Tid, splitTidMcfn tid = .ok t →
    ∃ b, env.basetaskhash t.mc t.mcfn tid = .ok b ∧ s'.basehash.get? tid = some b
  runtaskdeps : ∃ rt, s'.runtaskdeps.get? tid = some rt ∧ ∀ dep ∈ rt, dep.2 ∈ deps
  fileChecksumValues : ∃ cs, s'.fileChecksumValues.get? tid = some cs
  taint : ∀ t : Tid, splitTidMcfn tid = .ok t → ∀ taint,
    env.readTaint ((env.datacaches t.mc).stamp t.mcfn) t.taskname = some taint →
    s'.taints.get? tid = some taint
  taints : (∀ tid taint, s.taints.get? tid = some taint → taint ≠ []) →
    ∀ tid taint, s'.taints.get? tid = some taint → taint ≠ []

theorem readTaint_ne_nil {stampbase task taint : Str} (h : env.readTaint stampbase task = some taint) :
    taint ≠ [] := by
  unfold Env.readTaint at h
  split at h
  · split at h
    · rwa [← Option.some.inj h]
    · cases h
  · cases h

theorem get?_prepNostamp_ne {tid' uuid : Str} (h : tid' ≠ tid) :
    (s.prepNostamp tid uuid).get? tid' = s.taints.get? tid' := by
  unfold prepNostamp
  split
  · split
    · rfl
    · rw [Dict.get?_set_ne _ h]
  · rw [Dict.get?_set_ne _ h]

theorem prepNostamp_ne_nil {uuid : Str} (h : ∀ tid taint, s.taints.get? tid = some taint → taint ≠ []) :
    ∀ tid' taint, (s.prepNostamp tid uuid).get? tid' = some taint → taint ≠ [] := by
  have hset : ∀ tid' taint, (s.taints.set tid (nostampPrefix ++ uuid)).get? tid' = some taint →
      taint ≠ [] := by
    intro tid' taint ht
    rw [Dict.get?_set] at ht
    split at ht
    · rw [← Option.some.inj ht]
      exact List.append_ne_nil_of_left_ne_nil (by decide) _
    · exact h tid' taint ht
  unfold prepNostamp
  split
  · split
    exacts [h, hset]
  · exact hset

theorem prepTaskhash_prepped {uuid : Str} {deps : List Str}
    (h : s.prepTaskhash env tid deps uuid = .ok s') : Prepped env s s' tid deps := by
  unfold prepTaskhash at h
  rcases ht : splitTidMcfn tid with e | t
  · simp [ht, bind, Except.bind] at h
  rcases hb : env.basetaskhash t.mc t.mcfn tid with e | b
  · simp [ht, hb, bind, Except.bind] at h
  rcases hr : s.prepRuntaskdeps env ((env.datacaches t.mc).pkgFn t.mcfn) deps with e | rt
  · simp [ht, hb, hr, bind, Except.bind] at h
  simp only [ht, hb, hr, bind, Except.bind, pure, Except.pure, Except.ok.injEq] at h
  -- the taints before a taint file is read
  have hnostamp : ∀ tid' ≠ tid, (if (env.datacaches t.mc).nostamp t.mcfn t.taskname = true then
      s.prepNostamp tid uuid else s.taints).get? tid' = s.taints.get? tid' := by
    intro tid' hne
    split
    exacts [get?_prepNostamp_ne hne, rfl]
  subst h
  refine ⟨fun tid' hne => ⟨?_, ?_, ?_, ?_⟩, rfl, ?_, ⟨rt, ?_, ?_⟩, ⟨_, Dict.get?_set_self ..⟩, ?_, ?_⟩
  · exact Dict.get?_set_ne _ hne _
  · exact Dict.get?_set_ne _ hne _
  · exact Dict.get?_set_ne _ hne _
  · show Dict.get? (match env.readTaint _ _ with | some taint => _ | none => _) tid' = _
    split
    · rw [Dict.get?_set_ne _ hne, hnostamp _ hne]
    · exact hnostamp _ hne
  · intro t' ht'
    cases ht.symm.trans ht'
    exact ⟨b, hb, Dict.get?_set_self ..⟩
  · exact Dict.get?_set_self ..
  · exact fun dep hdep => (prepRuntaskdeps_ok hr dep hdep).1
  · intro t' ht' taint htaint
    cases ht.symm.trans ht'
    simp only [htaint, Dict.get?_set_self]
  · intro hne tid' taint htaint
    have hmid : ∀ tid' taint, (if (env.datacaches t.mc).nostamp t.mcfn t.taskname = true then
        s.prepNostamp tid uuid else s.taints).get? tid' = some taint → taint ≠ [] := by
      intro tid' taint
      split
      exacts [prepNostamp_ne_nil hne tid' taint, hne tid' taint]
    revert htaint
    show Dict.get? (match env.readTaint _ _ with | some taint => _ | none => _) tid' = _ → _
    split
    · rename_i file hfile
      intro htaint
      rw [Dict.get?_set] at htaint
      split at htaint
      · rw [← Option.some.inj htaint]
        exact readTaint_ne_nil hfile
      · exact hmid _ _ htaint
    · exact hmid _ _

theorem getTaskhash_ok (h : s.getTaskhash env tid = .ok s') : ∃ data, s.taskData env tid = .ok data ∧
    s' = { s with taskhash := s.taskhash.set tid (env.hexdigest (encode data)) } := by
  unfold getTaskhash at h
  rcases hd : s.taskData env tid with e | data
  · simp [hd, bind, Except.bind] at h
  · simp only [hd, bind, Except.bind, pure, Except.pure, Except.ok.injEq] at h
    exact ⟨data, rfl, h.symm⟩

/-- Every prepared task of a run keeps what its preparation left. -/
theorem Run.kept {done : List Str} (h : Run env done s) :
    (∀ tid taint, s.taints.get? tid = some taint → taint ≠ []) ∧ (∀ tid ∈ done, tid ∈ s.taskhash) ∧
      ∀ t : Tid, t.Valid → t.str ∈ done → Kept env done s t := by
  induction h with
  | start h => exact ⟨h, by simp, by simp⟩
  | @step done s s₁ s₂ tid uuid deps _ hnew hsub hprep hget ih =>
    obtain ⟨hne, hmem, hkept⟩ := ih
    have hp := prepTaskhash_prepped hprep
    obtain ⟨data, hdata, rfl⟩ := getTaskhash_ok hget
    have hother : ∀ tid' ≠ tid, (s₁.taskhash.set tid (env.hexdigest (encode data))).get? tid' =
        s.taskhash.get? tid' := fun tid' h => by rw [Dict.get?_set_ne _ h, hp.taskhash]
    have hdone : ∀ tid' ∈ done, tid' ≠ tid := fun tid' h he => hnew (he ▸ h)
    refine ⟨hp.taints hne, fun tid' h => ?_, fun t hv ht => ?_⟩
    · rcases List.mem_cons.1 h with rfl | h
      · exact Dict.mem_set.2 (.inl rfl)
      · refine Dict.mem_set.2 (.inr ?_)
        rw [hp.taskhash]
        exact hmem tid' h
    · rcases List.mem_cons.1 ht with rfl | ht
      · -- the task prepared now: its dependencies are other tasks
        obtain ⟨rt, hrt, hdeps⟩ := hp.runtaskdeps
        refine ⟨hp.basehash t hv, ⟨rt, hrt, fun dep hdep => List.mem_cons_of_mem _ (hsub (hdeps dep hdep))⟩,
          hp.fileChecksumValues, ⟨data, ?_, Dict.get?_set_self ..⟩, hp.taint t hv⟩
        rw [← hdata]
        refine taskData_congr ⟨rfl, rfl, rfl, rfl⟩ ?_
        intro rt' hrt' dep hdep
        obtain rfl := Option.some.inj (hrt.symm.trans hrt')
        exact getUnihash_congr (Dict.get?_set_ne _ (hdone _ (hsub (hdeps dep hdep))) _)
      · have hs := hp.other t.str (hdone _ ht)
        exact (hkept t hv ht).congr ⟨hs.1, hs.2, hs.3, hs.4⟩ (fun _ => List.mem_cons_of_mem _) ht
          fun tid' h => hother tid' (hdone _ h)

end SigGen

/-! ### The recomputed hashes -/

section Dump
variable {env : Env} {s : SigGen} {t : Tid}

theorem get?_taskdeps {hexdigest : ByteArray → Str} {g : Gendeps} {fn task : Str}
    {taskdeps : Finset Str} (h : item (g.generateDependencyHash hexdigest fn).1 task = .ok taskdeps) :
    task ∈ g.tasklist ∧ taskdeps = g.seen task := by
  obtain ⟨task', hmem, he⟩ := List.mem_map.1 (Dict.mem_of_get?_ofList (item_eq_ok.1 h))
  obtain ⟨rfl, rfl⟩ := Prod.mk.inj he
  exact ⟨hmem, rfl⟩

theorem get?_basehash {hexdigest : ByteArray → Str} {g : Gendeps} {fn task b : Str}
    (h : item (g.generateDependencyHash hexdigest fn).2 (fn ++ ':' :: task) = .ok b) :
    task ∈ g.tasklist ∧ b = hexdigest (g.hashed task) := by
  obtain ⟨task', hmem, he⟩ := List.mem_map.1 (Dict.mem_of_get?_ofList (item_eq_ok.1 h))
  obtain ⟨hk, rfl⟩ := Prod.mk.inj he
  obtain rfl : task' = task := by simpa using hk
  exact ⟨hmem, rfl⟩

theorem taskdeps_of_mem {hexdigest : ByteArray → Str} {g : Gendeps} {fn task : Str}
    (h : task ∈ g.tasklist) :
    item (g.generateDependencyHash hexdigest fn).1 task = .ok (g.seen task) :=
  item_eq_ok.2 (Dict.get?_ofList_map (f := id) h fun _ _ he => congrArg g.seen he)

/-- The values of a dump give the bytes that were hashed for the base hash. -/
theorem calcBasehash_eq {data : Sigdata} {hexdigest : ByteArray → Str} {g : Gendeps}
    (hdeps : data.taskdeps = g.seen data.task)
    (hvals : ∀ dep, dep = data.task ∨ dep ∈ g.seen data.task →
      data.varvals.get? dep = some (g.lookupcache dep)) :
    data.calcBasehash hexdigest = .ok (hexdigest (g.hashed data.task)) := by
  have hmap := mapM_ok (l := sorted data.taskdeps)
    (f := fun dep => do return dep ++ (← item data.varvals dep).getD [])
    (g := fun dep => dep ++ g.value dep) fun dep hdep => by
      rw [item_eq_ok.2 (hvals dep (.inr (hdeps ▸ mem_sorted.1 hdep)))]
      rfl
  have hflat : ∀ deps : List Str, (deps.map fun dep => dep ++ g.value dep).flatten =
      (deps.flatMap fun dep => [dep, g.value dep]).flatten := by
    intro deps
    induction deps with
    | nil => rfl
    | cons dep deps ih => simp [ih]
  unfold Sigdata.calcBasehash
  rw [item_eq_ok.2 (hvals _ (.inl rfl)), hmap]
  show Except.ok (hexdigest (encode (g.value data.task ++
    ((sorted data.taskdeps).map fun dep => dep ++ g.value dep).flatten))) = _
  rw [hflat, hdeps, Gendeps.hashed, ← Gendeps.flatten_strings]
  rfl

theorem not_contains_of_not_mem {u : Str} (h : '/' ∉ u) : contains "./".toList u = false := by
  refine decide_eq_false fun hin => h ?_
  exact hin.subset (by decide)

theorem not_mem_basename (f : Str) : '/' ∉ basename f := not_mem_rpartition_snd f

/-- A checksummed file is hashed as its dumped form. -/
theorem checksumData_eq (c : Str × Option Str) : Sigdata.checksumData
    (if hasDot c.1 then "./".toList ++ afterDot c.1 else basename c.1, c.2) = SigGen.checksumData c := by
  unfold Sigdata.checksumData SigGen.checksumData
  cases c.2 with
  | none => rfl
  | some cs =>
    have hdot : contains "./".toList ("./".toList ++ afterDot c.1) = true :=
      decide_eq_true (List.prefix_append _ _).isInfix
    by_cases h : hasDot c.1
    · simp only [h, hdot, if_true]
    · simp only [h, if_false, Bool.false_eq_true, not_contains_of_not_mem (not_mem_basename c.1)]

/-- What makes the dumped data hash as the task was hashed: dependencies with one name have one
unihash, and a taint that is not dumped from the state is that of a taint file which is still
there. -/
structure Reproducible (env : Env) (s : SigGen) (t : Tid) : Prop where
  unihashes : ∀ rt, s.runtaskdeps.get? t.str = some rt → ∀ dep ∈ rt, ∀ dep' ∈ rt, dep.1 = dep'.1 →
    s.getUnihash env dep.2 = s.getUnihash env dep'.2
  taint : ∀ taint, s.taints.get? t.str = some taint → nostampPrefix <+: taint ∨
    contains nostampPrefix taint = false ∧
      env.readTaint ((env.datacaches t.mc).stamp t.mcfn) t.taskname ≠ none

/-- The unihash of a dependency, where it has one. -/
def unihashOf (env : Env) (s : SigGen) (tid : Str) : Str :=
  match s.getUnihash env tid with
  | .ok unihash => unihash
  | .error _ => []

theorem getUnihash_eq {tid : Str} (h : tid ∈ s.taskhash) :
    s.getUnihash env tid = .ok (unihashOf env s tid) := by
  obtain ⟨u, hu⟩ := SigGen.exists_getUnihash env h
  simp only [unihashOf, hu]

/-- The hashes of the dependencies by name, as they are dumped. -/
def dumpedHashes (env : Env) (s : SigGen) (rt : List (Str × Str)) : Dict Str Str :=
  .ofList (rt.map fun dep => (dep.1, unihashOf env s dep.2))

/-- A dumped hash is that of a dependency with the name. -/
theorem get?_dumpedHashes (env : Env) (s : SigGen) {rt : List (Str × Str)} {dep : Str × Str} (h : dep ∈ rt) :
    ∃ dep' ∈ rt, dep'.1 = dep.1 ∧
      (dumpedHashes env s rt).get? dep.1 = some (unihashOf env s dep'.2) := by
  have hmem : dep.1 ∈ dumpedHashes env s rt := Dict.mem_ofList.2 (by simpa using ⟨dep.2, h⟩)
  obtain ⟨w, hw⟩ := Dict.mem_iff_get?_isSome.1 hmem
  obtain ⟨dep', hdep', he⟩ := List.mem_map.1 (Dict.mem_of_get?_ofList hw)
  obtain ⟨hname, rfl⟩ := Prod.mk.inj he
  exact ⟨dep', hdep', hname, hw⟩

/-- The data that is dumped for a prepared task. -/
structure Dumped (env : Env) (s : SigGen) (t : Tid) (data : Sigdata) (b : Str) (rt : List (Str × Str))
    (cs : List (Str × Option Str)) : Prop where
  task : data.task = t.taskname
  taskdeps : data.taskdeps = ((env.datacaches t.mc).siggen t.mcfn).seen t.taskname
  varvals : ∀ dep, dep = t.taskname ∨ dep ∈ ((env.datacaches t.mc).siggen t.mcfn).seen t.taskname →
    data.varvals.get? dep = some (((env.datacaches t.mc).siggen t.mcfn).lookupcache dep)
  basehash : data.basehash = b
  run : ∃ run, data.run = some run ∧ run.runtaskdeps = (SigGen.sortedDeps rt).map Prod.fst ∧
    run.runtaskhashes = dumpedHashes env s rt ∧
    run.fileChecksumValues = (sortedBy cleanChecksumFilePath cs).map fun c =>
      (if hasDot c.1 then "./".toList ++ afterDot c.1 else basename c.1, c.2)
  taint : data.taint = match s.taints.get? t.str with
    | some taint => if contains nostampPrefix taint then some taint
      else env.readTaint ((env.datacaches t.mc).stamp t.mcfn) t.taskname
    | none => env.readTaint ((env.datacaches t.mc).stamp t.mcfn) t.taskname

theorem dumpSigtask_dumped {done : List Str} (hv : t.Valid) (hk : SigGen.Kept env done s t)
    (hdone : ∀ tid ∈ done, tid ∈ s.taskhash) (ht : t.str ∈ done) {stampbase : Str} {runtime : Runtime}
    (hruntime : runtime ≠ .no)
    (hstamp : runtime.referencestamp stampbase = (env.datacaches t.mc).stamp t.mcfn) :
    ∃ data b rt cs, s.dumpSigtask env t.mcfn t.taskname stampbase runtime = .ok data ∧
      s.basehash.get? t.str = some b ∧ s.runtaskdeps.get? t.str = some rt ∧
      s.fileChecksumValues.get? t.str = some cs ∧ (∀ dep ∈ rt, dep.2 ∈ s.taskhash) ∧
      Dumped env s t data b rt cs := by
  obtain ⟨b, hb, hbase⟩ := hk.basehash
  obtain ⟨rt, hrt, hdeps⟩ := hk.runtaskdeps
  obtain ⟨cs, hcs⟩ := hk.fileChecksumValues
  obtain ⟨h, hh⟩ := Dict.mem_iff_get?_isSome.1 (hdone _ ht)
  have hmem := (get?_basehash hb).1
  have htaskdeps : env.siggenTaskdeps t.mc t.mcfn t.taskname = .ok _ := taskdeps_of_mem hmem
  have hrun : ∃ run, s.runData env t.str h = .ok run ∧
      run.runtaskdeps = (SigGen.sortedDeps rt).map Prod.fst ∧
      run.runtaskhashes = dumpedHashes env s rt ∧
      run.fileChecksumValues = (sortedBy cleanChecksumFilePath cs).map fun c =>
        (if hasDot c.1 then "./".toList ++ afterDot c.1 else basename c.1, c.2) := by
    have hmap := mapM_ok (l := rt) (f := fun dep => do return (dep.1, ← s.getUnihash env dep.2))
      (g := fun dep => (dep.1, unihashOf env s dep.2)) fun dep hdep => by
        rw [getUnihash_eq (hdone _ (hdeps dep hdep))]
        rfl
    simp only [SigGen.runData, item_eq_ok.2 hrt, item_eq_ok.2 hcs, getUnihash_eq (hdone _ ht), ok_bind,
      hmap]
    exact ⟨_, rfl, rfl, rfl, rfl⟩
  obtain ⟨run, hrun, hdeps', hhashes, hfiles⟩ := hrun
  have hrun' : s.dumpRun env t.str runtime = .ok (some run) := by
    simp only [SigGen.dumpRun, hh, hruntime, ne_eq, not_false_eq_true, if_true, hrun]
    rfl
  have hstr : t.mcfn ++ ':' :: t.taskname = t.str := rfl
  simp only [SigGen.dumpSigtask, hv.mcFromTid_eq, htaskdeps, ok_bind, hstr, hrun',
    item_eq_ok.2 hbase, hstamp]
  refine ⟨_, b, rt, cs, rfl, hbase, hrt, hcs, fun dep hdep => hdone _ (hdeps dep hdep), ?_⟩
  refine ⟨rfl, rfl, fun dep hdep => ?_, rfl, ⟨run, rfl, hdeps', hhashes, hfiles⟩, ?_⟩
  · refine Dict.get?_ofList_map (f := id) (List.mem_cons.2 ?_) fun _ _ he => congrArg _ he
    refine hdep.imp_right fun hdep => List.mem_filter.2 ⟨mem_sorted.2 hdep, ?_⟩
    simpa using Gendeps.not_mem_ignoredVars (Gendeps.task_mem _ _ hmem) hdep
  · simp only [SigGen.dumpTaint, hruntime, ne_eq, not_false_eq_true, true_and]

section Bytes
variable {data : Sigdata} {b : Str} {rt : List (Str × Str)} {cs : List (Str × Option Str)}

def checksumText (cs : List (Str × Option Str)) : Str :=
  (sortedBy cleanChecksumFilePath cs).flatMap SigGen.checksumData

/-- The hashed data, with the unihashes as they are looked up by tid. -/
theorem taskData_eq (hb : s.basehash.get? t.str = some b) (hr : s.runtaskdeps.get? t.str = some rt)
    (hc : s.fileChecksumValues.get? t.str = some cs) (hmem : ∀ dep ∈ rt, dep.2 ∈ s.taskhash) :
    s.taskData env t.str = .ok (b ++
      ((SigGen.sortedDeps rt).map fun dep => unihashOf env s dep.2).flatten ++ checksumText cs ++
      ((s.taints.get? t.str).map SigGen.taintData).getD []) := by
  have hmap := mapM_ok (l := SigGen.sortedDeps rt) (f := fun dep => s.getUnihash env dep.2)
    (g := fun dep => unihashOf env s dep.2) fun dep hdep =>
      getUnihash_eq (hmem dep (mem_sortedBy.1 hdep))
  simp only [SigGen.taskData, item_eq_ok.2 hb, item_eq_ok.2 hr, item_eq_ok.2 hc, ok_bind, hmap]
  rfl

/-- The recomputed data, with the hashes as they are looked up by name. -/
theorem dumpedTaskData_eq (h : Dumped env s t data b rt cs) : data.calcTaskhash env.hexdigest =
    .ok (env.hexdigest (encode (b ++ ((SigGen.sortedDeps rt).map fun dep =>
      ((dumpedHashes env s rt).get? dep.1).getD []).flatten ++ checksumText cs ++
      (data.taint.map Sigdata.taintData).getD []))) := by
  obtain ⟨run, hrun, hdeps, hhashes, hfiles⟩ := h.run
  have hmap := mapM_ok (l := (SigGen.sortedDeps rt).map Prod.fst)
    (f := fun dep => item (dumpedHashes env s rt) dep)
    (g := fun dep => ((dumpedHashes env s rt).get? dep).getD []) fun dep hdep => by
      obtain ⟨d, hd, rfl⟩ := List.mem_map.1 hdep
      obtain ⟨d', -, -, hget⟩ := get?_dumpedHashes env s (mem_sortedBy.1 hd)
      rw [item_eq_ok.2 hget, hget]
      rfl
  have hfiles' : run.fileChecksumValues.flatMap Sigdata.checksumData = checksumText cs := by
    rw [hfiles, List.flatMap_map]
    exact List.flatMap_congr fun c _ => checksumData_eq c
  have htask : data.taskData run = .ok (b ++ ((SigGen.sortedDeps rt).map fun dep =>
      ((dumpedHashes env s rt).get? dep.1).getD []).flatten ++ checksumText cs ++
      (data.taint.map Sigdata.taintData).getD []) := by
    simp only [Sigdata.taskData, hdeps, hhashes, hmap, ok_bind, hfiles', h.basehash, List.map_map]
    rfl
  simp only [Sigdata.calcTaskhash, hrun, htask, ok_bind]
  rfl

/-- The taint that is hashed, against the one that is recomputed. -/
theorem taint_eq_iff (h : Dumped env s t data b rt cs) (hk : ∀ taint,
      env.readTaint ((env.datacaches t.mc).stamp t.mcfn) t.taskname = some taint →
      s.taints.get? t.str = some taint)
    (hne : ∀ taint, s.taints.get? t.str = some taint → taint ≠ []) :
    ((s.taints.get? t.str).map SigGen.taintData).getD [] =
      (data.taint.map Sigdata.taintData).getD [] ↔
    ∀ taint, s.taints.get? t.str = some taint → nostampPrefix <+: taint ∨
      contains nostampPrefix taint = false ∧
        env.readTaint ((env.datacaches t.mc).stamp t.mcfn) t.taskname ≠ none := by
  rw [h.taint]
  cases hs : s.taints.get? t.str with
  | none =>
    have hnone : env.readTaint ((env.datacaches t.mc).stamp t.mcfn) t.taskname = none := by
      by_contra hsome
      obtain ⟨taint, htaint⟩ := Option.ne_none_iff_exists'.1 hsome
      rw [hk taint htaint] at hs
      cases hs
    simp [hnone]
  | some taint =>
    have hpos := List.length_pos_iff.2 (hne taint hs)
    by_cases hc : contains nostampPrefix taint = true
    · by_cases hp : nostampPrefix <+: taint
      · have hp' : nostampPrefix.isPrefixOf taint = true := List.isPrefixOf_iff_prefix.2 hp
        simp [hc, hp, hp', SigGen.taintData, Sigdata.taintData]
      · have hp' : nostampPrefix.isPrefixOf taint = false :=
          Bool.eq_false_iff.2 fun h => hp (List.isPrefixOf_iff_prefix.1 h)
        have hdrop : taint ≠ taint.drop 8 := by
          intro he
          have := congrArg List.length he
          rw [List.length_drop] at this
          omega
        simp [hc, hp, hp', SigGen.taintData, Sigdata.taintData, hdrop]
    · have hp : ¬ nostampPrefix <+: taint := fun hp => hc (decide_eq_true hp.isInfix)
      have hp' : nostampPrefix.isPrefixOf taint = false :=
        Bool.eq_false_iff.2 fun h => hp (List.isPrefixOf_iff_prefix.1 h)
      cases hfile : env.readTaint ((env.datacaches t.mc).stamp t.mcfn) t.taskname with
      | none => simp [hc, hp, hp', SigGen.taintData, hne taint hs]
      | some file =>
        obtain rfl : taint = file := Option.some.inj (hs.symm.trans (hk file hfile))
        simp [hc, hp', SigGen.taintData, Sigdata.taintData]

end Bytes

/-- The unihashes of the dependencies are as long, as those of one hash function are. -/
def UniformUnihashes (env : Env) (s : SigGen) (t : Tid) : Prop :=
  ∀ rt, s.runtaskdeps.get? t.str = some rt → ∀ dep ∈ rt, ∀ dep' ∈ rt,
    (unihashOf env s dep.2).length = (unihashOf env s dep'.2).length

section Unihashes
variable {rt : List (Str × Str)}

/-- Looked up by name, the hashes are the same if those of one name are. -/
theorem unihashes_eq (h : ∀ dep ∈ rt, ∀ dep' ∈ rt, dep.1 = dep'.1 →
      unihashOf env s dep.2 = unihashOf env s dep'.2) :
    (SigGen.sortedDeps rt).map (fun dep => unihashOf env s dep.2) =
      (SigGen.sortedDeps rt).map fun dep => ((dumpedHashes env s rt).get? dep.1).getD [] := by
  refine List.map_congr_left fun dep hdep => ?_
  have hdep := mem_sortedBy.1 hdep
  obtain ⟨dep', hdep', hname, hget⟩ := get?_dumpedHashes env s hdep
  rw [hget, h dep hdep dep' hdep' hname.symm]
  rfl

theorem length_unihashes (h : ∀ dep ∈ rt, ∀ dep' ∈ rt,
      (unihashOf env s dep.2).length = (unihashOf env s dep'.2).length) :
    ((SigGen.sortedDeps rt).map fun dep => unihashOf env s dep.2).map List.length =
      ((SigGen.sortedDeps rt).map fun dep => ((dumpedHashes env s rt).get? dep.1).getD []).map
        List.length := by
  rw [List.map_map, List.map_map]
  refine List.map_congr_left fun dep hdep => ?_
  have hdep := mem_sortedBy.1 hdep
  obtain ⟨dep', hdep', -, hget⟩ := get?_dumpedHashes env s hdep
  simp only [Function.comp_apply, hget, Option.getD_some]
  exact h dep hdep dep' hdep'

/-- Two dependencies with one name have the hash that is looked up by it. -/
theorem eq_of_unihashes_eq (h : (SigGen.sortedDeps rt).map (fun dep => unihashOf env s dep.2) =
      (SigGen.sortedDeps rt).map fun dep => ((dumpedHashes env s rt).get? dep.1).getD []) :
    ∀ dep ∈ rt, ∀ dep' ∈ rt, dep.1 = dep'.1 → unihashOf env s dep.2 = unihashOf env s dep'.2 := by
  have hall := List.map_inj_left.1 h
  intro dep hdep dep' hdep' hname
  have h₁ : unihashOf env s dep.2 = ((dumpedHashes env s rt).get? dep.1).getD [] :=
    hall dep (mem_sortedBy.2 hdep)
  have h₂ : unihashOf env s dep'.2 = ((dumpedHashes env s rt).get? dep'.1).getD [] :=
    hall dep' (mem_sortedBy.2 hdep')
  rw [h₁, h₂, hname]

end Unihashes

/-- The dump of a prepared task recomputes the base hash. What it recomputes the task hash of is what
was hashed if and, hashes being as long, only if the dump is `Reproducible`. -/
theorem dumpSigtask_reproduces {done : List Str} (h : SigGen.Run env done s) (hv : t.Valid)
    (ht : t.str ∈ done) {stampbase : Str} {runtime : Runtime} (hruntime : runtime ≠ .no)
    (hstamp : runtime.referencestamp stampbase = (env.datacaches t.mc).stamp t.mcfn) :
    ∃ data b x y, s.dumpSigtask env t.mcfn t.taskname stampbase runtime = .ok data ∧
      s.basehash.get? t.str = some b ∧ data.calcBasehash env.hexdigest = .ok b ∧
      s.taskhash.get? t.str = some (env.hexdigest x) ∧
      data.calcTaskhash env.hexdigest = .ok (env.hexdigest y) ∧
      (Reproducible env s t → x = y) ∧
      (UniformUnihashes env s t → x = y → Reproducible env s t) := by
  obtain ⟨hne, hmem, hkept⟩ := h.kept
  have hk := hkept t hv ht
  obtain ⟨data, b, rt, cs, hdata, hb, hrt, hcs, hdeps, hd⟩ :=
    dumpSigtask_dumped hv hk hmem ht hruntime hstamp
  obtain ⟨x, hx, hhash⟩ := hk.taskhash
  obtain ⟨b', hb', hbase⟩ := hk.basehash
  obtain rfl := Option.some.inj (hb.symm.trans hbase)
  rw [taskData_eq hb hrt hcs hdeps] at hx
  obtain rfl := Except.ok.inj hx
  have htaint := taint_eq_iff hd hk.taint (hne t.str)
  have huni : (∀ dep ∈ rt, ∀ dep' ∈ rt, dep.1 = dep'.1 →
      unihashOf env s dep.2 = unihashOf env s dep'.2) ↔
      ∀ rt, s.runtaskdeps.get? t.str = some rt → ∀ dep ∈ rt, ∀ dep' ∈ rt, dep.1 = dep'.1 →
        s.getUnihash env dep.2 = s.getUnihash env dep'.2 := by
    constructor
    · intro h rt' hrt' dep hdep dep' hdep' hname
      obtain rfl := Option.some.inj (hrt.symm.trans hrt')
      rw [getUnihash_eq (hdeps dep hdep), getUnihash_eq (hdeps dep' hdep'), h dep hdep dep' hdep' hname]
    · intro h dep hdep dep' hdep' hname
      have := h rt hrt dep hdep dep' hdep' hname
      rw [getUnihash_eq (hdeps dep hdep), getUnihash_eq (hdeps dep' hdep')] at this
      exact Except.ok.inj this
  refine ⟨data, b, _, _, hdata, hb, ?_, hhash, dumpedTaskData_eq hd, fun hr => ?_, fun hlen hxy => ?_⟩
  · rw [(get?_basehash hb').2, ← hd.task]
    exact calcBasehash_eq (by rw [hd.task, hd.taskdeps]) (by rw [hd.task]; exact hd.varvals)
  · rw [unihashes_eq (huni.2 hr.unihashes), htaint.2 hr.taint]
  · have hxy := encode_inj.1 hxy
    simp only [List.append_assoc, List.append_cancel_left_eq] at hxy
    have hlens := length_unihashes (hlen rt hrt)
    have hflat := congrArg List.sum hlens
    rw [← List.length_flatten, ← List.length_flatten] at hflat
    obtain ⟨hu, hrest⟩ := List.append_inj hxy hflat
    exact ⟨huni.1 (eq_of_unihashes_eq (List.eq_iff_flatten_eq.2 ⟨hu, hlens⟩)),
      htaint.1 (List.append_cancel_left hrest)⟩

end Dump

section Sample
namespace Sample

/-- A recipe file with the task `t`, whose value is the name of the file. -/
def recipe (mcfn : Str) : Gendeps where
  tasklist := [['t']]
  ignoredVars := ∅
  nodes := {['t']}
  gendeps _ := ∅
  lookupcache _ := some mcfn
  task_mem := by decide
  closed := by decide
  not_ignored := by simp

/-- `a` and `b` are recipe files of `p`, the others of `q`. The hash of a text is the text. -/
def env : Env where
  hexdigest bytes := bytes.data.toList.map fun b => Char.ofNat b.toNat
  cachedUnihash _ := none
  taskhashIgnoreTasks := none
  twl := none
  datacaches _ :=
    { pkgFn := fun mcfn => if mcfn = ['a'] ∨ mcfn = ['b'] then ['p'] else ['q']
      siggen := recipe
      fileChecksums := fun _ _ => none
      nostamp := fun _ _ => false
      stamp := fun mcfn => mcfn }
  files _ := none

/-- The tasks `l` of recipe files without dependencies, prepared. -/
def alone (l : List Str) : SigGen where
  basehash := .ofList (l.map fun fn => (fn ++ [':', 't'], fn))
  taskhash := .ofList (l.map fun fn => (fn ++ [':', 't'], fn))
  runtaskdeps := .ofList (l.map fun fn => (fn ++ [':', 't'], []))
  fileChecksumValues := .ofList (l.map fun fn => (fn ++ [':', 't'], []))
  taints := .empty
  tidtopn := .ofList (l.map fun fn => (fn ++ [':', 't'], ['p']))

/-- A third task, with the two others as its dependencies. -/
def both : SigGen where
  basehash := .ofList [("a:t", ['a']), ("b:t", ['b']), ("c:t", ['c'])]
  taskhash := .ofList [("a:t", ['a']), ("b:t", ['b']), ("c:t", ['c', 'a', 'b'])]
  runtaskdeps := .ofList [("a:t", []), ("b:t", []), ("c:t", [("p:t", "a:t"), ("p:t", "b:t")])]
  fileChecksumValues := .ofList [("a:t", []), ("b:t", []), ("c:t", [])]
  taints := .empty
  tidtopn := .ofList [("a:t", ['p']), ("b:t", ['p']), ("c:t", ['q'])]

theorem run_alone : SigGen.Run env ["b:t".toList, "a:t".toList] (alone [['a'], ['b']]) := by
  have h₀ : SigGen.Run env [] (alone []) := .start (by simp [alone])
  have hprep : (alone []).prepTaskhash env "a:t".toList [] [] =
      .ok { alone [['a']] with taskhash := .empty } := by decide +kernel
  have h₁ : SigGen.Run env ["a:t".toList] (alone [['a']]) :=
    h₀.step (by decide) (by decide) hprep (by decide +kernel)
  have hprep : (alone [['a']]).prepTaskhash env "b:t".toList [] [] =
      .ok { alone [['a'], ['b']] with taskhash := (alone [['a']]).taskhash } := by decide +kernel
  exact h₁.step (by decide) (by decide) hprep (by decide +kernel)

theorem run_both : SigGen.Run env ["c:t".toList, "b:t".toList, "a:t".toList] both := by
  have hprep : (alone [['a'], ['b']]).prepTaskhash env "c:t".toList ["a:t".toList, "b:t".toList] [] =
      .ok { both with taskhash := (alone [['a'], ['b']]).taskhash } := by decide +kernel
  exact run_alone.step (by decide) (by decide) hprep (by decide +kernel)

/-- The third task. -/
def task : Tid := ⟨[], ['c'], ['t'], ['c']⟩

end Sample

theorem both_reproduces : ∃ data b x y,
    Sample.both.dumpSigtask Sample.env ['c'] ['t'] ['c'] .yes = .ok data ∧
      Sample.both.basehash.get? "c:t" = some b ∧ data.calcBasehash Sample.env.hexdigest = .ok b ∧
      Sample.both.taskhash.get? "c:t" = some (Sample.env.hexdigest x) ∧
      data.calcTaskhash Sample.env.hexdigest = .ok (Sample.env.hexdigest y) ∧
      (Reproducible Sample.env Sample.both Sample.task → x = y) ∧
      (UniformUnihashes Sample.env Sample.both Sample.task → x = y →
        Reproducible Sample.env Sample.both Sample.task) :=
  dumpSigtask_reproduces (t := Sample.task) Sample.run_both (show _ = _ by decide +kernel) (by decide)
    (by decide) rfl

/-- The dump of the third task hashes the unihash of `b` for both of its dependencies `p:t`. -/
theorem same_name_differs : SigGen.Run Sample.env ["c:t", "b:t", "a:t"] Sample.both ∧
    (Sample.both.dumpSigtask Sample.env ['c'] ['t'] ['c'] .yes >>= fun data =>
      data.calcTaskhash Sample.env.hexdigest) = .ok ['c', 'b', 'b'] ∧
    Sample.both.taskhash.get? "c:t" = some ['c', 'a', 'b'] :=
  ⟨Sample.run_both, by decide +kernel, by decide +kernel⟩

end Sample

end BitBake
end OpenBmc
