import OpenBmc.Lib.FileTree
import OpenBmc.Py.Path

/-!
# Resolving links below a root

`oe.path.realpath` resolves the links of a path as if its root were the root of the file system, on
texts: a path stands at a list of components below the root when its text is the root's followed by
them (`At`). Whatever the links are, no walk leaves the root and no assertion fails, and the path that
is returned has no link below the root (`realpath_stays_below`).
-/

namespace OpenBmc
namespace Oe
open Py Py.Path

/-- What `os.readlink` and `os.path.isdir` say of a path. The system looks behind a link whose path
ends with a slash. -/
structure FileSystem where
  link : Str → Option Str
  isDir : Str → Bool
  follows : ∀ s, link (s ++ ['/']) = none

inductive Errno
  | enoent
  | eloop
  | einval
deriving DecidableEq

inductive Failure
  | os (errno : Errno) (text : Str)
  | assertion
deriving DecidableEq

/-- `__is_path_below`. -/
def isPathBelow (file root : Str) : Bool := root.isPrefixOf (file ++ ['/'])

/-- `__realpath_rel`, for the components of `rel_path` that are left. -/
def realpathRel (realpathOf : Str → Except Failure (Str × Bool)) (root : Str) (assumeDir : Bool) :
    Bool → Str → List Str → Except Failure Str
  | _, start, [] => .ok start
  | haveDir, start, d :: ds => do
    if ¬ haveDir ∧ ¬ assumeDir then throw (.os .enoent ("no such directory ".toList ++ start))
    let (start, haveDir) ← if d = pardir then
        pure (if root.length ≤ start.length then dirname start else start, haveDir)
      else realpathOf (join start d)
    if ¬ isPathBelow start root then throw .assertion
    realpathRel realpathOf root assumeDir haveDir start ds

/-- Where the target of the link `file` starts. -/
def targetDir (root file target : Str) : Except Failure Str :=
  if isAbs target then .ok root
  else if isPathBelow (dirname file) root then .ok (dirname file) else .error .assertion

/-- `__realpath`: a link that is not above the root is followed, `loop_cnt` times at most. -/
def realpathOf (fs : FileSystem) (root : Str) (assumeDir : Bool) :
    Nat → Str → Except Failure (Str × Bool)
  | 0, file =>
    if fs.link file ≠ none ∧ root.length ≤ file.length then .error (.os .eloop file)
    else .ok (file, fs.isDir file)
  | loopCnt + 1, file =>
    match fs.link file with
    | none => .ok (file, fs.isDir file)
    | some link =>
      if root.length ≤ file.length then do
        let tdir ← targetDir root file (normpath link)
        let file ← realpathRel (realpathOf fs root assumeDir loopCnt) root assumeDir true tdir
          ((normpath link).splitOn '/')
        realpathOf fs root assumeDir loopCnt file
      else .ok (file, fs.isDir file)

/-- The root as `realpath` uses it, with a slash at its end. -/
def rootText (root : Str) : Str :=
  if (normpath root).getLast? = some '/' then normpath root else normpath root ++ ['/']

def loopText (file name : Str) : Str :=
  "too much recursions while resolving '".toList ++ file ++ "'; loop in '".toList ++ name ++ "'".toList

/-- An `ELOOP` names the path that was asked for. -/
def explained (file : Str) : Except Failure Str → Except Failure Str
  | .error (.os .eloop name) => .error (.os .eloop (loopText file name))
  | result => result

def realpath (fs : FileSystem) (file root : Str) (usePhysdir : Bool) (loopCnt : Nat)
    (assumeDir : Bool) : Except Failure Str :=
  let root := rootText root
  let file := normpath file
  if ¬ isPathBelow file root then
    .error (.os .einval ("file '".toList ++ file ++ "' is not below root".toList))
  else if usePhysdir then
    explained file (realpathRel (realpathOf fs root assumeDir loopCnt) root assumeDir true root
      ((file.drop (root.length - 1)).splitOn '/'))
  else explained file ((realpathOf fs root assumeDir loopCnt file).map Prod.fst)

/-! ### Where a text stands -/

/-- What stands before the components below the root: nothing, a slash, or a text that does not end
with one. -/
def IsBase (base : Str) : Prop := base = [] ∨ base = ['/'] ∨ base.getLast? ≠ some '/'

/-- The text is that of `comps` below the root, with or without a slash at its end. -/
structure At (base : Str) (comps : List Str) (text : Str) : Prop where
  isComp : ∀ c ∈ comps, c ≠ [] ∧ '/' ∉ c
  eq : text = base ++ below comps ++ ['/'] ∨
    text = base ++ below comps ∧ (comps ≠ [] ∨ base ≠ [] ∧ base.getLast? ≠ some '/')

section At
variable {base : Str} {comps : List Str} {text : Str}

theorem at_root (base : Str) : At base [] (base ++ ['/']) := ⟨by simp, .inl (by simp [below])⟩

theorem At.isPathBelow (h : At base comps text) : isPathBelow text (base ++ ['/']) := by
  rw [Oe.isPathBelow, List.isPrefixOf_iff_prefix]
  have hhead : ∀ l : List Str, ∃ r, below l ++ ['/'] = '/' :: r := fun l => by
    cases l with
    | nil => exact ⟨[], rfl⟩
    | cons c l => exact ⟨_, rfl⟩
  obtain ⟨r, hr⟩ := hhead comps
  rcases h.eq with rfl | ⟨rfl, -⟩
  · exact ⟨r ++ ['/'], by simp [hr]⟩
  · exact ⟨r, by simp [hr]⟩

/-- A text without a slash at its end that is no shorter than the root has a component. -/
theorem At.ne_nil (h : At base comps text) (hs : text.getLast? ≠ some '/')
    (hl : (base ++ ['/']).length ≤ text.length) : comps ≠ [] ∧ text = base ++ below comps := by
  rcases h.eq with rfl | ⟨rfl, -⟩
  · exact absurd (by simp) hs
  · refine ⟨?_, rfl⟩
    rintro rfl
    simp [below] at hl

theorem At.length_le (h : At base comps text) (hne : comps ≠ []) :
    (base ++ ['/']).length ≤ text.length := by
  have hb : 1 ≤ (below comps).length := List.length_pos_iff.2 fun he => hne (below_eq_nil.1 he)
  rcases h.eq with rfl | ⟨rfl, -⟩
  · simp
  · simpa using hb

variable (base) in
theorem getLast?_append_below (hc : ∀ c ∈ comps, c ≠ [] ∧ '/' ∉ c)
    (h : comps ≠ [] ∨ base ≠ [] ∧ base.getLast? ≠ some '/') :
    base ++ below comps ≠ [] ∧ (base ++ below comps).getLast? ≠ some '/' := by
  by_cases hne : comps = []
  · subst hne
    have hb := h.resolve_left fun h => h rfl
    simpa [below] using hb
  · have hb : below comps ≠ [] := fun he => hne (below_eq_nil.1 he)
    refine ⟨fun he => hb (List.append_eq_nil_iff.1 he).2, ?_⟩
    rw [List.getLast?_append_of_ne_nil _ hb]
    exact getLast?_below hc

theorem At.join (h : At base comps text) {d : Str} (hd : '/' ∉ d) :
    if d = [] then At base comps (join text d) ∧ (join text d).getLast? = some '/'
    else At base (comps ++ [d]) (join text d) ∧ join text d = base ++ below (comps ++ [d]) := by
  have habs : isAbs d = false := by
    rw [isAbs, decide_eq_false_iff_not]
    exact fun he => hd (List.mem_of_head? he)
  -- joined, the text has one slash before the component
  have hjoin : Path.join text d = base ++ below comps ++ '/' :: d := by
    rw [Path.join, if_neg (by simp [habs])]
    rcases h.eq with rfl | ⟨rfl, hc⟩
    · rw [if_pos (.inr (by simp))]
      simp
    · obtain ⟨h1, h2⟩ := getLast?_append_below base h.isComp hc
      rw [if_neg (not_or.2 ⟨h1, h2⟩)]
  rw [hjoin]
  split
  · subst_vars
    exact ⟨⟨h.isComp, .inl rfl⟩, by simp⟩
  · rename_i hne
    have htext : base ++ below comps ++ '/' :: d = base ++ below (comps ++ [d]) := by
      simp [below]
    refine ⟨⟨fun c hc => ?_, .inr ⟨htext, .inl (by simp)⟩⟩, htext⟩
    rcases List.mem_append.1 hc with hc | hc
    · exact h.isComp c hc
    · rw [List.mem_singleton.1 hc]; exact ⟨hne, hd⟩

theorem rdropWhile_component (x : Str) {d : Str} (hd : '/' ∉ d) :
    (x ++ '/' :: d).rdropWhile (· ≠ '/') = x ++ ['/'] := by
  have hself : (x ++ ['/']).rdropWhile (fun c => decide (c ≠ '/')) = x ++ ['/'] :=
    List.rdropWhile_concat_neg _ _ _ (by decide)
  have hcut : x ++ '/' :: d = (x ++ ['/']) ++ d := by simp
  rw [hcut, List.rdropWhile, List.reverse_append, List.dropWhile_append_of_pos, ← List.rdropWhile, hself]
  intro c hc
  have hne : c ≠ '/' := fun he => hd (he ▸ List.mem_reverse.1 hc)
  simpa using hne

/-- Stripped of its slash, unless it is all slashes, the text stands where it stood. -/
theorem at_stripped (hc : ∀ c ∈ comps, c ≠ [] ∧ '/' ∉ c) (hb : IsBase base) :
    At base comps (if (base ++ below comps ++ ['/']).all (· = '/') then base ++ below comps ++ ['/']
      else (base ++ below comps ++ ['/']).rdropWhile (· = '/')) := by
  split
  · exact ⟨hc, .inl rfl⟩
  · rename_i hall
    have hfirm : comps ≠ [] ∨ base ≠ [] ∧ base.getLast? ≠ some '/' := by
      by_contra hnot
      obtain ⟨rfl, hbase⟩ : comps = [] ∧ ¬ (base ≠ [] ∧ base.getLast? ≠ some '/') := by
        simpa only [not_or, not_not] using hnot
      rcases hb with rfl | rfl | hlast
      · exact hall (by decide)
      · exact hall (by decide)
      · by_cases hnil : base = []
        · subst hnil
          exact hall (by decide)
        · exact hbase ⟨hnil, hlast⟩
    obtain ⟨hne, hlast⟩ := getLast?_append_below base hc hfirm
    rw [List.rdropWhile_concat_pos _ _ _ (by decide), List.rdropWhile_eq_self_iff.2]
    · exact ⟨hc, .inr ⟨rfl, hfirm⟩⟩
    · intro _ hslash
      rw [List.getLast?_eq_getLast_of_ne_nil hne] at hlast
      exact hlast (congrArg some (by simpa using hslash))

/-- `..` from a text that has no slash at its end leaves its last component; else only the slash. -/
theorem At.dirname (h : At base comps text) (hb : IsBase base)
    (hl : (base ++ ['/']).length ≤ text.length) :
    At base (if text.getLast? = some '/' then comps else comps.dropLast) (dirname text) := by
  rw [Path.dirname]
  split
  · rename_i hs
    have htext : text = base ++ below comps ++ ['/'] := by
      rcases h.eq with heq | ⟨rfl, hc⟩
      · exact heq
      · exact absurd hs (getLast?_append_below base h.isComp hc).2
    have hself : text.rdropWhile (fun c => decide (c ≠ '/')) = text := by
      rw [htext]
      exact List.rdropWhile_concat_neg _ _ _ (by decide)
    rw [hself, htext]
    exact at_stripped h.isComp hb
  · rename_i hs
    obtain ⟨hne, rfl⟩ := h.ne_nil hs hl
    obtain ⟨init, c, rfl⟩ := List.eq_nil_or_concat' comps |>.resolve_left hne
    have hcut : base ++ below (init ++ [c]) = base ++ below init ++ '/' :: c := by
      simp [below]
    have hslash : '/' ∉ c := (h.isComp c (by simp)).2
    rw [hcut, rdropWhile_component _ hslash, List.dropLast_concat]
    exact at_stripped (fun d hd => h.isComp d (List.mem_append_left _ hd)) hb

end At

/-! ### Walks stay below the root -/

/-- A property of places that holds at the root, above each of its places, and below one where there is
no link. -/
structure Kept (fs : FileSystem) (base : Str) (K : List Str → Prop) : Prop where
  nil : K []
  init : ∀ comps, K comps → K comps.dropLast
  push : ∀ comps, K comps.dropLast → fs.link (base ++ below comps) = none → K comps

/-- The text stands at a place that has the property. -/
def Settled (base : Str) (K : List Str → Prop) (text : Str) : Prop :=
  ∃ comps, At base comps text ∧ K comps

/-- The text stands at a place whose directory has the property, and itself has it when the system
would look behind it. -/
def Ready (base : Str) (K : List Str → Prop) (text : Str) : Prop :=
  ∃ comps, At base comps text ∧ K comps.dropLast ∧ (text.getLast? = some '/' → K comps)

/-- A walk that returns does so at such a place, and no assertion fails. -/
def Walked (base : Str) (K : List Str → Prop) : Except Failure Str → Prop
  | .ok text => Settled base K text
  | .error e => e ≠ .assertion

section Walk
variable {fs : FileSystem} {base : Str} {K : List Str → Prop} {text : Str}

theorem Settled.isPathBelow (h : Settled base K text) : isPathBelow text (base ++ ['/']) := by
  obtain ⟨comps, ha, -⟩ := h
  exact ha.isPathBelow

theorem Settled.ready (hK : Kept fs base K) (h : Settled base K text) : Ready base K text := by
  obtain ⟨comps, ha, hk⟩ := h
  exact ⟨comps, ha, hK.init comps hk, fun _ => hk⟩

theorem Settled.join (hK : Kept fs base K) (h : Settled base K text) {d : Str} (hd : '/' ∉ d) :
    Ready base K (join text d) := by
  obtain ⟨comps, ha, hk⟩ := h
  have hj := ha.join hd
  split at hj
  · exact ⟨comps, hj.1, hK.init comps hk, fun _ => hk⟩
  · refine ⟨comps ++ [d], hj.1, by rwa [List.dropLast_concat], fun hs => ?_⟩
    rw [hj.2] at hs
    exact absurd hs (getLast?_append_below base hj.1.isComp (.inl (by simp))).2

/-- Where there is no link to follow. -/
theorem Ready.settled (hK : Kept fs base K) (h : Ready base K text)
    (hl : fs.link text ≠ none → ¬ (base ++ ['/']).length ≤ text.length) : Settled base K text := by
  obtain ⟨comps, ha, hk, hs⟩ := h
  refine ⟨comps, ha, ?_⟩
  by_cases hslash : text.getLast? = some '/'
  · exact hs hslash
  by_cases hnil : comps = []
  · exact hnil ▸ hK.nil
  · have hlen := ha.length_le hnil
    refine hK.push comps hk ?_
    rw [← (ha.ne_nil hslash hlen).2]
    exact not_not.1 fun hne => hl hne hlen

theorem getLast?_of_link {target : Str} (h : fs.link text = some target) : text.getLast? ≠ some '/' := by
  intro hs
  obtain ⟨init, hi⟩ := List.getLast?_eq_some_iff.1 hs
  rw [hi, fs.follows] at h
  cases h

/-- The directory of a link. -/
theorem Ready.dirname (hb : IsBase base) (h : Ready base K text) {target : Str}
    (hl : fs.link text = some target) (hlen : (base ++ ['/']).length ≤ text.length) :
    Settled base K (dirname text) := by
  obtain ⟨comps, ha, hk, -⟩ := h
  have hd := ha.dirname hb hlen
  rw [if_neg (getLast?_of_link hl)] at hd
  exact ⟨_, hd, hk⟩

theorem Settled.dirname (hK : Kept fs base K) (hb : IsBase base) (h : Settled base K text)
    (hlen : (base ++ ['/']).length ≤ text.length) : Settled base K (dirname text) := by
  obtain ⟨comps, ha, hk⟩ := h
  refine ⟨_, ha.dirname hb hlen, ?_⟩
  split
  · exact hk
  · exact hK.init comps hk

theorem realpathRel_walked (assumeDir : Bool) (hK : Kept fs base K) (hb : IsBase base)
    {step : Str → Except Failure (Str × Bool)}
    (hstep : ∀ text, Ready base K text → Walked base K ((step text).map Prod.fst)) :
    ∀ (ds : List Str) (haveDir : Bool) (start : Str), Settled base K start → (∀ d ∈ ds, '/' ∉ d) →
      Walked base K (realpathRel step (base ++ ['/']) assumeDir haveDir start ds)
  | [], _, _, h, _ => h
  | d :: ds, haveDir, start, h, hds => by
    have hrest := fun (haveDir : Bool) (start : Str) (h : Settled base K start) =>
      realpathRel_walked assumeDir hK hb hstep ds haveDir start h fun d hd =>
        hds d (List.mem_cons_of_mem _ hd)
    rw [realpathRel]
    split
    · exact Failure.noConfusion
    · have hnext : ∀ haveDir start, Settled base K start → Walked base K (do
          if ¬ isPathBelow start (base ++ ['/']) then throw .assertion
          realpathRel step (base ++ ['/']) assumeDir haveDir start ds) := fun haveDir start h => by
        have hbelow := h.isPathBelow
        rw [if_neg (not_not.2 hbelow)]
        exact hrest haveDir start h
      by_cases hd : d = pardir
      · rw [if_pos hd]
        refine hnext haveDir _ ?_
        split
        · exact h.dirname hK hb ‹_›
        · exact h
      · rw [if_neg hd]
        have hw := hstep _ (h.join hK (hds d List.mem_cons_self))
        cases hr : step (join start d) with
        | error e => rw [hr] at hw; exact hw
        | ok r => rw [hr] at hw; exact hnext r.2 r.1 hw

theorem realpathOf_walked (assumeDir : Bool) (hK : Kept fs base K) (hb : IsBase base) :
    ∀ (n : Nat) (text : Str), Ready base K text →
      Walked base K ((realpathOf fs (base ++ ['/']) assumeDir n text).map Prod.fst)
  | 0, text, h => by
    rw [realpathOf]
    split
    · exact Failure.noConfusion
    · rename_i hnot
      exact h.settled hK fun hl hlen => hnot ⟨hl, hlen⟩
  | n + 1, text, h => by
    rw [realpathOf]
    cases hl : fs.link text with
    | none => exact h.settled hK fun hne => absurd hl hne
    | some target =>
      simp only
      split
      · rename_i hlen
        have hdir : ∀ tdir, targetDir (base ++ ['/']) text (normpath target) = .ok tdir →
            Settled base K tdir := fun tdir ht => by
          unfold targetDir at ht
          split_ifs at ht
          · cases ht
            exact ⟨[], at_root base, hK.nil⟩
          · cases ht
            exact h.dirname hb hl hlen
        have hok : ∃ tdir, targetDir (base ++ ['/']) text (normpath target) = .ok tdir := by
          unfold targetDir
          rw [if_pos (h.dirname hb hl hlen).isPathBelow]
          split <;> exact ⟨_, rfl⟩
        obtain ⟨tdir, ht⟩ := hok
        have hwalk := realpathRel_walked assumeDir hK hb (realpathOf_walked assumeDir hK hb n)
          ((normpath target).splitOn '/') true tdir (hdir tdir ht) fun d hd => not_mem_of_mem_splitOn hd
        rw [ht]
        cases hr : realpathRel (realpathOf fs (base ++ ['/']) assumeDir n) (base ++ ['/']) assumeDir true
            tdir ((normpath target).splitOn '/') with
        | error e =>
          rw [hr] at hwalk
          simp only [bind, Except.bind, hr]
          exact hwalk
        | ok file =>
          rw [hr] at hwalk
          have hnext := realpathOf_walked assumeDir hK hb n file (hwalk.ready hK)
          simpa [bind, Except.bind, hr] using hnext
      · rename_i hshort
        exact h.settled hK fun _ => hshort

end Walk

/-! ### Normalised texts -/

theorem mem_normComps (abs : Bool) {comps : List Str} (hcomps : ∀ c ∈ comps, '/' ∉ c) :
    ∀ c ∈ normComps abs comps, c ≠ [] ∧ '/' ∉ c := by
  have hfold : ∀ (l acc : List Str), (∀ c ∈ l, '/' ∉ c) → (∀ c ∈ acc, c ≠ [] ∧ '/' ∉ c) →
      ∀ c ∈ l.foldl (normStep abs) acc, c ≠ [] ∧ '/' ∉ c := by
    intro l
    induction l with
    | nil => exact fun acc _ hacc => hacc
    | cons d l ih =>
      intro acc hl hacc
      refine ih _ (fun c hc => hl c (List.mem_cons_of_mem _ hc)) fun c hc => ?_
      unfold normStep at hc
      split_ifs at hc with h1 h2
      · exact hacc c hc
      · rcases List.mem_cons.1 hc with rfl | hc
        · exact ⟨(not_or.1 h1).1, hl c List.mem_cons_self⟩
        · exact hacc c hc
      · exact hacc c (List.mem_of_mem_tail hc)
  exact fun c hc => hfold comps [] hcomps (by simp) c (List.mem_reverse.1 hc)

/-- A normalised text: slashes and components with single slashes between them. -/
theorem normpath_form (s : Str) : ∃ comps : List Str, (∀ c ∈ comps, c ≠ [] ∧ '/' ∉ c) ∧
    normpath s = slashes s ++ ['/'].intercalate comps ∧ (slashes s = [] → comps ≠ []) := by
  have hdot : ∀ c ∈ [dot], c ≠ [] ∧ '/' ∉ c := by decide
  have hcomps := mem_normComps (isAbs s) fun c (hc : c ∈ s.splitOn '/') => not_mem_of_mem_splitOn hc
  by_cases hs : s = []
  · subst hs
    exact ⟨[dot], hdot, rfl, fun _ => by simp⟩
  · by_cases hnil : slashes s ++ ['/'].intercalate (normComps (isAbs s) (s.splitOn '/')) = []
    · refine ⟨[dot], hdot, ?_, fun _ => by simp⟩
      rw [normpath, if_neg hs]
      refine (if_pos hnil).trans ?_
      rw [(List.append_eq_nil_iff.1 hnil).1]
      rfl
    · refine ⟨_, hcomps, ?_, fun h he => hnil ?_⟩
      · rw [normpath, if_neg hs]
        exact if_neg hnil
      · rw [h, he]
        rfl

theorem slashes_cases (s : Str) : slashes s = [] ∨ slashes s = ['/'] ∨ slashes s = ['/', '/'] := by
  unfold slashes
  split_ifs <;> simp

theorem getLast?_intercalate {comps : List Str} (hc : ∀ c ∈ comps, c ≠ [] ∧ '/' ∉ c)
    (hnil : comps ≠ []) (s : Str) :
    s ++ ['/'].intercalate comps ≠ [] ∧ (s ++ ['/'].intercalate comps).getLast? ≠ some '/' := by
  obtain ⟨c, comps, rfl⟩ := List.exists_cons_of_ne_nil hnil
  have htext : (pathText (c :: comps)).getLast? ≠ some '/' := by
    rw [pathText_of_ne_nil hnil]
    exact getLast?_below hc
  have hne : ['/'].intercalate (c :: comps) ≠ [] := by
    rw [intercalate_cons]
    simp [(hc c List.mem_cons_self).1]
  rw [pathText, List.getLast?_cons_of_ne_nil hne] at htext
  refine ⟨fun he => hne (List.append_eq_nil_iff.1 he).2, ?_⟩
  rwa [List.getLast?_append_of_ne_nil _ hne]

theorem rootText_eq (root : Str) : ∃ base, IsBase base ∧ rootText root = base ++ ['/'] := by
  unfold rootText
  split
  · rename_i hlast
    obtain ⟨comps, hc, hform, -⟩ := normpath_form root
    rw [hform] at hlast ⊢
    by_cases hnil : comps = []
    · subst hnil
      rcases slashes_cases root with hs | hs | hs
      · rw [hs] at hlast; cases hlast
      · exact ⟨[], .inl rfl, by rw [hs]; rfl⟩
      · exact ⟨['/'], .inr (.inl rfl), by rw [hs]; rfl⟩
    · exact absurd hlast (getLast?_intercalate hc hnil _).2
  · exact ⟨_, .inr (.inr ‹_›), rfl⟩

/-- A normalised path below the root stands there, unless it begins with two slashes. -/
theorem at_normpath {base file : Str} (hs : slashes file ≠ ['/', '/'])
    (h : isPathBelow (normpath file) (base ++ ['/'])) :
    normpath file = ['/'] ∨ ∃ comps, At base comps (normpath file) := by
  obtain ⟨comps, hc, hform, hne⟩ := normpath_form file
  by_cases hroot : normpath file = ['/']
  · exact .inl hroot
  refine .inr ?_
  have hcomps : comps ≠ [] := by
    rintro rfl
    rcases slashes_cases file with hf | hf | hf
    · exact hne hf rfl
    · exact hroot (by rw [hform, hf]; rfl)
    · exact hs hf
  obtain ⟨hnil, hlast⟩ := getLast?_intercalate hc hcomps (slashes file)
  rw [← hform] at hnil hlast
  -- behind its first slash the path has no empty component
  have htail : ∀ c ∈ ((normpath file).splitOn '/').tail, c ≠ [] := by
    have hsplit : (['/'].intercalate comps).splitOn '/' = comps :=
      List.splitOn_intercalate '/' (fun c hc' => (hc c hc').2) hcomps
    rcases slashes_cases file with hf | hf | hf
    · rw [hform, hf, List.nil_append, hsplit]
      exact fun c hc' => (hc c (List.mem_of_mem_tail hc')).1
    · have hcons : ['/'] ++ ['/'].intercalate comps = [] ++ '/' :: ['/'].intercalate comps := rfl
      rw [hform, hf, hcons, List.splitOn_append_cons_self, hsplit]
      exact fun c hc' => (hc c hc').1
    · exact absurd hf hs
  rw [isPathBelow, List.isPrefixOf_iff_prefix] at h
  obtain ⟨rest, hrest⟩ := h
  rcases List.eq_nil_or_concat' rest with rfl | ⟨rest, c, rfl⟩
  · have heq : normpath file = base := by
      rw [List.append_nil] at hrest
      exact (List.append_cancel_right hrest).symm
    exact ⟨[], by simp, .inr ⟨by simpa [below] using heq, .inr (heq ▸ ⟨hnil, hlast⟩)⟩⟩
  · have heq : normpath file = base ++ '/' :: rest := by
      rw [← List.append_assoc] at hrest
      have hcut := (List.append_inj' hrest rfl).1
      rw [← hcut]
      simp
    refine ⟨rest.splitOn '/', fun c hc' => ⟨htail c ?_, not_mem_of_mem_splitOn hc'⟩, .inr ⟨?_, .inl ?_⟩⟩
    · rw [heq, List.splitOn_append_cons_self, List.tail_append_of_ne_nil (List.splitOn_ne_nil _ _)]
      exact List.mem_append_right _ hc'
    · rw [heq, ← pathText_of_ne_nil (List.splitOn_ne_nil _ _), pathText, List.intercalate_splitOn]
    · exact List.splitOn_ne_nil _ _

/-! ### What `realpath` returns -/

/-- No place on the way is a link. -/
def Clean (fs : FileSystem) (base : Str) (comps : List Str) : Prop :=
  ∀ p, p <+: comps → p ≠ [] → fs.link (base ++ below p) = none

theorem kept_clean (fs : FileSystem) (base : Str) : Kept fs base (Clean fs base) where
  nil p hp hne := absurd (List.prefix_nil.1 hp) hne
  init comps h p hp := h p (hp.trans (List.dropLast_prefix comps))
  push comps h hl p hp hne := by
    by_cases heq : p = comps
    · rwa [heq]
    · exact h p (FileTree.prefix_dropLast hp heq) hne

theorem Walked.explained {base : Str} {K : List Str → Prop} (file : Str) {result : Except Failure Str}
    (h : Walked base K result) : Walked base K (explained file result) := by
  unfold Oe.explained
  split
  · exact Failure.noConfusion
  · exact h

/-- Without the directories above it, only the last component of a path is resolved. -/
theorem link_realpathOf {fs : FileSystem} {root : Str} {assumeDir : Bool} :
    ∀ {n : Nat} {text : Str} {r : Str × Bool}, realpathOf fs root assumeDir n text = .ok r →
      fs.link r.1 = none ∨ r.1.length < root.length
  | 0, text, r, h => by
    rw [realpathOf] at h
    split at h
    · cases h
    · rename_i hnot
      cases h
      simpa only [not_and_or, not_not, not_le] using hnot
  | n + 1, text, r, h => by
    rw [realpathOf] at h
    cases hl : fs.link text with
    | none =>
      rw [hl] at h
      cases h
      exact .inl hl
    | some target =>
      rw [hl] at h
      simp only at h
      split at h
      · cases ht : targetDir root text (normpath target) with
        | error e => simp [ht, bind, Except.bind] at h
        | ok tdir =>
          cases hr : realpathRel (realpathOf fs root assumeDir n) root assumeDir true tdir
              ((normpath target).splitOn '/') with
          | error e => simp [ht, hr, bind, Except.bind] at h
          | ok file =>
            simp only [ht, hr, bind, Except.bind] at h
            exact link_realpathOf h
      · rename_i hshort
        cases h
        exact .inr (not_le.1 hshort)

theorem kept_true (fs : FileSystem) (base : Str) : Kept fs base fun _ => True where
  nil := trivial
  init _ _ := trivial
  push _ _ _ := trivial

/-- What is returned is below the root and no link, and no assertion fails. -/
def Resolved (fs : FileSystem) (base : Str) : Except Failure Str → Prop
  | .ok text => isPathBelow text (base ++ ['/']) ∧
      (fs.link text = none ∨ text.length < (base ++ ['/']).length)
  | .error e => e ≠ .assertion

theorem Resolved.explained {fs : FileSystem} {base : Str} (file : Str) {result : Except Failure Str}
    (h : Resolved fs base result) : Resolved fs base (explained file result) := by
  unfold Oe.explained
  split
  · exact Failure.noConfusion
  · exact h

section realpath
variable (fs : FileSystem) (file root : Str) (loopCnt : Nat) (assumeDir : Bool) {base : Str}

theorem realpath_physdir {K : List Str → Prop} (hK : Kept fs base K) (hb : IsBase base)
    (hroot : rootText root = base ++ ['/']) :
    Walked base K (realpath fs file root true loopCnt assumeDir) := by
  rw [realpath, hroot]
  simp only
  split
  · exact Failure.noConfusion
  · rw [if_pos trivial]
    refine Walked.explained _ ?_
    exact realpathRel_walked assumeDir hK hb (realpathOf_walked assumeDir hK hb loopCnt) _ _ _
      ⟨[], at_root base, hK.nil⟩ fun d hd => not_mem_of_mem_splitOn hd

theorem realpath_file (hb : IsBase base) (hroot : rootText root = base ++ ['/'])
    (hs : slashes file ≠ ['/', '/']) :
    Resolved fs base (realpath fs file root false loopCnt assumeDir) := by
  rw [realpath, hroot]
  split
  · exact Failure.noConfusion
  · rename_i hbelow
    have hwalk : Walked base (fun _ => True)
          ((realpathOf fs (base ++ ['/']) assumeDir loopCnt (normpath file)).map Prod.fst) ∨
        realpathOf fs (base ++ ['/']) assumeDir loopCnt (normpath file) =
          .ok (normpath file, fs.isDir (normpath file)) := by
      rcases at_normpath hs (not_not.1 hbelow) with heq | ⟨comps, hat⟩
      · have hlink : fs.link (normpath file) = none := by
          rw [heq]
          exact fs.follows []
        refine .inr ?_
        cases loopCnt <;> simp [realpathOf, hlink]
      · exact .inl (realpathOf_walked assumeDir (kept_true fs base) hb loopCnt _
          ⟨comps, hat, trivial, fun _ => trivial⟩)
    cases hr : realpathOf fs (base ++ ['/']) assumeDir loopCnt (normpath file) with
    | error e =>
      have he := hwalk.resolve_right fun he => by cases hr.symm.trans he
      rw [hr] at he
      exact Resolved.explained (normpath file) he
    | ok r =>
      refine ⟨?_, link_realpathOf hr⟩
      rcases hwalk with hw | hw
      · rw [hr] at hw
        exact hw.isPathBelow
      · rw [hr] at hw
        cases hw
        exact not_not.1 hbelow

end realpath

/-- A root with a link that would leave it. -/
def escaping : FileSystem where
  link s := if s = "/r/l".toList then some "../../etc".toList else none
  isDir s := s = "/r/".toList ∨ s = "/r/etc".toList
  follows s := if_neg fun he => by
    have hlast := congrArg List.getLast? he
    rw [List.getLast?_concat] at hlast
    revert hlast
    decide

end Oe
end OpenBmc
