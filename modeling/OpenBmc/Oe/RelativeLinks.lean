import OpenBmc.Py.Path
import Mathlib.Data.Nat.Find
import Mathlib.Logic.Function.Basic

/-!
# Absolute links made relative

`make_relative_symlink` looks for the directory above a link whose text the target begins with;
`replace_absolute_symlinks` takes the part of a link's path behind the last place of the base
directory in it. Both work on texts: `relativeLinks_iff` says when the links keep their targets.
-/

namespace OpenBmc
namespace Oe
open Py Py.Path

/-! ### `make_relative_symlink` -/

/-- The links of a file system, with their texts. -/
abbrev Links := Str → Option Str

/-- `s.rpartition('/')[0]`. -/
def parent (s : Str) : Str := (rpartition '/' s).1.getD []

/-- The first loop: the ancestor and its depth. -/
def findAncestor (link : Str) : ℕ → Str → ℕ → Str × ℕ
  | 0, ancestor, depth => (ancestor, depth)
  | fuel + 1, ancestor, depth =>
    if ancestor ≠ [] ∧ ¬ ancestor <+: link then findAncestor link fuel (parent ancestor) (depth + 1)
    else (ancestor, depth)

/-- `s.partition(sep)[2]` for a text `sep` that is not empty. -/
def afterFirst (sep : Str) : Str → Str
  | [] => []
  | c :: s => if sep <+: c :: s then (c :: s).drop sep.length else afterFirst sep s

/-- The second loop. -/
def climb : ℕ → Str → Str
  | 0, base => base
  | depth + 1, base => if 0 < depth then climb depth ("../".toList ++ base) else base

/-- `os.remove` and `os.symlink`, which refuses the empty text. -/
def relink (fs : Links) (path base : Str) : Links :=
  Function.update fs path (if base = [] then none else some base)

def makeRelativeSymlink (fs : Links) (path : Str) : Links :=
  match fs path with
  | none => fs
  | some link =>
    if isAbs link then
      let found := findAncestor link path.length path 0
      if found.1 = [] then fs
      else relink fs path (climb found.2 (stripBy (· = '/') (afterFirst found.1 link)))
    else fs

/-- A link below a directory. -/
structure LinkPath where
  dir : AbsPath
  name : PathName

def LinkPath.comps (p : LinkPath) : List Str := p.dir.comps ++ [p.name.1]

def LinkPath.text (p : LinkPath) : Str := pathText p.comps

/-- The file system with a link to the target. -/
def linked (fs : Links) (p : LinkPath) (target : AbsPath) : Links :=
  Function.update fs p.text (some target.text)

/-- The link is as it was, or its new text leads from its directory to its old target. -/
def KeepsTarget (fs : Links) (p : LinkPath) (target : AbsPath) : Prop :=
  let after := makeRelativeSymlink (linked fs p target) p.text
  after = linked fs p target ∨
    (∃ text, after p.text = some text ∧ normpath (join p.dir.text text) = target.text) ∧
      ∀ q ≠ p.text, after q = fs q

/-- How many components of the link's path the text of the target begins with; 0 for none. -/
def common (p : LinkPath) (target : AbsPath) : ℕ :=
  Nat.findGreatest (fun i => below (p.comps.take i) <+: target.text) p.comps.length

/-- The text ends with a directory above the link, which is not the target itself where it is the
directory of the link. -/
def AtComponent (p : LinkPath) (target : AbsPath) : Prop :=
  let j := common p target
  j = 0 ∨ j ≤ p.dir.comps.length ∧ p.comps.take j <+: target.comps ∧
    (target.comps.length = j → j < p.dir.comps.length)

/-! ### `replace_absolute_symlinks` -/

inductive Tree
  | file
  | link (text : Str)
  | dir (entries : List (PathName × Tree))

/-- `s.rpartition(sep)[2]`, if `sep` is in `s`. -/
def afterLast? (sep : Str) : Str → Option Str
  | [] => none
  | c :: s => (afterLast? sep s).or (if sep <+: c :: s then some ((c :: s).drop sep.length) else none)

/-- The directory of a link as the text of its path has it behind the base directory. -/
def walkDir (basedir path : Str) : Str := dirname ((afterLast? basedir path).getD path)

section Replace
variable (cwd basedir : Str)

/-- The new text of the link `path`. -/
def replaced (path link : Str) : Str :=
  if isAbs link then relpath cwd link (walkDir basedir path) else link

mutual

/-- The walk over what is at `path`. -/
def replaceTree (path : Str) : Tree → Tree
  | .file => .file
  | .link text => .link (replaced cwd basedir path text)
  | .dir entries => .dir (replaceEntries path entries)

/-- The walk over the entries of the directory `walkroot`. -/
def replaceEntries (walkroot : Str) : List (PathName × Tree) → List (PathName × Tree)
  | [] => []
  | (name, t) :: entries =>
    (name, replaceTree (join walkroot name.1) t) :: replaceEntries walkroot entries

end

def replaceAbsoluteSymlinks (entries : List (PathName × Tree)) : List (PathName × Tree) :=
  replaceEntries cwd basedir basedir entries

end Replace

mutual

/-- The links of a tree, each with its path below the top. -/
def Tree.links (path : List Str) : Tree → List (List Str × Str)
  | .file => []
  | .link text => [(path, text)]
  | .dir entries => linksOf path entries

def linksOf (dir : List Str) : List (PathName × Tree) → List (List Str × Str)
  | [] => []
  | (name, t) :: entries => t.links (dir ++ [name.1]) ++ linksOf dir entries

end

/-- The path below the base directory that an absolute link names. -/
def target (link : Str) : List Str := absComps [] link

/-- A relative link is as it was; the new text of an absolute one leads from its directory to the
target below the base directory. -/
def Rebased (basedir : AbsPath) (before after : List Str × Str) : Prop :=
  before.1 = after.1 ∧
    if isAbs before.2 then
      normpath (join (pathText (basedir.comps ++ before.1.dropLast)) after.2) =
        pathText (basedir.comps ++ target before.2)
    else after.2 = before.2

/-- All links of the tree are rebased. -/
def KeepsTargets (cwd basedir : AbsPath) (entries : List (PathName × Tree)) : Prop :=
  List.Forall₂ (Rebased basedir) (linksOf [] entries)
    (linksOf [] (replaceAbsoluteSymlinks cwd.text basedir.text entries))

/-- The directory that is taken for the one of the link is as deep as that, and the same as far as
the target goes along. -/
def WalksRight (cwd basedir : AbsPath) (path : List Str) (link : Str) : Prop :=
  let taken := absComps cwd.text (walkDir basedir.text (pathText (basedir.comps ++ path)))
  let k := commonLength taken (target link)
  taken.length = path.dropLast.length ∧ path.dropLast.take k = (target link).take k ∨
    basedir.comps = [] ∧ k = 0 ∧ path.dropLast.length ≤ taken.length

/-! ### The ancestor -/

theorem parent_below {d : List Str} {c : Str} (hc : '/' ∉ c) : parent (below (d ++ [c])) = below d := by
  have hcut : below (d ++ [c]) = below d ++ '/' :: c := by
    rw [below_append, below_cons, show below [] = [] from rfl, List.append_nil]
  rw [parent, hcut, rpartition_append hc]
  rfl

/-- The first loop finds the longest ancestor. -/
theorem findAncestor_eq (link : Str) {comps : List Str} (h : ∀ c ∈ comps, IsName c) {i : ℕ}
    (hi : i ≤ comps.length) {fuel : ℕ} (hfuel : i ≤ fuel) (depth : ℕ) :
    findAncestor link fuel (below (comps.take i)) depth =
      (below (comps.take (Nat.findGreatest (fun i => below (comps.take i) <+: link) i)),
        depth + (i - Nat.findGreatest (fun i => below (comps.take i) <+: link) i)) := by
  induction i generalizing fuel depth with
  | zero =>
    rw [Nat.findGreatest_zero]
    cases fuel with
    | zero => rfl
    | succ fuel => exact if_neg fun h => h.1 rfl
  | succ i ih =>
    obtain ⟨fuel, rfl⟩ : ∃ k, fuel = k + 1 := ⟨fuel - 1, by omega⟩
    have hlt : i < comps.length := hi
    have htake : comps.take (i + 1) = comps.take i ++ [comps[i]] := List.take_succ_eq_append_getElem hlt
    have hne : below (comps.take (i + 1)) ≠ [] := by
      rw [htake, Ne, below_eq_nil]
      exact List.append_ne_nil_of_right_ne_nil _ (List.cons_ne_nil _ _)
    by_cases hp : below (comps.take (i + 1)) <+: link
    · rw [Nat.findGreatest_eq hp, Nat.sub_self, findAncestor, if_neg fun h => h.2 hp]
      rfl
    · have hslash : '/' ∉ comps[i] := (h _ (List.getElem_mem hlt)).2.1
      have hle := Nat.findGreatest_le (P := fun i => below (comps.take i) <+: link) i
      rw [Nat.findGreatest_of_not hp, findAncestor, if_pos ⟨hne, hp⟩, htake, parent_below hslash,
        ih (by omega) (by omega)]
      congr 1
      omega

/-- What begins with a text without slashes begins with it before its first slash. -/
theorem prefix_component {y t r : Str} (hy : '/' ∉ y) (hr : ∀ c ∈ r.head?, c = '/')
    (h : y <+: t ++ r) : y <+: t := by
  by_cases hlen : y.length ≤ t.length
  · exact List.prefix_of_prefix_length_le h (List.prefix_append t r) hlen
  · obtain ⟨u, rfl⟩ := List.prefix_of_prefix_length_le (List.prefix_append t r) h (by omega)
    rw [List.prefix_append_right_inj] at h
    cases u with
    | nil => simp at hlen
    | cons c u =>
      obtain ⟨v, rfl⟩ := h
      have hc : c = '/' := hr c rfl
      exact absurd (List.mem_append_right _ (hc ▸ List.mem_cons_self ..)) hy

theorem head?_below (p : List Str) : ∀ c ∈ (below p).head?, c = '/' := by
  intro c hc
  cases p with
  | nil => cases hc
  | cons d p => exact (Option.some.inj hc).symm

/-- Where the text of one path begins that of another, all its components but the last are in it, and
the last begins the next one. -/
theorem exists_cut {a : List Str} {y : Str} {ts : List Str} (ha : ∀ c ∈ a ++ [y], '/' ∉ c)
    (hts : ∀ c ∈ ts, '/' ∉ c) (h : below (a ++ [y]) <+: below ts) :
    ∃ x c, ts = a ++ (y ++ x) :: c := by
  induction a generalizing ts with
  | nil =>
    cases ts with
    | nil => cases List.prefix_nil.1 h
    | cons t ts =>
      rw [List.nil_append, below_cons, below_cons, show below [] = [] from rfl, List.append_nil,
        List.cons_prefix_cons] at h
      obtain ⟨x, rfl⟩ := prefix_component (ha y (by simp)) (head?_below ts) h.2
      exact ⟨x, ts, rfl⟩
  | cons z a ih =>
    cases ts with
    | nil => cases List.prefix_nil.1 h
    | cons t ts =>
      rw [List.cons_append, below_cons, below_cons, List.cons_prefix_cons] at h
      have hz : '/' ∉ z := ha z (List.mem_cons_self ..)
      obtain ⟨w, hw⟩ := h.2
      rw [List.append_assoc] at hw
      have hzt : z <+: t := prefix_component hz (head?_below ts) ⟨_, hw⟩
      obtain ⟨u, rfl⟩ := hzt
      rw [List.append_assoc, List.append_cancel_left_eq] at hw
      -- the slash behind `z` is not in `t`
      obtain rfl : u = [] := by
        cases u with
        | nil => rfl
        | cons d u =>
          have hd : d = '/' := by
            cases a with
            | nil => exact (List.cons.inj hw).1.symm
            | cons e a => exact (List.cons.inj hw).1.symm
          exact absurd (List.mem_append_right _ (hd ▸ List.mem_cons_self ..))
            (hts _ (List.mem_cons_self ..))
      rw [List.nil_append] at hw
      obtain ⟨x, c, rfl⟩ := ih (fun c hc => ha c (List.mem_cons_of_mem _ hc))
        (fun c hc => hts c (List.mem_cons_of_mem _ hc)) ⟨w, hw⟩
      exact ⟨x, c, by rw [List.append_nil]; rfl⟩

/-! ### The new text -/

theorem climb_eq (depth : ℕ) (base : Str) :
    climb depth base = (List.replicate (depth - 1) "../".toList).flatten ++ base := by
  induction depth generalizing base with
  | zero => rfl
  | succ depth ih =>
    rw [climb]
    cases depth with
    | zero => rfl
    | succ depth =>
      rw [if_pos (Nat.succ_pos depth), ih, Nat.add_sub_cancel, Nat.add_sub_cancel]
      rw [← List.append_assoc, ← List.flatten_concat, ← List.replicate_succ']

theorem splitOn_climb (k : ℕ) (base : Str) :
    ((List.replicate k "../".toList).flatten ++ base).splitOn '/' =
      List.replicate k pardir ++ base.splitOn '/' := by
  induction k with
  | zero => rfl
  | succ k ih =>
    have hcons : (List.replicate (k + 1) "../".toList).flatten ++ base =
        pardir ++ '/' :: ((List.replicate k "../".toList).flatten ++ base) := by
      rw [List.replicate_succ, List.flatten_cons, List.append_assoc]
      rfl
    rw [hcons, List.splitOn_append_cons_self, ih, List.splitOn_eq_singleton (by decide)]
    rfl

theorem strip_intercalate {l : List Str} (h : ∀ d ∈ l, d ≠ [] ∧ '/' ∉ d) :
    stripBy (· = '/') (['/'].intercalate l) = ['/'].intercalate l := by
  cases l with
  | nil => rfl
  | cons d l =>
    obtain ⟨hne, hslash⟩ := h d (List.mem_cons_self ..)
    have hlast := getLast?_below h
    obtain ⟨a, t, rfl⟩ := List.exists_cons_of_ne_nil hne
    refine stripBy_of_ends (fun c hc => ?_) fun c hc => ?_
    · rw [intercalate_cons] at hc
      obtain rfl := Option.some.inj hc
      exact decide_eq_false fun ha => hslash (ha ▸ List.mem_cons_self ..)
    · refine decide_eq_false ?_
      rintro rfl
      rw [intercalate_cons] at hc
      rw [below_cons, List.cons_append, List.getLast?_cons_cons] at hlast
      exact hlast hc

/-- The components of the target behind the ancestor. -/
def rest (x : Str) (c : List Str) : List Str := if x = [] then c else x :: c

/-- The target behind the ancestor, without the slash in front of it. -/
theorem strip_cut {x : Str} {c : List Str} (hx : '/' ∉ x) (hc : ∀ d ∈ c, IsName d) :
    stripBy (· = '/') (x ++ below c) = ['/'].intercalate (rest x c) := by
  have hcomps : ∀ d ∈ c, d ≠ [] ∧ '/' ∉ d := fun d hd => ⟨(hc d hd).1, (hc d hd).2.1⟩
  by_cases hne : x = []
  · subst hne
    rw [rest, if_pos rfl, List.nil_append]
    cases c with
    | nil => rfl
    | cons d c =>
      have hslash : below (d :: c) = '/' :: ['/'].intercalate (d :: c) := (pathText_cons d c).symm
      have hself := strip_intercalate hcomps
      rw [stripBy] at hself
      rw [hslash, stripBy, List.dropWhile_cons_of_pos (by decide), hself]
  · have hcons : x ++ below c = ['/'].intercalate (x :: c) := (intercalate_cons '/' x c).symm
    rw [rest, if_neg hne, hcons]
    exact strip_intercalate (List.forall_mem_cons.2 ⟨⟨hne, hx⟩, hcomps⟩)

theorem intercalate_eq_nil {l : List Str} (h : ∀ d ∈ l, d ≠ []) : ['/'].intercalate l = [] ↔ l = [] := by
  cases l with
  | nil => exact iff_of_true rfl rfl
  | cons d l =>
    rw [intercalate_cons, List.append_eq_nil_iff]
    exact iff_of_false (fun hd => h d (List.mem_cons_self ..) hd.1) (List.cons_ne_nil _ _)

/-- Where one arrives along the new text. -/
theorem lexical_climb {d : List Str} (hd : ∀ c ∈ d, IsName c) (k : ℕ) {l : List Str}
    (hl : ∀ c ∈ l, '/' ∉ c) :
    lexical d ((List.replicate k "../".toList).flatten ++ ['/'].intercalate l) =
      (l.foldl (normStep true) (d.take (d.length - k)).reverse).reverse := by
  have hdrop : d.reverse.drop k = (d.take (d.length - k)).reverse := by
    rw [List.drop_reverse]
  rw [lexical, splitOn_climb, List.foldl_append,
    foldl_normStep_pardir (fun c hc => hd c (List.mem_reverse.1 hc)), hdrop]
  cases l with
  | nil => rfl
  | cons e l => rw [List.splitOn_intercalate '/' hl (List.cons_ne_nil e l)]

theorem afterFirst_of_prefix {sep s : Str} (hsep : sep ≠ []) (h : sep <+: s) :
    afterFirst sep s = s.drop sep.length := by
  cases s with
  | nil => exact absurd (List.prefix_nil.1 h) hsep
  | cons c s => exact if_pos h

theorem isAbs_below {p : List Str} (h : p ≠ []) : isAbs (below p) := by
  obtain ⟨c, p, rfl⟩ := List.exists_cons_of_ne_nil h
  rfl

namespace LinkPath
variable (p : LinkPath) (target : AbsPath)

theorem isName_comps : ∀ c ∈ p.comps, IsName c := by
  intro c hc
  rcases List.mem_append.1 hc with hc | hc
  · exact p.dir.isName c hc
  · rw [List.mem_singleton.1 hc]
    exact p.name.2

theorem text_eq : p.text = below p.comps := pathText_of_ne_nil (by simp [comps])

theorem length_comps : p.comps.length = p.dir.comps.length + 1 := by simp [comps]

theorem take_length_dir : p.comps.take p.dir.comps.length = p.dir.comps := List.take_left

theorem common_le : common p target ≤ p.comps.length := Nat.findGreatest_le _

theorem length_le_below (l : List Str) : l.length ≤ (below l).length := by
  induction l with
  | nil => exact Nat.zero_le _
  | cons c l ih =>
    rw [below_cons, List.length_cons, List.length_cons, List.length_append]
    omega

theorem make_eq (fs : Links) : makeRelativeSymlink (linked fs p target) p.text =
    if common p target = 0 then linked fs p target
    else relink (linked fs p target) p.text
      (climb (p.comps.length - common p target)
        (stripBy (· = '/') (afterFirst (below (p.comps.take (common p target))) target.text))) := by
  have hlen : p.comps.length ≤ p.text.length := p.text_eq ▸ length_le_below p.comps
  have hfound := findAncestor_eq target.text p.isName_comps le_rfl hlen 0
  rw [List.take_length, ← text_eq, Nat.zero_add] at hfound
  have hget : linked fs p target p.text = some target.text := Function.update_self ..
  have hempty : below (p.comps.take (common p target)) = [] ↔ common p target = 0 := by
    rw [below_eq_nil, List.take_eq_nil_iff]
    exact or_iff_left (by simp [comps])
  rw [makeRelativeSymlink, hget]
  show (if isAbs target.text then
    let found := findAncestor target.text p.text.length p.text 0
    if found.1 = [] then _ else _ else _) = _
  have habs : isAbs target.text = true := rfl
  rw [if_pos habs, hfound]
  by_cases h : common p target = 0
  · rw [if_pos h]
    exact if_pos (hempty.2 h)
  · rw [if_neg h]
    exact if_neg fun he => h (hempty.1 he)

/-- The target cut at the ancestor. -/
theorem exists_target_cut {j : ℕ} (hj : common p target = j + 1) : ∃ y x c,
    p.comps.take (j + 1) = p.comps.take j ++ [y] ∧
      target.comps = p.comps.take j ++ (y ++ x) :: c ∧
      stripBy (· = '/') (afterFirst (below (p.comps.take (j + 1))) target.text) =
        ['/'].intercalate (rest x c) := by
  have hlt : j < p.comps.length := by
    have := p.common_le target
    omega
  have htake := List.take_succ_eq_append_getElem hlt
  have hprefix : below (p.comps.take (j + 1)) <+: target.text := by
    have hspec := Nat.findGreatest_of_ne_zero hj (Nat.succ_ne_zero j)
    exact hspec
  have hnames : ∀ c ∈ p.comps.take j ++ [p.comps[j]], '/' ∉ c := fun c hc =>
    (p.isName_comps c (List.mem_of_mem_take (htake ▸ hc))).2.1
  have hslash : ∀ c ∈ target.comps, '/' ∉ c := fun c hc => (target.isName c hc).2.1
  have hne : target.comps ≠ [] := by
    intro hnil
    rw [AbsPath.text, hnil, htake] at hprefix
    have hlen := hprefix.length_le
    obtain ⟨a, t, ha⟩ := List.exists_cons_of_ne_nil (p.isName_comps _ (List.getElem_mem hlt)).1
    rw [below_append, below_cons, ha, List.length_append, List.length_cons, List.length_append,
      List.length_cons] at hlen
    change _ ≤ 1 at hlen
    omega
  have htext : target.text = below target.comps := pathText_of_ne_nil hne
  rw [htext, htake] at hprefix
  obtain ⟨x, c, hcut⟩ := exists_cut hnames hslash hprefix
  refine ⟨p.comps[j], x, c, htake, hcut, ?_⟩
  have hdrop : (below target.comps).drop (below (p.comps.take (j + 1))).length = x ++ below c := by
    have hsplit : below target.comps = below (p.comps.take (j + 1)) ++ (x ++ below c) := by
      rw [hcut, htake, below_append, below_append, below_cons, below_cons]
      simp [below]
    rw [hsplit, List.drop_left]
  have hmem : p.comps[j] ++ x ∈ target.comps := by
    rw [hcut]
    exact List.mem_append_right _ (List.mem_cons_self ..)
  have hx : '/' ∉ x := fun h => hslash _ hmem (List.mem_append_right _ h)
  have hc : ∀ d ∈ c, IsName d := fun d hd => target.isName d (by
    rw [hcut]
    exact List.mem_append_right _ (List.mem_cons_of_mem _ hd))
  have hbelow : below (p.comps.take (j + 1)) ≠ [] := by
    rw [Ne, below_eq_nil, htake]
    exact List.append_ne_nil_of_right_ne_nil _ (List.cons_ne_nil _ _)
  rw [htext, afterFirst_of_prefix hbelow (htake ▸ hprefix), hdrop,
    strip_cut hx hc]

/-- The new text of a link with an ancestor. -/
def newText (p : LinkPath) (j : ℕ) (x : Str) (c : List Str) : Str :=
  (List.replicate (p.dir.comps.length - j - 1) "../".toList).flatten ++ ['/'].intercalate (rest x c)

theorem isAbs_newText {j : ℕ} {x : Str} {c : List Str} (hx : '/' ∉ x) (hc : ∀ d ∈ c, IsName d) :
    isAbs (p.newText j x c) = false := by
  have hrest : ∀ d ∈ rest x c, d ≠ [] ∧ '/' ∉ d := by
    intro d hd
    unfold rest at hd
    split at hd
    · exact ⟨(hc d hd).1, (hc d hd).2.1⟩
    · rename_i hne
      rcases List.mem_cons.1 hd with rfl | hd
      · exact ⟨hne, hx⟩
      · exact ⟨(hc d hd).1, (hc d hd).2.1⟩
  rw [newText]
  cases p.dir.comps.length - j - 1 with
  | succ k => rfl
  | zero =>
    rw [List.replicate_zero, List.flatten_nil, List.nil_append]
    cases hr : rest x c with
    | nil => rfl
    | cons d l =>
      obtain ⟨hne, hslash⟩ := hrest d (hr ▸ List.mem_cons_self ..)
      obtain ⟨b, t, rfl⟩ := List.exists_cons_of_ne_nil hne
      rw [intercalate_cons, isAbs]
      refine decide_eq_false fun hb => hslash ?_
      rw [← Option.some.inj hb]
      exact List.mem_cons_self ..

/-- A link with an ancestor keeps its target when its new text is not empty and leads there. -/
theorem keepsTarget_iff_newText (fs : Links) {j : ℕ} {x : Str} {c : List Str}
    (hafter : makeRelativeSymlink (linked fs p target) p.text =
      relink (linked fs p target) p.text (p.newText j x c))
    (habs : isAbs (p.newText j x c) = false) :
    KeepsTarget fs p target ↔
      p.newText j x c ≠ [] ∧ lexical p.dir.comps (p.newText j x c) = target.comps := by
  have hget : relink (linked fs p target) p.text (p.newText j x c) p.text =
      if p.newText j x c = [] then none else some (p.newText j x c) := Function.update_self ..
  have htarget : ∀ text : Str, isAbs text = false → (normpath (join p.dir.text text) = target.text ↔
      lexical p.dir.comps text = target.comps) := fun text ht => by
    rw [AbsPath.text, normpath_join p.dir.isName ht, AbsPath.text]
    exact pathText_inj (isName_lexical p.dir.isName text) target.isName
  rw [KeepsTarget, hafter]
  constructor
  · rintro (hsame | ⟨⟨text, htext, hnorm⟩, -⟩)
    · have hself := congrFun hsame p.text
      rw [hget, linked, Function.update_self] at hself
      split at hself
      · cases hself
      · rw [Option.some.inj hself] at habs
        cases habs
    · rw [hget] at htext
      split at htext
      · cases htext
      · rename_i hne
        obtain rfl := Option.some.inj htext
        exact ⟨hne, (htarget _ habs).1 hnorm⟩
  · rintro ⟨hne, hlex⟩
    refine .inr ⟨⟨_, by rw [hget, if_neg hne], (htarget _ habs).2 hlex⟩, fun q hq => ?_⟩
    rw [relink, Function.update_of_ne hq, linked, Function.update_of_ne hq]

/-- Where the new text leads. -/
theorem lexical_newText {j : ℕ} {y x : Str} {c : List Str} (hj : j < p.comps.length)
    (htake : p.comps.take (j + 1) = p.comps.take j ++ [y]) (hx : '/' ∉ x) (hc : ∀ d ∈ c, IsName d) :
    lexical p.dir.comps (p.newText j x c) =
      ((rest x c).foldl (normStep true)
        (if j < p.dir.comps.length then p.comps.take j ++ [y] else p.comps.take j).reverse).reverse := by
  have hrest : ∀ d ∈ rest x c, '/' ∉ d := by
    intro d hd
    unfold rest at hd
    split at hd
    · exact (hc d hd).2.1
    · rcases List.mem_cons.1 hd with rfl | hd
      · exact hx
      · exact (hc d hd).2.1
  rw [newText, lexical_climb p.dir.isName _ hrest]
  have hdir : ∀ i ≤ p.dir.comps.length, p.dir.comps.take i = p.comps.take i := fun i hi =>
    (List.take_append_of_le_length hi).symm
  rw [length_comps] at hj
  split
  · rename_i hlt
    have hle : p.dir.comps.length - (p.dir.comps.length - j - 1) = j + 1 := by omega
    rw [hle, hdir _ hlt, htake]
  · have hle : p.dir.comps.length - (p.dir.comps.length - j - 1) = j := by omega
    rw [hle, hdir j (by omega)]

/-- The way leads to the target only where the ancestor ends with a component. -/
theorem foldl_rest_eq {a s : List Str} {y x : Str} {c : List Str} (hs : s = a ++ [y] ∨ s = a)
    (hnames : ∀ d ∈ s, IsName d) (hy : y ≠ []) (hx : '/' ∉ x) (hc : ∀ d ∈ c, IsName d) :
    ((rest x c).foldl (normStep true) s.reverse).reverse = a ++ (y ++ x) :: c ↔
      s = a ++ [y] ∧ x = [] := by
  have hrev : ∀ d ∈ s.reverse, IsName d := fun d hd => hnames d (List.mem_reverse.1 hd)
  by_cases hne : x = []
  · subst hne
    rw [rest, if_pos rfl, foldl_normStep_names hc, List.reverse_append, List.reverse_reverse,
      List.reverse_reverse, List.append_nil]
    rcases hs with rfl | rfl
    · simp
    · refine iff_of_false (fun h => ?_) fun h => ?_
      · have hlen := congrArg List.length (List.append_cancel_left h)
        simp at hlen
      · exact absurd (List.self_eq_append_right.1 h.1) (List.cons_ne_nil _ _)
  · refine iff_of_false (fun h => ?_) fun h => hne h.2
    rw [rest, if_neg hne, List.foldl_cons, foldl_normStep_names hc, List.reverse_append,
      List.reverse_reverse] at h
    have hlen := congrArg List.length h
    by_cases hdot : x = dot
    · have hstep : normStep true s.reverse x = s.reverse := if_pos (.inr hdot)
      rw [hstep, List.reverse_reverse] at h hlen
      rcases hs with rfl | rfl
      · rw [List.append_assoc] at h
        have hhead := (List.cons.inj (List.append_cancel_left h)).1
        exact hne (List.self_eq_append_right.1 hhead)
      · simp at hlen
    · by_cases hpar : x = pardir
      · rw [hpar, normStep_pardir hrev] at hlen
        rcases hs with rfl | rfl
        · simp at hlen
        · simp at hlen
          omega
      · rw [normStep_name ⟨hne, hx, hdot, hpar⟩, List.reverse_cons, List.reverse_reverse] at h hlen
        rcases hs with rfl | rfl
        · simp at hlen
        · rw [List.append_assoc] at h
          have hhead := (List.cons.inj (List.append_cancel_left h)).1
          exact hy (List.self_eq_append_left.1 hhead)

theorem newText_eq_nil_iff {j : ℕ} {x : Str} {c : List Str} (hc : ∀ d ∈ c, IsName d) :
    p.newText j x c = [] ↔ p.dir.comps.length ≤ j + 1 ∧ x = [] ∧ c = [] := by
  have hrest : ∀ d ∈ rest x c, d ≠ [] := by
    intro d hd
    unfold rest at hd
    split at hd
    · exact (hc d hd).1
    · rename_i hne
      rcases List.mem_cons.1 hd with rfl | hd
      · exact hne
      · exact (hc d hd).1
  have hnil : rest x c = [] ↔ x = [] ∧ c = [] := by
    unfold rest
    split
    · rename_i hx
      simp [hx]
    · rename_i hx
      simp [hx]
  have hflat : (List.replicate (p.dir.comps.length - j - 1) "../".toList).flatten = [] ↔
      p.dir.comps.length ≤ j + 1 := by
    rw [List.flatten_eq_nil_iff]
    constructor
    · intro h
      by_contra hlt
      exact absurd (h _ (List.mem_replicate.2 ⟨by omega, rfl⟩)) (by decide)
    · intro hle l hl
      exact absurd (List.mem_replicate.1 hl).1 (by omega)
  rw [newText, List.append_eq_nil_iff, hflat, intercalate_eq_nil hrest, hnil]

theorem keepsTarget_iff (fs : Links) : KeepsTarget fs p target ↔ AtComponent p target := by
  have hmake := make_eq p target fs
  cases hj : common p target with
  | zero =>
    rw [hj, if_pos rfl] at hmake
    exact iff_of_true (.inl hmake) (.inl hj)
  | succ j =>
    obtain ⟨y, x, c, htake, hcut, hbase⟩ := exists_target_cut p target hj
    have hle := p.common_le target
    rw [hj, length_comps] at hle
    have hlt : j < p.comps.length := by rw [length_comps]; omega
    have hmem : y ++ x ∈ target.comps := by
      rw [hcut]
      exact List.mem_append_right _ (List.mem_cons_self ..)
    have hx : '/' ∉ x := fun h => (target.isName _ hmem).2.1 (List.mem_append_right _ h)
    have hc : ∀ d ∈ c, IsName d := fun d hd => target.isName d (by
      rw [hcut]
      exact List.mem_append_right _ (List.mem_cons_of_mem _ hd))
    have hy : y ≠ [] := (p.isName_comps y (List.mem_of_mem_take (by
      rw [htake]
      exact List.mem_append_right _ (List.mem_singleton_self y)))).1
    have hdepth : p.comps.length - (j + 1) - 1 = p.dir.comps.length - j - 1 := by
      rw [length_comps]
      omega
    rw [hj, if_neg (Nat.succ_ne_zero j), climb_eq, hbase, hdepth] at hmake
    have hlen : (p.comps.take j).length = j := List.length_take_of_le hlt.le
    have hstack : ∀ d ∈ (if j < p.dir.comps.length then p.comps.take j ++ [y] else p.comps.take j),
        IsName d := by
      intro d hd
      split at hd
      · exact p.isName_comps d (List.mem_of_mem_take (htake ▸ hd))
      · exact p.isName_comps d (List.mem_of_mem_take hd)
    have hs : (if j < p.dir.comps.length then p.comps.take j ++ [y] else p.comps.take j) =
        p.comps.take j ++ [y] ∨
        (if j < p.dir.comps.length then p.comps.take j ++ [y] else p.comps.take j) =
        p.comps.take j := by
      split
      · exact .inl rfl
      · exact .inr rfl
    have hwhole : (if j < p.dir.comps.length then p.comps.take j ++ [y] else p.comps.take j) =
        p.comps.take j ++ [y] ↔ j < p.dir.comps.length := by
      split
      · rename_i h
        exact iff_of_true rfl h
      · rename_i h
        exact iff_of_false (fun he => List.cons_ne_nil _ _ (List.self_eq_append_right.1 he)) h
    have hprefix : p.comps.take (j + 1) <+: target.comps ↔ x = [] := by
      rw [htake, hcut, List.prefix_append_right_inj, List.cons_prefix_cons]
      constructor
      · exact fun h => List.self_eq_append_right.1 h.1
      · rintro rfl
        exact ⟨(List.append_nil y).symm, List.nil_prefix⟩
    have hlength : target.comps.length = j + 1 ↔ c = [] := by
      rw [hcut, List.length_append, hlen, List.length_cons, ← List.length_eq_zero_iff]
      omega
    rw [keepsTarget_iff_newText p target fs hmake (p.isAbs_newText hx hc),
      p.lexical_newText hlt htake hx hc, hcut, foldl_rest_eq hs hstack hy hx hc, hwhole,
      Ne, p.newText_eq_nil_iff hc, AtComponent, hj, hprefix, hlength]
    constructor
    · rintro ⟨hne, hlt, hx⟩
      exact .inr ⟨hlt, hx, fun hc => by
        by_contra hge
        exact hne ⟨by omega, hx, hc⟩⟩
    · rintro (hzero | ⟨hlt, hx, hdir⟩)
      · cases hzero
      · exact ⟨fun h => absurd (hdir h.2.2) (by omega), hlt, hx⟩

end LinkPath

/-! ### All links of a tree -/

section Replace
variable (cwd basedir : Str) {b : List Str}

theorem join_name {d : List Str} (hd : ∀ c ∈ d, IsName c) (name : PathName) :
    join (pathText d) name.1 = pathText (d ++ [name.1]) := by
  have habs : isAbs name.1 = false := decide_eq_false fun h =>
    name.2.2.1 (List.mem_of_head? h)
  rw [join_pathText hd habs, pathText_of_ne_nil (by simp), below_append, below_cons,
    show below [] = [] from rfl, List.append_nil]

theorem isName_append {d : List Str} (hd : ∀ c ∈ d, IsName c) (name : PathName) :
    ∀ c ∈ d ++ [name.1], IsName c := by
  intro c hc
  rcases List.mem_append.1 hc with hc | hc
  · exact hd c hc
  · rw [List.mem_singleton.1 hc]
    exact name.2

mutual

/-- The walk changes the texts of the links, one by one. -/
theorem links_replaceTree {d : List Str} (hd : ∀ c ∈ b ++ d, IsName c) : ∀ t : Tree,
    (replaceTree cwd basedir (pathText (b ++ d)) t).links d =
      (t.links d).map fun e => (e.1, replaced cwd basedir (pathText (b ++ e.1)) e.2)
  | .file => rfl
  | .link _ => rfl
  | .dir entries => linksOf_replaceEntries hd entries

theorem linksOf_replaceEntries {d : List Str} (hd : ∀ c ∈ b ++ d, IsName c) :
    ∀ entries : List (PathName × Tree),
    linksOf d (replaceEntries cwd basedir (pathText (b ++ d)) entries) =
      (linksOf d entries).map fun e => (e.1, replaced cwd basedir (pathText (b ++ e.1)) e.2)
  | [] => rfl
  | (name, t) :: entries => by
    have hname := isName_append hd name
    rw [List.append_assoc] at hname
    rw [replaceEntries, linksOf, linksOf, join_name hd, List.append_assoc,
      links_replaceTree hname t, linksOf_replaceEntries hd entries, List.map_append]

end

mutual

theorem isName_of_mem_links {d : List Str} (hd : ∀ c ∈ d, IsName c) (hne : d ≠ []) :
    ∀ t : Tree, ∀ e ∈ t.links d, e.1 ≠ [] ∧ ∀ c ∈ e.1, IsName c
  | .file => fun _ he => by cases he
  | .link _ => fun e he => by
    rw [List.mem_singleton.1 he]
    exact ⟨hne, hd⟩
  | .dir entries => isName_of_mem_linksOf hd entries

theorem isName_of_mem_linksOf {d : List Str} (hd : ∀ c ∈ d, IsName c) :
    ∀ entries : List (PathName × Tree), ∀ e ∈ linksOf d entries, e.1 ≠ [] ∧ ∀ c ∈ e.1, IsName c
  | [] => fun _ he => by cases he
  | (name, t) :: entries => fun e he => by
    rw [linksOf] at he
    rcases List.mem_append.1 he with he | he
    · exact isName_of_mem_links (isName_append hd name) (by simp) t e he
    · exact isName_of_mem_linksOf hd entries e he

end

end Replace

/-- The way up and down ends below the base directory at the target. -/
theorem take_append_drop_eq_iff {α : Type*} {b d w x : List α} {k : ℕ} (hw : k ≤ w.length)
    (hx : k ≤ x.length) :
    (b ++ d).take ((b ++ d).length - (w.length - k)) ++ x.drop k = b ++ x ↔
      w.length = d.length ∧ d.take k = x.take k ∨ b = [] ∧ k = 0 ∧ d.length ≤ w.length := by
  have hright : ∀ h : w.length = d.length,
      ((b ++ d).take ((b ++ d).length - (w.length - k)) ++ x.drop k = b ++ x ↔
        d.take k = x.take k) := by
    intro h
    have hlen : (b ++ d).length - (w.length - k) = b.length + k := by
      rw [List.length_append]
      omega
    rw [hlen, List.take_length_add_append, List.append_assoc, List.append_cancel_left_eq]
    constructor
    · intro he
      have hsplit : d.take k ++ x.drop k = x.take k ++ x.drop k := by
        rw [he, List.take_append_drop]
      exact List.append_cancel_right hsplit
    · intro he
      rw [he, List.take_append_drop]
  constructor
  · intro he
    have hlen := congrArg List.length he
    rw [List.length_append, List.length_take, List.length_append, List.length_drop,
      List.length_append] at hlen
    by_cases hle : w.length - k ≤ b.length + d.length
    · have hwd : w.length = d.length := by omega
      exact .inl ⟨hwd, (hright hwd).1 he⟩
    · exact .inr ⟨List.length_eq_zero_iff.1 (by omega), by omega, by omega⟩
  · rintro (⟨h, he⟩ | ⟨rfl, rfl, hle⟩)
    · exact (hright h).2 he
    · have hzero : (([] : List α) ++ d).length - (w.length - 0) = 0 := by
        rw [List.nil_append]
        omega
      rw [hzero]
      rfl

theorem rebased_iff {cwd basedir : AbsPath} {path : List Str} (hpath : ∀ c ∈ path, IsName c)
    (link : Str) :
    Rebased basedir (path, link)
        (path, replaced cwd.text basedir.text (pathText (basedir.comps ++ path)) link) ↔
      (isAbs link → WalksRight cwd basedir path link) := by
  by_cases habs : isAbs link
  · have hdir : ∀ c ∈ basedir.comps ++ path.dropLast, IsName c := fun c hc =>
      (List.mem_append.1 hc).elim (basedir.isName c) fun hc => hpath c (List.mem_of_mem_dropLast hc)
    have htarget : absComps cwd.text link = target link := absComps_of_isAbs _ habs
    have hnames : ∀ c ∈ target link, IsName c :=
      htarget ▸ isName_absComps (by rw [if_pos habs]; exact habs)
    obtain ⟨hrel, hlex⟩ := lexical_relpath cwd.text link
      (walkDir basedir.text (pathText (basedir.comps ++ path))) hdir (by rw [htarget]; exact hnames)
    have htext : ∀ c ∈ basedir.comps ++ target link, IsName c := fun c hc =>
      (List.mem_append.1 hc).elim (basedir.isName c) (hnames c)
    simp only [Rebased, replaced, habs, if_true, true_and, forall_const]
    rw [normpath_join hdir hrel, pathText_inj (isName_lexical hdir _) htext, hlex, htarget]
    exact take_append_drop_eq_iff (commonLength_le_left _ _) (commonLength_le_right _ _)
  · simp [Rebased, replaced, habs]

theorem keepsTargets_iff (cwd basedir : AbsPath) (entries : List (PathName × Tree)) :
    KeepsTargets cwd basedir entries ↔ ∀ e ∈ linksOf [] entries, isAbs e.2 →
      WalksRight cwd basedir e.1 e.2 := by
  have hbase : ∀ c ∈ basedir.comps ++ [], IsName c := by
    rw [List.append_nil]
    exact basedir.isName
  have hlinks := linksOf_replaceEntries cwd.text basedir.text hbase entries
  rw [List.append_nil] at hlinks
  show List.Forall₂ _ _ (linksOf [] (replaceEntries cwd.text basedir.text (pathText basedir.comps)
    entries)) ↔ _
  rw [hlinks, List.forall₂_map_right_iff,
    List.forall₂_same]
  refine forall₂_congr fun e he => ?_
  exact rebased_iff (isName_of_mem_linksOf (by simp) entries e he).2 e.2

theorem take_commonLength (s t : List Str) :
    s.take (commonLength s t) = t.take (commonLength s t) := by
  induction s generalizing t with
  | nil => rfl
  | cons a s ih =>
    cases t with
    | nil => rfl
    | cons b t =>
      rw [commonLength]
      split
      · rename_i h
        rw [List.take_succ_cons, List.take_succ_cons, ih t, h]
      · rfl

theorem dirname_below {d : List Str} (hd : ∀ c ∈ d, IsName c) (name : PathName) :
    dirname (below (d ++ [name.1])) = pathText d := by
  have hcut : below (d ++ [name.1]) = (below d ++ ['/']) ++ name.1 := by
    simp [below]
  have hname : ∀ c ∈ name.1, decide (c ≠ '/') := fun c hc => by
    simpa using fun he : c = '/' => name.2.2.1 (he ▸ hc)
  have hhead : (below (d ++ [name.1])).rdropWhile (· ≠ '/') = below d ++ ['/'] := by
    have hself : (below d ++ ['/']).rdropWhile (fun c => decide (c ≠ '/')) = below d ++ ['/'] :=
      List.rdropWhile_concat_neg _ _ _ (by decide)
    rw [hcut, List.rdropWhile, List.reverse_append,
      List.dropWhile_append_of_pos fun c hc => hname c (List.mem_reverse.1 hc)]
    exact hself
  rw [dirname, hhead]
  by_cases hne : d = []
  · subst hne
    rfl
  · have hlast := getLast?_pathText hd hne
    rw [pathText_of_ne_nil hne] at hlast ⊢
    have hall : (below d ++ ['/']).all (fun c => decide (c = '/')) = false := by
      refine List.all_eq_false.2 ⟨(below d).getLast (by rwa [Ne, below_eq_nil]), ?_, ?_⟩
      · exact List.mem_append_left _ (List.getLast_mem _)
      · rw [List.getLast?_eq_some_getLast (by rwa [Ne, below_eq_nil])] at hlast
        simpa using hlast
    rw [hall, List.rdropWhile_concat_pos _ _ _ (by decide)]
    refine List.rdropWhile_eq_self_iff.2 fun h => ?_
    rw [List.getLast?_eq_some_getLast h] at hlast
    simpa using hlast

/-- The directory is the right one where the base directory stands in the path of the link only in
front. -/
theorem walksRight_of_last {cwd basedir : AbsPath} {d : List Str} {name : PathName}
    (hd : ∀ c ∈ d, IsName c)
    (h : afterLast? basedir.text (pathText (basedir.comps ++ (d ++ [name.1]))) =
      some (below (d ++ [name.1]))) (link : Str) :
    WalksRight cwd basedir (d ++ [name.1]) link := by
  have hwalk : walkDir basedir.text (pathText (basedir.comps ++ (d ++ [name.1]))) = pathText d := by
    rw [walkDir, h, Option.getD_some, dirname_below hd]
  have hcomps : absComps cwd.text (pathText d) = d := by
    have hsplit : (pathText d).splitOn '/' = [] :: (if d = [] then [[]] else d) := by
      split
      · rename_i hne
        subst hne
        decide
      · rename_i hne
        rw [pathText_of_ne_nil hne, splitOn_below fun c hc => (hd c hc).2.1]
    have habs : isAbs (pathText d) = true := rfl
    rw [absComps, if_pos habs, splitOn_normpath habs, hsplit, normComps, List.foldl_cons]
    split
    · rename_i hne
      subst hne
      rfl
    · show (d.foldl (normStep true) []).reverse = d
      rw [foldl_normStep_names hd, List.append_nil, List.reverse_reverse]
  left
  rw [hwalk, hcomps, List.dropLast_concat]
  exact ⟨rfl, take_commonLength d _⟩

/-- When both ways of making links relative keep the targets. -/
theorem relativeLinks_iff (fs : Links) (p : LinkPath) (target : AbsPath) (cwd basedir : AbsPath)
    (entries : List (PathName × Tree)) :
    (KeepsTarget fs p target ↔ AtComponent p target) ∧
      (KeepsTargets cwd basedir entries ↔ ∀ e ∈ linksOf [] entries, isAbs e.2 →
        WalksRight cwd basedir e.1 e.2) :=
  ⟨p.keepsTarget_iff target fs, keepsTargets_iff cwd basedir entries⟩

theorem isName_usr : ∀ c ∈ ["usr".toList, "lib".toList], IsName c := by decide +kernel

theorem isName_x : IsName "x".toList := by decide +kernel

theorem isName_libexec : ∀ c ∈ ["usr".toList, "libexec".toList, "y".toList], IsName c := by
  decide +kernel

/-- `/usr/lib` is where the text of `/usr/libexec/y` begins, and no directory above it. -/
theorem usrLib_fails : ¬ KeepsTarget (fun _ => none)
    ⟨⟨["usr".toList, "lib".toList], isName_usr⟩, ⟨"x".toList, isName_x⟩⟩
    ⟨["usr".toList, "libexec".toList, "y".toList], isName_libexec⟩ := by
  rw [LinkPath.keepsTarget_iff]
  unfold AtComponent
  decide +kernel

end Oe
end OpenBmc
