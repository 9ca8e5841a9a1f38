import OpenBmc.Lib.FileTree
import OpenBmc.Py.Str

/-!
# Clearing the read-write overlay

The initramfs clears the overlay's `cow` directory down to the whitelisted files in one of two
ways: `fast_clear_rwfs` removes in place what `find` lists, and the slow way has `update` save the
whitelisted files, erases the flash and has `update` restore them. `same_files_iff` says when both
leave the same files. They do not for a whitelisted link that dangles: the slow way leaves out what
`test -e` does not see.
-/

namespace OpenBmc
namespace Initramfs
open Py

/-- The name of a file in its directory. -/
structure Name where
  text : Str
  nonempty : text ≠ []
  noSlash : '/' ∉ text
  deriving DecidableEq

inductive Entry
  | file (content : Str)
  | link (target : Str)

abbrev Path := List Name

abbrev Tree := FileTree Name Entry

/-- The text of a path below the directory it starts from. -/
def under (p : Path) : Str := p.flatMap fun n => '/' :: n.text

/-- A line of the whitelist: the path from the root, written without any other parts. -/
def lineText (w : Path) : Str := if w = [] then ['/'] else under w

def upper : Str := "run/initramfs/rw/cow".toList

/-! ### `fast_clear_rwfs` -/

/-- A test `! -path` of `find`; the star of the second one matches slashes as well. -/
inductive PathTest
  | path (line : Str)
  | below (line : Str)

def PathTest.matches (file : Str) : PathTest → Bool
  | .path line => file = line
  | .below line => (line ++ ['/']).isPrefixOf file

def dirname (s : Str) : Str :=
  let t := s.rdropWhile (· = '/')
  if '/' ∈ t then
    let parent := (t.rdropWhile (· ≠ '/')).rdropWhile (· = '/')
    if parent = [] then ['/'] else parent
  else if t = [] ∧ s ≠ [] then ['/'] else ['.']

/-- The loop over a line and its parents; it has no result while it still runs. -/
def excludeParents (base : Str) : ℕ → Str → Option (List PathTest)
  | 0, _ => none
  | fuel + 1, line =>
    if line = base then some []
    else (excludeParents base fuel (dirname line)).map (.path line :: ·)

/-- The tests that exclude the whitelisted files with what is below and above them. -/
def excludeArgs (base : Str) (fuel : ℕ) : List Path → Option (List PathTest)
  | [] => some []
  | w :: whitelist => do
    let line := base ++ lineText w
    let parents ← excludeParents base fuel line
    let args ← excludeArgs base fuel whitelist
    return (.below line :: parents) ++ args

/-- Everything that `find` lists is removed, a directory with what is in it. -/
def fastClearRwfs (fuel : ℕ) (tree : Tree) (whitelist : List Path) : Option Tree :=
  (excludeArgs upper fuel whitelist).map fun args =>
    tree.prune fun p => !args.any (·.matches (upper ++ under p))

/-! ### `update --save-files` and `update --restore-files` -/

/-- What a path that leads through a symbolic link comes to. The link may lead out of the tree. -/
structure Links where
  /-- What `test -e` says of a path below a link, or of the link. -/
  found : Path → Bool
  /-- The saved files after `mkdir` and `cp` on a path below a link. -/
  copied : Tree → Path → Tree

def isLink (t : Tree) (p : Path) : Bool :=
  match t.node p with
  | some (.leaf (.link _)) => true
  | _ => false

/-- A symbolic link is above the path. -/
def belowLink (t : Tree) (p : Path) : Bool := p.inits.any fun q => q ≠ p && isLink t q

/-- `test -e`: the path is followed as far as there are directories. -/
def testE (links : Links) (t : Tree) (p : Path) : Bool :=
  match p.inits.find? t.isLeaf with
  | none => (t.node p).isSome
  | some q => if isLink t q then links.found p else q = p

/-- Where `cp` puts a line's node below `save`: for the root, the directory `cow` itself. -/
def saveDest (w : Path) : Path := if w = [] then [⟨"cow".toList, by decide, by decide⟩] else w

def saveFile (links : Links) (tree save : Tree) (f : Path) : Tree :=
  if testE links tree f then
    if belowLink tree f || belowLink save f then links.copied save f
    else tree.copy f (save.mkdirs (saveDest f).dropLast) (saveDest f)
  else save

def saveFiles (links : Links) (tree : Tree) (whitelist : List Path) : Tree :=
  whitelist.foldl (saveFile links tree) .empty

/-- The files are restored to the overlay after the flash is erased. -/
def restoreFiles (save : Tree) : Tree := save.copy [] .empty []

def slowClear (links : Links) (tree : Tree) (whitelist : List Path) : Tree :=
  restoreFiles (saveFiles links tree whitelist)

/-! ### Paths and their texts -/

theorem under_append (p q : Path) : under (p ++ q) = under p ++ under q := List.flatMap_append

theorem under_cons (n : Name) (p : Path) : under (n :: p) = '/' :: (n.text ++ under p) := rfl

theorem under_eq_nil {p : Path} (h : under p = []) : p = [] := by
  cases p with
  | nil => rfl
  | cons n p => cases h

/-- What follows the name of a file in a text. -/
def Slashed (s : Str) : Prop := s = [] ∨ ∃ r, s = '/' :: r

theorem slashed_under (p : Path) : Slashed (under p) := by
  cases p with
  | nil => exact .inl rfl
  | cons n p => exact .inr ⟨_, rfl⟩

theorem takeWhile_slashed {a s : Str} (ha : '/' ∉ a) (hs : Slashed s) :
    (a ++ s).takeWhile (· ≠ '/') = a := by
  have hall : ∀ c ∈ a, decide (c ≠ '/') := fun c hc => by
    simpa using fun he : c = '/' => ha (he ▸ hc)
  rw [List.takeWhile_append_of_pos hall]
  rcases hs with rfl | ⟨r, rfl⟩ <;> simp

theorem name_cancel {n m : Name} {s r : Str} (hs : Slashed s) (hr : Slashed r)
    (h : n.text ++ s = m.text ++ r) : n = m ∧ s = r := by
  have htext : n.text = m.text := by
    rw [← takeWhile_slashed n.noSlash hs, h, takeWhile_slashed m.noSlash hr]
  rw [htext, List.append_cancel_left_eq] at h
  exact ⟨by cases n; cases m; cases htext; rfl, h⟩

theorem under_prefix {r : Str} (hr : Slashed r) : ∀ {w p : Path}, under p = under w ++ r →
    ∃ q, p = w ++ q ∧ under q = r
  | [], p, h => ⟨p, rfl, h⟩
  | n :: w, [], h => nomatch h
  | n :: w, m :: p, h => by
    rw [under_cons, under_cons, List.cons_append, List.append_assoc, List.cons.injEq] at h
    have htail : Slashed (under w ++ r) := by
      rcases slashed_under w with hw | ⟨s, hw⟩
      · rw [hw]
        exact hr
      · exact .inr ⟨s ++ r, by rw [hw]; rfl⟩
    obtain ⟨rfl, htexts⟩ := name_cancel (slashed_under p) htail h.2
    obtain ⟨q, rfl, hq⟩ := under_prefix hr htexts
    exact ⟨q, rfl, hq⟩

theorem under_injective {p q : Path} (h : under p = under q) : p = q := by
  obtain ⟨r, rfl, hr⟩ := under_prefix (.inl rfl) (h.trans (List.append_nil _).symm)
  rw [under_eq_nil hr, List.append_nil]

theorem matches_path {p w : Path} :
    (PathTest.path (upper ++ under w)).matches (upper ++ under p) ↔ p = w := by
  simp only [PathTest.matches, decide_eq_true_eq, List.append_cancel_left_eq]
  exact ⟨under_injective, congrArg under⟩

theorem matches_below {p w : Path} :
    (PathTest.below (upper ++ under w)).matches (upper ++ under p) ↔ w <+: p ∧ p ≠ w := by
  rw [PathTest.matches, List.isPrefixOf_iff_prefix, List.append_assoc,
    List.prefix_append_right_inj]
  constructor
  · rintro ⟨r, hr⟩
    rw [List.append_assoc] at hr
    obtain ⟨q, rfl, hq⟩ := under_prefix (.inr ⟨r, rfl⟩) hr.symm
    refine ⟨List.prefix_append w q, fun he => ?_⟩
    rw [List.append_right_eq_self.1 he] at hq
    cases hq
  · rintro ⟨⟨q, rfl⟩, hne⟩
    cases q with
    | nil => exact absurd (List.append_nil w) hne
    | cons n q => exact ⟨n.text ++ under q, by rw [under_append, under_cons]; simp⟩

/-! ### The parents of a line -/

theorem rdropWhile_append {f : Char → Bool} {a b : Str} (hb : ∀ c ∈ b, f c) :
    (a ++ b).rdropWhile f = a.rdropWhile f := by
  induction b using List.reverseRecOn with
  | nil => rw [List.append_nil]
  | append_singleton b c ih =>
    rw [← List.append_assoc, List.rdropWhile_concat_pos _ _ _ (hb c (by simp))]
    exact ih fun d hd => hb d (List.mem_append_left _ hd)

theorem rdropWhile_self {f : Char → Bool} {s : Str} (h : ∀ c ∈ s.getLast?, ¬ f c) :
    s.rdropWhile f = s := by
  rw [List.rdropWhile_eq_self_iff]
  exact fun hne => h _ (List.getLast?_eq_some_getLast hne)

theorem getLast_name (base : Str) (n : Name) :
    ∀ c ∈ (base ++ '/' :: n.text).getLast?, ¬ decide (c = '/') := by
  intro c hc
  obtain ⟨d, s, htext⟩ := List.exists_cons_of_ne_nil n.nonempty
  have hmem : c ∈ n.text := by
    rw [htext, List.append_cons, List.getLast?_append_of_ne_nil _ (List.cons_ne_nil d s)] at hc
    rw [htext]
    exact List.mem_of_getLast? hc
  rw [decide_eq_true_iff]
  exact fun he => n.noSlash (he ▸ hmem)

theorem dirname_under {base : Str} (hbase : base ≠ [])
    (hlast : ∀ c ∈ base.getLast?, ¬ decide (c = '/')) (n : Name) :
    dirname (base ++ '/' :: n.text) = base := by
  have hname : (base ++ '/' :: n.text).rdropWhile (· = '/') = base ++ '/' :: n.text :=
    rdropWhile_self (getLast_name base n)
  have hcut : (base ++ '/' :: n.text).rdropWhile (· ≠ '/') = base ++ ['/'] := by
    have hall : ∀ c ∈ n.text, decide (c ≠ '/') := fun c hc => by
      simpa using fun he : c = '/' => n.noSlash (he ▸ hc)
    rw [List.append_cons, rdropWhile_append hall, List.rdropWhile_concat_neg _ _ _ (by decide)]
  have hself : (base ++ ['/']).rdropWhile (· = '/') = base := by
    rw [rdropWhile_append (by simp), rdropWhile_self hlast]
  unfold dirname
  simp only [hname]
  rw [if_pos (by simp), hcut, hself, if_neg hbase]

theorem upper_under_concat (p : Path) (n : Name) :
    upper ++ under (p ++ [n]) = (upper ++ under p) ++ '/' :: n.text := by
  rw [under_append, under_cons, ← List.append_assoc]
  simp [under]

theorem getLast_upper_under (p : Path) :
    ∀ c ∈ (upper ++ under p).getLast?, ¬ decide (c = '/') := by
  induction p using List.reverseRecOn with
  | nil =>
    have hlast : (upper ++ under []).getLast? = some 'w' := by decide
    intro c hc
    rw [hlast, Option.mem_some_iff] at hc
    subst hc
    decide
  | append_singleton p n =>
    rw [upper_under_concat]
    exact getLast_name _ n

theorem dirname_upper_under (p : Path) (n : Name) :
    dirname (upper ++ under (p ++ [n])) = upper ++ under p := by
  rw [upper_under_concat]
  refine dirname_under (fun h => ?_) (getLast_upper_under p) n
  exact absurd (List.append_eq_nil_iff.1 h).1 (by decide)

theorem excludeParents_root (fuel : ℕ) :
    excludeParents upper (fuel + 1) (upper ++ under []) = some [] := by
  rw [excludeParents, if_pos (by rw [under, List.flatMap_nil, List.append_nil])]

theorem excludeParents_concat (fuel : ℕ) (p : Path) (n : Name) :
    excludeParents upper (fuel + 1) (upper ++ under (p ++ [n])) =
      (excludeParents upper fuel (upper ++ under p)).map
        (.path (upper ++ under (p ++ [n])) :: ·) := by
  have hne : upper ++ under (p ++ [n]) ≠ upper := by
    intro h
    have h := under_eq_nil (List.append_right_eq_self.1 h)
    simp at h
  rw [excludeParents, if_neg hne, dirname_upper_under]

/-- The loop over a path and its parents ends. -/
theorem excludeParents_ends (p : Path) : ∀ fuel, p.length < fuel →
    ∃ tests, excludeParents upper fuel (upper ++ under p) = some tests := by
  induction p using List.reverseRecOn with
  | nil =>
    intro fuel h
    obtain ⟨fuel, rfl⟩ := Nat.exists_eq_add_one.2 h
    exact ⟨[], excludeParents_root fuel⟩
  | append_singleton p n ih =>
    intro fuel h
    obtain ⟨fuel, rfl⟩ := Nat.exists_eq_add_one.2 (Nat.zero_lt_of_lt h)
    obtain ⟨tests, ht⟩ := ih fuel (by simpa using h)
    exact ⟨_, by rw [excludeParents_concat, ht, Option.map_some]⟩

/-- It excludes the path and each of its parents. -/
theorem mem_excludeParents (p : Path) : ∀ fuel tests,
    excludeParents upper fuel (upper ++ under p) = some tests →
    ∀ x, x ∈ tests ↔ ∃ q, q ≠ [] ∧ q <+: p ∧ x = .path (upper ++ under q) := by
  induction p using List.reverseRecOn with
  | nil =>
    intro fuel tests h x
    cases fuel with
    | zero => cases h
    | succ fuel =>
      rw [excludeParents_root, Option.some.injEq] at h
      rw [← h]
      refine ⟨fun hm => absurd hm List.not_mem_nil, ?_⟩
      rintro ⟨q, hne, hq, -⟩
      exact absurd (List.prefix_nil.1 hq) hne
  | append_singleton p n ih =>
    intro fuel tests h x
    cases fuel with
    | zero => cases h
    | succ fuel =>
      rw [excludeParents_concat, Option.map_eq_some_iff] at h
      obtain ⟨rest, hrest, rfl⟩ := h
      rw [List.mem_cons, ih fuel rest hrest]
      constructor
      · rintro (rfl | ⟨q, hne, hq, rfl⟩)
        · exact ⟨p ++ [n], by simp, List.prefix_rfl, rfl⟩
        · exact ⟨q, hne, hq.trans (List.prefix_append p [n]), rfl⟩
      · rintro ⟨q, hne, hq, rfl⟩
        rcases List.prefix_concat_iff.1 hq with rfl | hq
        · exact .inl rfl
        · exact .inr ⟨q, hne, hq, rfl⟩

theorem excludeParents_up (line : Str) {parent : Str} (hline : line ≠ upper)
    (hparent : dirname line = parent) (h : ∀ fuel, excludeParents upper fuel parent = none) (fuel : ℕ) :
    excludeParents upper fuel line = none := by
  cases fuel with
  | zero => rfl
  | succ fuel => rw [excludeParents, if_neg hline, hparent, h, Option.map_none]

theorem excludeParents_dot (fuel : ℕ) : excludeParents upper fuel ".".toList = none := by
  induction fuel with
  | zero => rfl
  | succ fuel ih =>
    have hdot : dirname ".".toList = ".".toList := by decide
    rw [excludeParents, if_neg (by decide), hdot, ih, Option.map_none]

/-- From the root the loop goes up past the base, and stays at the working directory. -/
theorem excludeParents_slash (fuel : ℕ) : excludeParents upper fuel (upper ++ ['/']) = none := by
  have hrun := excludeParents_up "run".toList (by decide) (by decide) excludeParents_dot
  have hinit := excludeParents_up "run/initramfs".toList (by decide) (by decide) hrun
  have hrw := excludeParents_up "run/initramfs/rw".toList (by decide) (by decide) hinit
  exact excludeParents_up (upper ++ ['/']) (by decide) (by decide) hrw fuel

/-! ### What `fast_clear_rwfs` leaves -/

/-- The paths that the whitelist keeps `find` from: at, below or above a line. -/
def Kin (whitelist : List Path) (p : Path) : Prop := ∃ w ∈ whitelist, w <+: p ∨ p <+: w

instance (whitelist : List Path) (p : Path) : Decidable (Kin whitelist p) :=
  inferInstanceAs (Decidable (∃ w ∈ whitelist, _))

theorem excludeArgs_spec {fuel : ℕ} : ∀ {whitelist : List Path} {args : List PathTest},
    excludeArgs upper fuel whitelist = some args → [] ∉ whitelist ∧ ∀ p, p ≠ [] →
      (args.any (·.matches (upper ++ under p)) ↔ Kin whitelist p)
  | [], args, h => by
    cases h
    exact ⟨List.not_mem_nil, fun p _ => by simp [Kin]⟩
  | w :: whitelist, args, h => by
    simp only [excludeArgs, Option.bind_eq_bind, Option.bind_eq_some_iff, Option.pure_def,
      Option.some.injEq] at h
    obtain ⟨parents, hparents, rest, hrest, rfl⟩ := h
    have ⟨hroot, hkin⟩ := excludeArgs_spec hrest
    have hw : w ≠ [] := by
      rintro rfl
      rw [lineText, if_pos rfl, excludeParents_slash] at hparents
      cases hparents
    rw [lineText, if_neg hw] at hparents
    refine ⟨by simp [Ne.symm hw, hroot], fun p hp => ?_⟩
    have hpar : parents.any (·.matches (upper ++ under p)) ↔ p <+: w := by
      rw [List.any_eq_true]
      constructor
      · rintro ⟨x, hx, hm⟩
        obtain ⟨q, -, hq, rfl⟩ := (mem_excludeParents w _ _ hparents x).1 hx
        rwa [matches_path.1 hm]
      · intro hpw
        exact ⟨_, (mem_excludeParents w _ _ hparents _).2 ⟨p, hp, hpw, rfl⟩, matches_path.2 rfl⟩
    have hline : (PathTest.below (upper ++ lineText w)).matches (upper ++ under p) ∨ p <+: w ↔
        w <+: p ∨ p <+: w := by
      rw [lineText, if_neg hw, matches_below]
      constructor
      · rintro (h | h)
        · exact .inl h.1
        · exact .inr h
      · rintro (h | h)
        · by_cases he : p = w
          · exact .inr (he ▸ List.prefix_rfl)
          · exact .inl ⟨h, he⟩
        · exact .inr h
    rw [List.any_append, List.any_cons, Bool.or_eq_true, Bool.or_eq_true, hpar, hkin p hp, hline]
    simp [Kin]

theorem excludeArgs_ends {fuel : ℕ} : ∀ {whitelist : List Path}, [] ∉ whitelist →
    (∀ w ∈ whitelist, w.length < fuel) → ∃ args, excludeArgs upper fuel whitelist = some args
  | [], _, _ => ⟨[], rfl⟩
  | w :: whitelist, hroot, hfuel => by
    rw [List.mem_cons, not_or] at hroot
    obtain ⟨parents, hparents⟩ := excludeParents_ends w fuel (hfuel w List.mem_cons_self)
    obtain ⟨args, hargs⟩ := excludeArgs_ends hroot.2
      fun v hv => hfuel v (List.mem_cons_of_mem w hv)
    refine ⟨.below (upper ++ lineText w) :: parents ++ args, ?_⟩
    rw [excludeArgs, hargs, lineText, if_neg (Ne.symm hroot.1), hparents]
    rfl

theorem Kin.above {whitelist : List Path} {p q : Path} (h : Kin whitelist p) (hq : q <+: p) :
    Kin whitelist q := by
  obtain ⟨w, hw, hp | hp⟩ := h
  · exact ⟨w, hw, List.prefix_or_prefix_of_prefix hp hq⟩
  · exact ⟨w, hw, .inr (hq.trans hp)⟩

variable {links : Links} {tree : Tree} {whitelist : List Path}

theorem fastClearRwfs_spec {fuel : ℕ} {left : Tree}
    (h : fastClearRwfs fuel tree whitelist = some left) :
    [] ∉ whitelist ∧
      ∀ p, left.node p = if p = [] ∨ Kin whitelist p then tree.node p else none := by
  obtain ⟨args, hargs, rfl⟩ := Option.map_eq_some_iff.1 h
  have ⟨hroot, hkin⟩ := excludeArgs_spec hargs
  refine ⟨hroot, fun p => FileTree.node_prune (fun q hq => ?_) fun q _ hq hk => hk.above hq⟩
  rw [Bool.not_eq_true', ← Bool.not_eq_true, hkin q hq]

theorem fastClearRwfs_ends (h : [] ∉ whitelist) :
    ∃ fuel left, fastClearRwfs fuel tree whitelist = some left := by
  have hfuel : ∀ w ∈ whitelist, w.length < whitelist.flatten.length + 1 := fun w hw =>
    Nat.lt_succ_of_le (List.sublist_flatten_of_mem hw).length_le
  obtain ⟨args, hargs⟩ := excludeArgs_ends h hfuel
  exact ⟨_, _, by rw [fastClearRwfs, hargs, Option.map_some]⟩

/-! ### What is saved and restored -/

theorem isLeaf_of_isLink {t : Tree} {p : Path} (h : isLink t p) : t.isLeaf p := by
  unfold isLink at h
  split at h
  · exact FileTree.isLeaf_of_node ‹_›
  · cases h

theorem belowLink_iff {t : Tree} {p : Path} :
    belowLink t p ↔ ∃ q, q <+: p ∧ q ≠ p ∧ isLink t q := by
  simp [belowLink, List.any_eq_true, List.mem_inits]

theorem belowLink_of_sub {t src : Tree} {p : Path} (hsub : t.Sub src) (h : belowLink t p) :
    belowLink src p := by
  obtain ⟨q, hq, hne, hlink⟩ := belowLink_iff.1 h
  refine belowLink_iff.2 ⟨q, hq, hne, ?_⟩
  unfold isLink at hlink ⊢
  split at hlink
  · rw [hsub q _ ‹_›]
  · cases hlink

/-- `test -e` stops at the node on the path that is no directory. -/
theorem testE_of_isLeaf {p q : Path} (hq : tree.isLeaf q) (hqp : q <+: p) :
    testE links tree p = if isLink tree q then links.found p else decide (q = p) := by
  have hfind : p.inits.find? tree.isLeaf = some q := by
    cases hf : p.inits.find? tree.isLeaf with
    | none =>
      exact absurd hq (List.find?_eq_none.1 hf q ((List.mem_inits _ _).2 hqp))
    | some r =>
      have hrp := (List.mem_inits _ _).1 (List.mem_of_find?_eq_some hf)
      rw [FileTree.eq_of_isLeaf (List.find?_some hf) hq hrp hqp]
  rw [testE, hfind]

theorem testE_of_clear {p : Path} (h : ∀ q, q <+: p → ¬ tree.isLeaf q) :
    testE links tree p = (tree.node p).isSome := by
  have hfind : p.inits.find? tree.isLeaf = none :=
    List.find?_eq_none.2 fun q hq => h q ((List.mem_inits _ _).1 hq)
  rw [testE, hfind]

/-- No line is found through a symbolic link. -/
def NoneThroughLinks (links : Links) (tree : Tree) (whitelist : List Path) : Prop :=
  ∀ w ∈ whitelist, belowLink tree w → ¬ links.found w

theorem testE_below {p q : Path} (hthrough : belowLink tree p → ¬ links.found p)
    (hq : tree.isLeaf q) (hqp : q <+: p) (hne : q ≠ p) : ¬ testE links tree p := by
  rw [testE_of_isLeaf hq hqp]
  split
  · exact hthrough (belowLink_iff.2 ⟨q, hqp, hne, ‹_›⟩)
  · simpa using hne

/-- What is found without a link in its way is in the tree. -/
theorem node_of_testE {p : Path} (hthrough : belowLink tree p → ¬ links.found p)
    (h : testE links tree p) : ¬ belowLink tree p ∧ tree.node p ≠ none := by
  by_cases hleaf : ∃ q, q <+: p ∧ tree.isLeaf q
  · obtain ⟨q, hqp, hq⟩ := hleaf
    have he : q = p := by
      by_contra hne
      exact testE_below hthrough hq hqp hne h
    subst he
    obtain ⟨d, hd⟩ := FileTree.isLeaf_iff.1 hq
    refine ⟨fun hb => ?_, by rw [hd]; exact Option.some_ne_none _⟩
    obtain ⟨r, hr, hne, hlink⟩ := belowLink_iff.1 hb
    exact hne (FileTree.eq_of_isLeaf (isLeaf_of_isLink hlink) hq hr List.prefix_rfl)
  · rw [not_exists] at hleaf
    have hclear : ∀ q, q <+: p → ¬ tree.isLeaf q := fun q hq hl => hleaf q ⟨hq, hl⟩
    rw [testE_of_clear hclear] at h
    refine ⟨fun hb => ?_, Option.isSome_iff_ne_none.1 h⟩
    obtain ⟨r, hr, -, hlink⟩ := belowLink_iff.1 hb
    exact hclear r hr (isLeaf_of_isLink hlink)

theorem node_saveFile {save : Tree} (hsub : save.Sub tree) {f : Path} (hf : f ≠ [])
    (hthrough : belowLink tree f → ¬ links.found f) (p : Path) :
    (saveFile links tree save f).node p =
      if testE links tree f ∧ (f <+: p ∨ p <+: f) then tree.node p else save.node p := by
  unfold saveFile
  by_cases he : testE links tree f
  · have ⟨hlink, hnode⟩ := node_of_testE hthrough he
    have hsave : ¬ (belowLink tree f || belowLink save f) := by
      rw [Bool.or_eq_true, not_or]
      exact ⟨hlink, fun hs => hlink (belowLink_of_sub hsub hs)⟩
    rw [if_pos he, if_neg hsave, saveDest, if_neg hf, hsub.node_place hnode hf]
    simp [he]
  · rw [if_neg he, if_neg fun h => he h.1]

/-- The paths that are saved with the lines that are found. -/
def Saved (links : Links) (tree : Tree) (whitelist : List Path) (p : Path) : Prop :=
  ∃ w ∈ whitelist, testE links tree w ∧ (w <+: p ∨ p <+: w)

instance (p : Path) : Decidable (Saved links tree whitelist p) :=
  inferInstanceAs (Decidable (∃ w ∈ whitelist, _))

theorem node_saveFiles (hroot : [] ∉ whitelist) (h : NoneThroughLinks links tree whitelist)
    (p : Path) : (saveFiles links tree whitelist).node p =
      if p = [] ∨ Saved links tree whitelist p then tree.node p else none := by
  induction whitelist using List.reverseRecOn generalizing p with
  | nil =>
    show (if p = [] then some Node.dir else none) = _
    by_cases hp : p = []
    · rw [if_pos hp, if_pos (.inl hp), hp, tree.root]
    · simp [hp, Saved]
  | append_singleton whitelist w ih =>
    simp only [List.mem_append, List.mem_singleton, not_or] at hroot
    have ih := ih hroot.1 fun v hv => h v (List.mem_append_left _ hv)
    have hsub : (saveFiles links tree whitelist).Sub tree := by
      intro q n hq
      rw [ih] at hq
      split at hq
      · exact hq
      · cases hq
    have hstep := node_saveFile hsub (Ne.symm hroot.2) (h w (by simp)) p
    rw [saveFiles, List.foldl_concat]
    refine hstep.trans ?_
    rw [ih p]
    have hsaved : Saved links tree (whitelist ++ [w]) p ↔ Saved links tree whitelist p ∨
        testE links tree w ∧ (w <+: p ∨ p <+: w) := by
      simp [Saved, or_and_right, exists_or]
    by_cases hw : testE links tree w ∧ (w <+: p ∨ p <+: w)
    · rw [if_pos hw, if_pos (.inr (hsaved.2 (.inr hw)))]
    · rw [or_iff_left hw] at hsaved
      simp only [if_neg hw, hsaved]

theorem node_slowClear (hroot : [] ∉ whitelist) (h : NoneThroughLinks links tree whitelist)
    (p : Path) : (slowClear links tree whitelist).node p =
      if p = [] ∨ Saved links tree whitelist p then tree.node p else none := by
  rw [slowClear, restoreFiles, FileTree.node_copy_empty, node_saveFiles hroot h]

/-! ### The same files -/

/-- The node is no directory, and is whitelisted or below a whitelisted path. -/
def Kept (tree : Tree) (whitelist : List Path) (p : Path) (e : Entry) : Prop :=
  tree.node p = some (.leaf e) ∧ ∃ w ∈ whitelist, w <+: p

/-- Both ways of clearing come to an end, and leave what the whitelist keeps and nothing else. -/
def SameFiles (links : Links) (tree : Tree) (whitelist : List Path) : Prop :=
  ∃ fuel left, fastClearRwfs fuel tree whitelist = some left ∧ ∀ p e,
    (left.node p = some (.leaf e) ↔ Kept tree whitelist p e) ∧
    ((slowClear links tree whitelist).node p = some (.leaf e) ↔ Kept tree whitelist p e)

/-- What is above a line is a directory, unless the whitelist keeps it as well. -/
def AncestorsKept (tree : Tree) (whitelist : List Path) : Prop :=
  ∀ w ∈ whitelist, ∀ q, q <+: w → tree.isLeaf q → ∃ v ∈ whitelist, v <+: q

/-- A whitelisted link that dangles is below another whitelisted path. -/
def LinksCovered (links : Links) (tree : Tree) (whitelist : List Path) : Prop :=
  ∀ w ∈ whitelist, isLink tree w → ¬ links.found w → ∃ v ∈ whitelist, v <+: w ∧ v ≠ w

/-- What the fast way leaves is kept by the whitelist, or above a line. -/
theorem fast_iff {fuel : ℕ} {left : Tree} (h : fastClearRwfs fuel tree whitelist = some left)
    {p : Path} {e : Entry} :
    left.node p = some (.leaf e) ↔ tree.node p = some (.leaf e) ∧ Kin whitelist p := by
  rw [(fastClearRwfs_spec h).2 p]
  constructor
  · intro hp
    split at hp
    · rename_i hkin
      exact ⟨hp, hkin.resolve_left (FileTree.ne_nil_of_leaf hp)⟩
    · cases hp
  · rintro ⟨hp, hkin⟩
    rw [if_pos (.inr hkin), hp]

theorem slow_iff (hroot : [] ∉ whitelist) (h : NoneThroughLinks links tree whitelist)
    {p : Path} {e : Entry} : (slowClear links tree whitelist).node p = some (.leaf e) ↔
      tree.node p = some (.leaf e) ∧ ∃ w ∈ whitelist, testE links tree w ∧ w <+: p := by
  rw [node_slowClear hroot h]
  constructor
  · intro hp
    split at hp
    · rename_i hsaved
      obtain ⟨w, hw, hfound, hwp⟩ := hsaved.resolve_left (FileTree.ne_nil_of_leaf hp)
      refine ⟨hp, w, hw, hfound, hwp.elim id fun hpw => ?_⟩
      by_cases he : p = w
      · exact he ▸ List.prefix_rfl
      · exact absurd hfound (testE_below (h w hw) (FileTree.isLeaf_of_node hp) hpw he)
    · cases hp
  · rintro ⟨hp, w, hw, hfound, hwp⟩
    rw [if_pos (.inr ⟨w, hw, hfound, .inl hwp⟩), hp]

/-- The fast way ends only without the root, and keeps nothing else only with `AncestorsKept`. -/
theorem SameFiles.fast (h : SameFiles links tree whitelist) :
    [] ∉ whitelist ∧ AncestorsKept tree whitelist := by
  obtain ⟨fuel, left, hfast, hsame⟩ := h
  refine ⟨(fastClearRwfs_spec hfast).1, fun w hw q hq hleaf => ?_⟩
  obtain ⟨e, he⟩ := FileTree.isLeaf_iff.1 hleaf
  exact ((hsame q e).1.1 ((fast_iff hfast).2 ⟨he, w, hw, .inr hq⟩)).2

/-- A whitelisted path with a node at or below it is found, unless it is a link that dangles. -/
theorem testE_of_kept {p w : Path} {e : Entry} (hp : tree.node p = some (.leaf e))
    (hwp : w <+: p) (hlink : isLink tree w → links.found w) : testE links tree w := by
  by_cases he : w = p
  · subst he
    rw [testE_of_isLeaf (FileTree.isLeaf_of_node hp) List.prefix_rfl]
    split
    · exact hlink ‹_›
    · exact decide_eq_true rfl
  · have hclear : ∀ q, q <+: w → ¬ tree.isLeaf q := fun q hq =>
      FileTree.not_isLeaf_of_dir (tree.closed p _ hp q (hq.trans hwp) fun hqp =>
        he (hwp.eq_of_length_le (hqp ▸ hq.length_le)))
    rw [testE_of_clear hclear, tree.closed p _ hp w hwp he, Option.isSome_some]

theorem SameFiles.linksCovered (h : SameFiles links tree whitelist)
    (hnone : NoneThroughLinks links tree whitelist) : LinksCovered links tree whitelist := by
  intro w hw hlink hdangling
  have hroot := h.fast.1
  obtain ⟨fuel, left, -, hsame⟩ := h
  obtain ⟨e, he⟩ := FileTree.isLeaf_iff.1 (isLeaf_of_isLink hlink)
  have hkept := (hsame w e).2.2 ⟨he, w, hw, List.prefix_rfl⟩
  obtain ⟨-, v, hv, hfound, hvw⟩ := (slow_iff hroot hnone).1 hkept
  refine ⟨v, hv, hvw, ?_⟩
  rintro rfl
  rw [testE_of_isLeaf (FileTree.isLeaf_of_node he) List.prefix_rfl, if_pos hlink] at hfound
  exact hdangling hfound

theorem same_files (hroot : [] ∉ whitelist) (hancestors : AncestorsKept tree whitelist)
    (hlinks : LinksCovered links tree whitelist) (hnone : NoneThroughLinks links tree whitelist) :
    SameFiles links tree whitelist := by
  obtain ⟨fuel, left, hfast⟩ : ∃ fuel left, fastClearRwfs fuel tree whitelist = some left :=
    fastClearRwfs_ends hroot
  refine ⟨fuel, left, hfast, fun p e => ⟨?_, ?_⟩⟩
  · rw [fast_iff hfast]
    constructor
    · rintro ⟨hp, w, hw, hwp | hpw⟩
      · exact ⟨hp, w, hw, hwp⟩
      · exact ⟨hp, hancestors w hw p hpw (FileTree.isLeaf_of_node hp)⟩
    · rintro ⟨hp, w, hw, hwp⟩
      exact ⟨hp, w, hw, .inl hwp⟩
  · rw [slow_iff hroot hnone]
    constructor
    · rintro ⟨hp, w, hw, -, hwp⟩
      exact ⟨hp, w, hw, hwp⟩
    · rintro ⟨hp, w, hw, hwp⟩
      by_cases hdangling : isLink tree w ∧ ¬ links.found w
      · -- the directory above the link is found, and the link is saved with it
        obtain ⟨v, hv, hvw, hne⟩ := hlinks w hw hdangling.1 hdangling.2
        obtain ⟨d, hd⟩ := FileTree.isLeaf_iff.1 (isLeaf_of_isLink hdangling.1)
        have hdir := tree.closed w _ hd v hvw hne
        have hlink : isLink tree v → links.found v := fun hl =>
          absurd (isLeaf_of_isLink hl) (FileTree.not_isLeaf_of_dir hdir)
        exact ⟨hp, v, hv, testE_of_kept hd hvw hlink, hvw.trans hwp⟩
      · have hlink : isLink tree w → links.found w := fun hl => by
          by_contra hf
          exact hdangling ⟨hl, hf⟩
        exact ⟨hp, w, hw, testE_of_kept hp hwp hlink, hwp⟩

/-- Both ways keep the same files only without the root in the whitelist and with whatever is above
a line kept too; where no line is found through a link, they keep the same files exactly when also
every whitelisted link that dangles is below another whitelisted path. -/
theorem same_files_iff (links : Links) (tree : Tree) (whitelist : List Path) :
    (SameFiles links tree whitelist → [] ∉ whitelist ∧ AncestorsKept tree whitelist) ∧
    (NoneThroughLinks links tree whitelist → (SameFiles links tree whitelist ↔
      [] ∉ whitelist ∧ AncestorsKept tree whitelist ∧ LinksCovered links tree whitelist)) := by
  refine ⟨SameFiles.fast, fun hnone => ⟨fun h => ?_, fun h => ?_⟩⟩
  · exact ⟨h.fast.1, h.fast.2, h.linksCovered hnone⟩
  · exact same_files h.1 h.2.1 h.2.2 hnone

namespace Sample

def etc : Name := ⟨"etc".toList, by decide, by decide⟩
def machineId : Name := ⟨"machine-id".toList, by decide, by decide⟩

/-- Links that all dangle. -/
def dangling : Links := ⟨fun _ => false, fun save _ => save⟩

end Sample

/-- A whitelisted file is kept both ways. -/
theorem file_kept : SameFiles Sample.dangling
    (.single [Sample.etc, Sample.machineId] (by decide) (.file "1".toList))
    [[Sample.etc, Sample.machineId]] := by
  have hnone : NoneThroughLinks Sample.dangling
      (.single [Sample.etc, Sample.machineId] (by decide) (.file "1".toList))
      [[Sample.etc, Sample.machineId]] := fun w _ _ => Bool.false_ne_true
  refine ((same_files_iff _ _ _).2 hnone).2 ⟨by decide, ?_, ?_⟩
  · intro w hw q hq hleaf
    rw [FileTree.isLeaf_single.1 hleaf]
    exact ⟨_, List.mem_singleton_self _, List.prefix_rfl⟩
  · intro w hw hlink
    rw [List.mem_singleton.1 hw] at hlink
    exact absurd hlink (by decide)

/-- A whitelisted link that dangles is kept by the fast way only. -/
theorem dangling_link_lost : ¬ SameFiles Sample.dangling
    (.single [Sample.etc, Sample.machineId] (by decide) (.link "/run/machine-id".toList))
    [[Sample.etc, Sample.machineId]] := by
  intro h
  obtain ⟨v, hv, -, hne⟩ := h.linksCovered (fun w _ _ => Bool.false_ne_true)
    [Sample.etc, Sample.machineId] (List.mem_singleton_self _) (by decide) Bool.false_ne_true
  exact hne (List.mem_singleton.1 hv)

end Initramfs
end OpenBmc
