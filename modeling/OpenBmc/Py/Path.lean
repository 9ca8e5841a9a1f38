import OpenBmc.Py.Str

/-!
# Paths

`os.path` on texts. An absolute path that is normalised is a list of names; `lexical` walks from one
along a relative text, and `normpath_join` says that joining and normalising do the same.
-/

namespace OpenBmc
namespace Py
namespace Path

/-! ### `os.path` -/

def isAbs (s : Str) : Bool := s.head? = some '/'

def join (a b : Str) : Str :=
  if isAbs b then b
  else if a = [] ∨ a.getLast? = some '/' then a ++ b
  else a ++ '/' :: b

def dirname (s : Str) : Str :=
  let head := s.rdropWhile (· ≠ '/')
  if head.all (· = '/') then head else head.rdropWhile (· = '/')

def dot : Str := ['.']

def pardir : Str := ['.', '.']

/-- One component of `normpath`, on the components before it in reverse. -/
def normStep (abs : Bool) (acc : List Str) (comp : Str) : List Str :=
  if comp = [] ∨ comp = dot then acc
  else if comp ≠ pardir ∨ (abs = false ∧ acc = []) ∨ acc.head? = some pardir then comp :: acc
  else acc.tail

def normComps (abs : Bool) (comps : List Str) : List Str := (comps.foldl (normStep abs) []).reverse

/-- The slashes that a normalised path begins with: two of exactly two, else one. -/
def slashes (s : Str) : Str :=
  if isAbs s then
    if s.take 2 = ['/', '/'] ∧ s.take 3 ≠ ['/', '/', '/'] then ['/', '/'] else ['/']
  else []

def normpath (s : Str) : Str :=
  if s = [] then dot
  else
    let path := slashes s ++ ['/'].intercalate (normComps (isAbs s) (s.splitOn '/'))
    if path = [] then dot else path

/-- The components of `abspath`, for the working directory `cwd`. -/
def absComps (cwd s : Str) : List Str :=
  ((normpath (if isAbs s then s else join cwd s)).splitOn '/').filter (· ≠ [])

/-- The length of the part that two lists have in common. -/
def commonLength : List Str → List Str → ℕ
  | a :: s, b :: t => if a = b then commonLength s t + 1 else 0
  | _, _ => 0

/-- `relpath` of the path with components `path` from the directory with components `start`. -/
def relComps (path start : List Str) : List Str :=
  let i := commonLength start path
  List.replicate (start.length - i) pardir ++ path.drop i

def relpath (cwd path start : Str) : Str :=
  let rel := relComps (absComps cwd path) (absComps cwd start)
  if rel = [] then dot else ['/'].intercalate rel

/-! ### Normalised paths -/

/-- What `normpath` keeps wherever it stands. -/
def IsName (s : Str) : Prop := s ≠ [] ∧ '/' ∉ s ∧ s ≠ dot ∧ s ≠ pardir

instance (s : Str) : Decidable (IsName s) := inferInstanceAs (Decidable (_ ∧ _ ∧ _ ∧ _))

/-- The name of a file in its directory. -/
abbrev PathName := { s : Str // IsName s }

/-- An absolute path that is normalised. -/
structure AbsPath where
  comps : List Str
  isName : ∀ c ∈ comps, IsName c

/-- The text of a path behind the root directory. -/
def below (p : List Str) : Str := p.flatMap ('/' :: ·)

def pathText (p : List Str) : Str := '/' :: ['/'].intercalate p

def AbsPath.text (p : AbsPath) : Str := pathText p.comps

theorem below_cons (c : Str) (p : List Str) : below (c :: p) = '/' :: (c ++ below p) := rfl

theorem below_append (p q : List Str) : below (p ++ q) = below p ++ below q := List.flatMap_append

theorem pathText_cons (c : Str) (p : List Str) : pathText (c :: p) = below (c :: p) := by
  rw [pathText, intercalate_cons]
  rfl

theorem pathText_of_ne_nil {p : List Str} (h : p ≠ []) : pathText p = below p := by
  obtain ⟨c, p, rfl⟩ := List.exists_cons_of_ne_nil h
  exact pathText_cons c p

theorem splitOn_below {p : List Str} (h : ∀ c ∈ p, '/' ∉ c) : (below p).splitOn '/' = [] :: p := by
  cases p with
  | nil => exact List.splitOn_nil '/'
  | cons c p =>
    have hcons : below (c :: p) = [] ++ '/' :: ['/'].intercalate (c :: p) := by
      rw [intercalate_cons]
      rfl
    rw [hcons, List.splitOn_append_cons_self, List.splitOn_intercalate '/' h (List.cons_ne_nil c p),
      List.splitOn_nil]
    rfl

theorem below_inj {p q : List Str} (hp : ∀ c ∈ p, '/' ∉ c) (hq : ∀ c ∈ q, '/' ∉ c)
    (h : below p = below q) : p = q := by
  have hsplit := splitOn_below hp
  rw [h, splitOn_below hq] at hsplit
  exact (List.cons.inj hsplit).2.symm

theorem below_eq_nil {p : List Str} : below p = [] ↔ p = [] := by
  cases p with
  | nil => exact iff_of_true rfl rfl
  | cons c p => exact iff_of_false (List.cons_ne_nil _ _) (List.cons_ne_nil _ _)

theorem pathText_inj {p q : List Str} (hp : ∀ c ∈ p, IsName c) (hq : ∀ c ∈ q, IsName c) :
    pathText p = pathText q ↔ p = q := by
  refine ⟨fun h => ?_, fun h => h ▸ rfl⟩
  have hroot : ∀ {c : Str} {p : List Str}, IsName c → pathText (c :: p) ≠ pathText [] := by
    intro c p hc hroot
    rw [pathText_cons, below_cons] at hroot
    exact hc.1 (List.append_eq_nil_iff.1 (List.cons.inj hroot).2).1
  cases p with
  | nil =>
    cases q with
    | nil => rfl
    | cons c q => exact absurd h.symm (hroot (hq c (List.mem_cons_self ..)))
  | cons c p =>
    cases q with
    | nil => exact absurd h (hroot (hp c (List.mem_cons_self ..)))
    | cons d q =>
      rw [pathText_cons, pathText_cons] at h
      exact below_inj (fun c hc => (hp c hc).2.1) (fun c hc => (hq c hc).2.1) h

/-! ### Walking along a text -/

theorem normStep_name {c : Str} (h : IsName c) (abs : Bool) (acc : List Str) :
    normStep abs acc c = c :: acc := by
  rw [normStep, if_neg (not_or.2 ⟨h.1, h.2.2.1⟩), if_pos (.inl h.2.2.2)]

theorem foldl_normStep_names {p : List Str} (h : ∀ c ∈ p, IsName c) (abs : Bool) (acc : List Str) :
    p.foldl (normStep abs) acc = p.reverse ++ acc := by
  induction p generalizing acc with
  | nil => rfl
  | cons c p ih =>
    rw [List.foldl_cons, normStep_name (h c (List.mem_cons_self ..)),
      ih fun d hd => h d (List.mem_cons_of_mem _ hd)]
    simp

theorem normStep_pardir {acc : List Str} (h : ∀ c ∈ acc, IsName c) :
    normStep true acc pardir = acc.tail := by
  have hhead : acc.head? ≠ some pardir := fun he =>
    (h pardir (List.mem_of_head? he)).2.2.2 rfl
  rw [normStep, if_neg (by decide), if_neg]
  rintro (hne | ⟨habs, -⟩ | he)
  · exact hne rfl
  · cases habs
  · exact hhead he

theorem foldl_normStep_pardir {acc : List Str} (h : ∀ c ∈ acc, IsName c) (k : ℕ) :
    (List.replicate k pardir).foldl (normStep true) acc = acc.drop k := by
  induction k generalizing acc with
  | zero => rfl
  | succ k ih =>
    rw [List.replicate_succ, List.foldl_cons, normStep_pardir h,
      ih fun c hc => h c (List.mem_of_mem_tail hc), List.drop_tail]

/-- Only names are left of the components of an absolute path. -/
theorem isName_of_mem_foldl {comps acc : List Str} (hcomps : ∀ c ∈ comps, '/' ∉ c)
    (hacc : ∀ c ∈ acc, IsName c) : ∀ c ∈ comps.foldl (normStep true) acc, IsName c := by
  induction comps generalizing acc with
  | nil => exact hacc
  | cons d comps ih =>
    rw [List.foldl_cons]
    refine ih (fun c hc => hcomps c (List.mem_cons_of_mem _ hc)) fun c hc => ?_
    by_cases hd : d = pardir
    · rw [hd, normStep_pardir hacc] at hc
      exact hacc c (List.mem_of_mem_tail hc)
    · unfold normStep at hc
      split_ifs at hc with h1 h2
      · exact hacc c hc
      · rcases List.mem_cons.1 hc with rfl | hc
        · rw [not_or] at h1
          exact ⟨h1.1, hcomps c (List.mem_cons_self ..), h1.2, hd⟩
        · exact hacc c hc
      · exact hacc c (List.mem_of_mem_tail hc)

/-- The path at which one arrives from `d` along a relative text. -/
def lexical (d : List Str) (t : Str) : List Str :=
  ((t.splitOn '/').foldl (normStep true) d.reverse).reverse

theorem isName_lexical {d : List Str} (h : ∀ c ∈ d, IsName c) (t : Str) :
    ∀ c ∈ lexical d t, IsName c := fun c hc =>
  isName_of_mem_foldl (fun _ hc => not_mem_of_mem_splitOn hc)
    (fun c hc => h c (List.mem_reverse.1 hc)) c (List.mem_reverse.1 hc)

/-- A text that follows the root directory, or a directory below it. -/
theorem normpath_of_splitOn {s : Str} {comps : List Str} (h : s.splitOn '/' = [] :: comps)
    (habs : isAbs s) (hslash : slashes s = ['/']) :
    normpath s = pathText (comps.foldl (normStep true) []).reverse := by
  have hne : s ≠ [] := by
    rintro rfl
    cases habs
  rw [normpath, if_neg hne, h, habs, hslash, normComps, List.foldl_cons]
  exact if_neg (List.cons_ne_nil _ _)

theorem slashes_of_ne {c : Char} {s : Str} (hc : c ≠ '/') : slashes ('/' :: c :: s) = ['/'] := by
  have habs : isAbs ('/' :: c :: s) = true := rfl
  rw [slashes, if_pos habs, if_neg]
  exact fun h => hc (List.cons.inj (List.cons.inj h.1).2).1

theorem slashes_join {d : List Str} (hd : ∀ c ∈ d, IsName c) {t : Str} (ht : isAbs t = false) :
    slashes (below d ++ '/' :: t) = ['/'] := by
  cases d with
  | nil =>
    cases t with
    | nil => rfl
    | cons c t =>
      refine slashes_of_ne fun hc => ?_
      rw [hc] at ht
      cases ht
  | cons c d =>
    have hname := hd c (List.mem_cons_self ..)
    obtain ⟨a, c, rfl⟩ := List.exists_cons_of_ne_nil hname.1
    exact slashes_of_ne fun ha => hname.2.1 (ha ▸ List.mem_cons_self ..)

theorem getLast?_below {d : List Str} (hd : ∀ c ∈ d, c ≠ [] ∧ '/' ∉ c) :
    (below d).getLast? ≠ some '/' := by
  rcases List.eq_nil_or_concat' d with rfl | ⟨d, c, rfl⟩
  · exact fun h => by cases h
  · obtain ⟨hne, hslash⟩ := hd c (List.mem_append_right _ (List.mem_singleton_self c))
    rw [below_append, below_cons, show below [] = [] from rfl, List.append_nil,
      List.getLast?_append_of_ne_nil _ (List.cons_ne_nil _ _), List.getLast?_cons_of_ne_nil hne]
    exact fun h => hslash (List.mem_of_getLast? h)

theorem getLast?_pathText {d : List Str} (hd : ∀ c ∈ d, IsName c) (hne : d ≠ []) :
    (pathText d).getLast? ≠ some '/' := by
  rw [pathText_of_ne_nil hne]
  exact getLast?_below fun c hc => ⟨(hd c hc).1, (hd c hc).2.1⟩

/-- Joining a relative text to a normalised path. -/
theorem join_pathText {d : List Str} (hd : ∀ c ∈ d, IsName c) {t : Str} (ht : isAbs t = false) :
    join (pathText d) t = below d ++ '/' :: t := by
  rw [join, if_neg (by rw [ht]; exact Bool.false_ne_true)]
  by_cases hne : d = []
  · subst hne
    exact if_pos (.inr rfl)
  · have hlast := getLast?_pathText hd hne
    rw [if_neg, pathText_of_ne_nil hne]
    rw [not_or]
    exact ⟨List.cons_ne_nil _ _, hlast⟩

theorem normpath_join {d : List Str} (hd : ∀ c ∈ d, IsName c) {t : Str} (ht : isAbs t = false) :
    normpath (join (pathText d) t) = pathText (lexical d t) := by
  have hsplit : (below d ++ '/' :: t).splitOn '/' = [] :: (d ++ t.splitOn '/') := by
    rw [List.splitOn_append_cons_self, splitOn_below fun c hc => (hd c hc).2.1]
    rfl
  have habs : isAbs (below d ++ '/' :: t) := by cases d <;> rfl
  rw [join_pathText hd ht, normpath_of_splitOn hsplit habs (slashes_join hd ht), lexical,
    List.foldl_append, foldl_normStep_names hd, List.append_nil]

theorem normpath_pathText {p : List Str} (h : ∀ c ∈ p, IsName c) :
    normpath (pathText p) = pathText p := by
  cases p with
  | nil => decide
  | cons c p =>
    obtain ⟨hc, hp⟩ := List.forall_mem_cons.1 h
    have hsplit := splitOn_below fun c hc => (h c hc).2.1
    have hslash : slashes (below (c :: p)) = ['/'] := by
      obtain ⟨a, c, rfl⟩ := List.exists_cons_of_ne_nil hc.1
      exact slashes_of_ne fun ha => hc.2.1 (ha ▸ List.mem_cons_self ..)
    rw [pathText_cons, normpath_of_splitOn hsplit rfl hslash, foldl_normStep_names h, List.append_nil,
      List.reverse_reverse, pathText_cons]

/-! ### Relative paths -/

/-- The components of an absolute path, however it is written. -/
theorem splitOn_normpath {s : Str} (h : isAbs s) :
    ((normpath s).splitOn '/').filter (· ≠ []) = normComps true (s.splitOn '/') := by
  have hne : s ≠ [] := by
    rintro rfl
    cases h
  have hnames : ∀ c ∈ normComps true (s.splitOn '/'), IsName c := fun c hc =>
    isName_of_mem_foldl (fun _ hc => not_mem_of_mem_splitOn hc) (by simp) c (List.mem_reverse.1 hc)
  have hrest : ((['/'].intercalate (normComps true (s.splitOn '/'))).splitOn '/').filter (· ≠ []) =
      normComps true (s.splitOn '/') := by
    cases hl : normComps true (s.splitOn '/') with
    | nil => rfl
    | cons c l =>
      rw [hl] at hnames
      rw [List.splitOn_intercalate '/' (fun c hc => (hnames c hc).2.1) (List.cons_ne_nil c l),
        List.filter_eq_self]
      exact fun c hc => decide_eq_true (hnames c hc).1
  have hslash : ∀ t : Str, (('/' :: t).splitOn '/').filter (· ≠ []) =
      (t.splitOn '/').filter (· ≠ []) := fun t => by
    have hcons : '/' :: t = [] ++ '/' :: t := rfl
    rw [hcons, List.splitOn_append_cons_self]
    rfl
  have hslashes : slashes s = ['/'] ∨ slashes s = ['/', '/'] := by
    rw [slashes, if_pos h]
    split
    · exact .inr rfl
    · exact .inl rfl
  have hpath : normpath s = slashes s ++ ['/'].intercalate (normComps true (s.splitOn '/')) := by
    rw [normpath, if_neg hne, h]
    refine if_neg fun hnil => ?_
    rw [(List.append_eq_nil_iff.1 hnil).1] at hslashes
    rcases hslashes with hs | hs <;> cases hs
  rw [hpath]
  rcases hslashes with hs | hs
  · rw [hs, List.singleton_append, hslash, hrest]
  · rw [hs, List.cons_append, hslash, List.singleton_append, hslash, hrest]

theorem isName_absComps {cwd s : Str} (h : isAbs (if isAbs s then s else join cwd s)) :
    ∀ c ∈ absComps cwd s, IsName c := by
  intro c hc
  rw [absComps, splitOn_normpath h] at hc
  exact isName_of_mem_foldl (fun _ hc => not_mem_of_mem_splitOn hc) (by simp) c (List.mem_reverse.1 hc)

theorem absComps_of_isAbs (cwd : Str) {s : Str} (h : isAbs s) : absComps cwd s = absComps [] s := by
  rw [absComps, if_pos h, absComps, if_pos h]

/-- A text below an absolute working directory is absolute. -/
theorem isAbs_abspath {cwd : Str} (hcwd : isAbs cwd) (s : Str) :
    isAbs (if isAbs s then s else join cwd s) := by
  split
  · assumption
  · rename_i h
    obtain ⟨c, t, rfl⟩ : ∃ c t, cwd = c :: t := by
      cases cwd with
      | nil => cases hcwd
      | cons c t => exact ⟨c, t, rfl⟩
    rw [join, if_neg h]
    split <;> exact hcwd

theorem commonLength_le_left (s t : List Str) : commonLength s t ≤ s.length := by
  induction s generalizing t with
  | nil => exact Nat.zero_le _
  | cons a s ih =>
    cases t with
    | nil => exact Nat.zero_le _
    | cons b t =>
      rw [commonLength]
      split
      · exact Nat.succ_le_succ (ih t)
      · exact Nat.zero_le _

theorem commonLength_le_right (s t : List Str) : commonLength s t ≤ t.length := by
  induction s generalizing t with
  | nil => exact Nat.zero_le _
  | cons a s ih =>
    cases t with
    | nil => exact Nat.zero_le _
    | cons b t =>
      rw [commonLength]
      split
      · exact Nat.succ_le_succ (ih t)
      · exact Nat.zero_le _

/-- Where one arrives along a relative path. -/
theorem lexical_relpath (cwd path start : Str) {d : List Str} (hd : ∀ c ∈ d, IsName c)
    (hpath : ∀ c ∈ absComps cwd path, IsName c) :
    isAbs (relpath cwd path start) = false ∧ lexical d (relpath cwd path start) =
      d.take (d.length - ((absComps cwd start).length -
        commonLength (absComps cwd start) (absComps cwd path))) ++
      (absComps cwd path).drop (commonLength (absComps cwd start) (absComps cwd path)) := by
  have hdrop : ∀ k, ∀ c ∈ (absComps cwd path).drop k, IsName c := fun k c hc =>
    hpath c (List.mem_of_mem_drop hc)
  generalize hk : commonLength (absComps cwd start) (absComps cwd path) = k
  generalize hm : (absComps cwd start).length - k = m
  have hrel : relComps (absComps cwd path) (absComps cwd start) =
      List.replicate m pardir ++ (absComps cwd path).drop k := by
    rw [← hm, ← hk]
    rfl
  have hcomps : ∀ c ∈ List.replicate m pardir ++ (absComps cwd path).drop k, c ≠ [] ∧ '/' ∉ c := by
    intro c hc
    rcases List.mem_append.1 hc with hc | hc
    · rw [(List.mem_replicate.1 hc).2]
      decide
    · exact ⟨(hdrop k c hc).1, (hdrop k c hc).2.1⟩
  have hfold : ((List.replicate m pardir ++ (absComps cwd path).drop k).foldl (normStep true)
      d.reverse).reverse = d.take (d.length - m) ++ (absComps cwd path).drop k := by
    rw [List.foldl_append, foldl_normStep_pardir fun c hc => hd c (List.mem_reverse.1 hc),
      foldl_normStep_names (hdrop k), List.reverse_append, List.reverse_reverse, List.drop_reverse,
      List.reverse_reverse]
  rw [relpath, hrel]
  cases hl : List.replicate m pardir ++ (absComps cwd path).drop k with
  | nil =>
    rw [hl] at hfold
    rw [if_pos rfl]
    exact ⟨by decide, hfold⟩
  | cons e l =>
    rw [hl] at hcomps hfold
    rw [if_neg (List.cons_ne_nil e l)]
    constructor
    · obtain ⟨hne, hslash⟩ := hcomps e (List.mem_cons_self ..)
      obtain ⟨a, t, rfl⟩ := List.exists_cons_of_ne_nil hne
      rw [intercalate_cons, isAbs]
      refine decide_eq_false fun ha => hslash ?_
      rw [← Option.some.inj ha]
      exact List.mem_cons_self ..
    · rw [lexical, List.splitOn_intercalate '/' (fun c hc => (hcomps c hc).2) (List.cons_ne_nil e l)]
      exact hfold

end Path
end Py
end OpenBmc
