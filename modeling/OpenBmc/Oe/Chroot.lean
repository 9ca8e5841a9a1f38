import OpenBmc.Oe.RealPath

/-!
# The path that a process in the root sees

`Leads` says where the system takes a process whose root is the tree's: it walks along components,
goes on from where a link's target leads, and `..` of the root is the root. Where no target goes up
behind a name, and none stands still, `realpath` returns a path exactly where the walk ends, once it
may follow enough links (`realpath_is_chroot`).
-/

namespace OpenBmc
namespace Oe
open Py Py.Path

/-- What is at a place that is no directory. -/
inductive Entry
  | file
  | link (target : Str)

abbrev RootTree := FileTree Str Entry

def linkAt (t : RootTree) (p : List Str) : Option Str :=
  match t.node p with
  | some (.leaf (.link target)) => some target
  | _ => none

/-- What the system takes from a text, component by component. -/
def components (s : Str) : List Str := (s.splitOn '/').filter fun c => c ≠ [] ∧ c ≠ dot

/-- The walk from a place along components, to a place whose last component may be missing. -/
inductive Leads (t : RootTree) : List Str → List Str → List Str → Prop
  | here (p : List Str) : Leads t p [] p
  | up {p ds r : List Str} (hdir : t.isDir p) (h : Leads t p.dropLast ds r) : Leads t p (pardir :: ds) r
  | down {p ds r : List Str} {d : Str} (hdir : t.isDir p) (hd : d ≠ pardir)
      (hl : linkAt t (p ++ [d]) = none) (h : Leads t (p ++ [d]) ds r) : Leads t p (d :: ds) r
  | follow {p ds q r : List Str} {d target : Str} (hdir : t.isDir p) (hd : d ≠ pardir)
      (hl : linkAt t (p ++ [d]) = some target)
      (hq : Leads t (if isAbs target then [] else p) (components target) q) (h : Leads t q ds r) :
      Leads t p (d :: ds) r

/-- The places from the root to this one have no link. -/
def NoLinks (t : RootTree) (p : List Str) : Prop := ∀ q, q <+: p → linkAt t q = none

/-- What the system that holds the tree below `base` answers. -/
structure Hosts (fs : FileSystem) (base : Str) (t : RootTree) : Prop where
  link : ∀ p, p ≠ [] → (∀ c ∈ p, IsName c) → NoLinks t p.dropLast → fs.link (base ++ below p) = linkAt t p
  isDir : ∀ p text, (∀ c ∈ p, IsName c) → NoLinks t p → At base p text → fs.isDir text = t.isDir p

/-- A target that goes up in front only, and anywhere at all. -/
def Tidy (target : Str) : Prop :=
  ∃ k names, components target = List.replicate k pardir ++ names ∧ (∀ c ∈ names, IsName c) ∧
    if isAbs target then k = 0 else 0 < k + names.length

theorem linkAt_root (t : RootTree) : linkAt t [] = none := by
  rw [linkAt, t.root]

theorem isDir_dropLast {t : RootTree} {p : List Str} (h : t.isDir p) : t.isDir p.dropLast := by
  rw [FileTree.isDir_iff] at h ⊢
  by_cases hne : p.dropLast = p
  · rwa [hne]
  · exact t.closed p _ h _ (List.dropLast_prefix p) hne

theorem NoLinks.dropLast {t : RootTree} {p : List Str} (h : NoLinks t p) : NoLinks t p.dropLast :=
  fun q hq => h q (hq.trans (List.dropLast_prefix p))

theorem NoLinks.push {t : RootTree} {p : List Str} {d : Str} (h : NoLinks t p)
    (hl : linkAt t (p ++ [d]) = none) : NoLinks t (p ++ [d]) := fun q hq => by
  by_cases he : q = p ++ [d]
  · rwa [he]
  · have hp := FileTree.prefix_dropLast hq he
    rw [List.dropLast_concat] at hp
    exact h q hp

theorem noLinks_root (t : RootTree) : NoLinks t [] := fun q hq => by
  rw [List.prefix_nil.1 hq]
  exact linkAt_root t

/-! ### Normalised targets -/

theorem not_mem_components {s c : Str} (hc : c ∈ components s) : '/' ∉ c :=
  not_mem_of_mem_splitOn (List.mem_filter.1 hc).1

theorem foldl_normStep_components (abs : Bool) (comps acc : List Str) :
    (comps.filter fun c => c ≠ [] ∧ c ≠ dot).foldl (normStep abs) acc =
      comps.foldl (normStep abs) acc := by
  induction comps generalizing acc with
  | nil => rfl
  | cons c comps ih =>
    rw [List.filter_cons, List.foldl_cons]
    by_cases hc : c ≠ [] ∧ c ≠ dot
    · rw [if_pos (decide_eq_true hc), List.foldl_cons, ih]
    · have hskip : normStep abs acc c = acc :=
        if_pos (by rwa [not_and_or, not_not, not_not] at hc)
      rw [if_neg fun h => hc (of_decide_eq_true h), hskip, ih]

/-- In a relative text what goes up in front stays. -/
theorem foldl_normStep_front (k : ℕ) :
    ∀ acc, (∀ c ∈ acc, c = pardir) → (List.replicate k pardir).foldl (normStep false) acc =
      List.replicate k pardir ++ acc := by
  induction k with
  | zero => exact fun _ _ => rfl
  | succ k ih =>
    intro acc hacc
    have hstep : normStep false acc pardir = pardir :: acc := by
      rw [normStep, if_neg (by decide), if_pos]
      cases acc with
      | nil => exact .inr (.inl ⟨rfl, rfl⟩)
      | cons c acc => exact .inr (.inr (congrArg some (hacc c List.mem_cons_self)))
    rw [List.replicate_succ, List.foldl_cons, hstep, ih]
    · rw [← List.singleton_append, ← List.append_assoc, ← List.replicate_succ', List.replicate_succ]
    · exact List.forall_mem_cons.2 ⟨rfl, hacc⟩

theorem normComps_tidy {target : Str} (h : Tidy target) :
    normComps (isAbs target) (target.splitOn '/') = components target := by
  obtain ⟨k, names, hcomps, hnames, hk⟩ := h
  rw [normComps, ← foldl_normStep_components, ← components, hcomps, List.foldl_append]
  cases habs : isAbs target with
  | true =>
    rw [habs, if_pos rfl] at hk
    subst hk
    rw [foldl_normStep_names hnames]
    simp
  | false =>
    rw [foldl_normStep_front k [] (by simp), foldl_normStep_names hnames]
    simp

/-- The components of a normalised target, those of an absolute one behind blank ones. -/
theorem splitOn_normpath_tidy {target : Str} (h : Tidy target) :
    ∃ m, (isAbs target = false → m = 0) ∧
      (normpath target).splitOn '/' = List.replicate m [] ++ components target := by
  have hcomps := normComps_tidy h
  obtain ⟨k, names, hform, hnames, hk⟩ := h
  have hne : target ≠ [] := by
    rintro rfl
    have hnil : List.replicate k pardir ++ names = [] := hform.symm
    have hlen := congrArg List.length hnil
    rw [List.length_append, List.length_replicate] at hlen
    have hpos : 0 < k + names.length := hk
    exact absurd hlen hpos.ne'
  rw [normpath, if_neg hne, hcomps]
  have hslash : ∀ c ∈ components target, '/' ∉ c := fun c hc => not_mem_components hc
  cases habs : isAbs target with
  | false =>
    rw [habs, if_neg Bool.false_ne_true] at hk
    have hnil : components target ≠ [] := by
      intro he
      have hlen := congrArg List.length (hform.symm.trans he)
      rw [List.length_append, List.length_replicate] at hlen
      exact absurd hlen hk.ne'
    have hs : slashes target = [] := by rw [slashes, habs]; rfl
    have hint := List.splitOn_intercalate '/' hslash hnil
    have htext : ['/'].intercalate (components target) ≠ [] := by
      intro he
      rw [he] at hint
      have hmem : ([] : Str) ∈ components target := hint ▸ List.mem_singleton_self _
      exact (of_decide_eq_true (List.mem_filter.1 hmem).2).1 rfl
    rw [hs]
    simp only [List.nil_append, if_neg htext]
    exact ⟨0, fun _ => rfl, hint⟩
  | true =>
    -- the blank components are those in front of the slashes, and that of no name at all
    have hblank : ∃ m, (['/'].intercalate (components target)).splitOn '/' =
        List.replicate m [] ++ components target := by
      cases hc : components target with
      | nil => exact ⟨1, rfl⟩
      | cons c cs =>
        rw [hc] at hslash
        exact ⟨0, List.splitOn_intercalate '/' hslash (List.cons_ne_nil c cs)⟩
    obtain ⟨m, hm⟩ := hblank
    have hcons : ∀ s : Str, ('/' :: s).splitOn '/' = [] :: s.splitOn '/' := fun s => by
      have hcut : '/' :: s = [] ++ '/' :: s := rfl
      rw [hcut, List.splitOn_append_cons_self]
      rfl
    rcases slashes_cases target with hs | hs | hs
    · rw [slashes, habs] at hs
      simp only [if_true] at hs
      split at hs <;> cases hs
    · refine ⟨m + 1, fun hf => (by cases hf), ?_⟩
      rw [hs]
      simp only [List.singleton_append, if_neg (List.cons_ne_nil _ _)]
      rw [hcons, hm, List.replicate_succ, List.cons_append]
    · refine ⟨m + 2, fun hf => (by cases hf), ?_⟩
      rw [hs]
      simp only [List.cons_append, List.nil_append, if_neg (List.cons_ne_nil _ _)]
      rw [hcons, hcons, hm, List.replicate_succ, List.replicate_succ, List.cons_append, List.cons_append]

theorem isAbs_normpath (s : Str) : isAbs (normpath s) = isAbs s := by
  obtain ⟨comps, hc, hform, hne⟩ := normpath_form s
  rw [hform]
  cases habs : isAbs s with
  | true =>
    rw [slashes, habs, if_pos rfl]
    split <;> rfl
  | false =>
    have hs : slashes s = [] := by rw [slashes, habs]; rfl
    obtain ⟨c, comps, rfl⟩ := List.exists_cons_of_ne_nil (hne hs)
    obtain ⟨hnil, hslash⟩ := hc c List.mem_cons_self
    obtain ⟨a, c, rfl⟩ := List.exists_cons_of_ne_nil hnil
    rw [hs, intercalate_cons]
    exact decide_eq_false fun he => hslash (Option.some.inj he ▸ List.mem_cons_self)

theorem Tidy.isComp {target : Str} (h : Tidy target) :
    ∀ c ∈ components target, c = pardir ∨ IsName c := by
  obtain ⟨k, names, hform, hnames, -⟩ := h
  intro c hc
  rw [hform] at hc
  rcases List.mem_append.1 hc with hc | hc
  · exact .inl (List.eq_of_mem_replicate hc)
  · exact .inr (hnames c hc)

/-! ### Places -/

/-- The text stands at a place, and there is no link on the way. -/
structure Place (t : RootTree) (base : Str) (p : List Str) (text : Str) : Prop where
  stands : At base p text
  names : ∀ c ∈ p, IsName c
  noLinks : NoLinks t p
  eq : p ≠ [] → text = base ++ below p

theorem dirname_firm (base : Str) {p : List Str} {d : Str} (hp : ∀ c ∈ p, IsName c) (hd : IsName d)
    (hne : p ≠ []) : dirname (base ++ below (p ++ [d])) = base ++ below p := by
  have hcut : base ++ below (p ++ [d]) = base ++ below p ++ '/' :: d := by simp [below]
  have hfirm := getLast?_append_below base (fun c hc => ⟨(hp c hc).1, (hp c hc).2.1⟩) (.inl hne)
  obtain ⟨init, a, hlast⟩ := List.eq_nil_or_concat' (base ++ below p) |>.resolve_left hfirm.1
  have ha : a ≠ '/' := fun he => hfirm.2 (by rw [hlast, he, List.getLast?_concat])
  rw [hcut, Path.dirname, rdropWhile_component _ hd.2.1, hlast]
  rw [if_neg, List.rdropWhile_concat_pos _ _ _ (by decide),
    List.rdropWhile_concat_neg _ _ _ (by simpa using ha)]
  intro hall
  exact ha (of_decide_eq_true (List.all_eq_true.1 hall a (by simp)))

section Place
variable {t : RootTree} {base : Str} {p : List Str} {text d : Str}

theorem place_root (t : RootTree) (base : Str) : Place t base [] (base ++ ['/']) :=
  ⟨at_root base, by simp, noLinks_root t, fun hne => absurd rfl hne⟩

theorem Place.join (h : Place t base p text) (hd : IsName d) :
    At base (p ++ [d]) (Path.join text d) ∧ Path.join text d = base ++ below (p ++ [d]) := by
  have hj := h.stands.join hd.2.1
  rwa [if_neg hd.1] at hj

theorem Place.names_concat (h : Place t base p text) (hd : IsName d) : ∀ c ∈ p ++ [d], IsName c := by
  intro c hc
  rcases List.mem_append.1 hc with hc | hc
  · exact h.names c hc
  · rwa [List.mem_singleton.1 hc]

theorem Place.length_join (h : Place t base p text) (hd : IsName d) :
    (base ++ ['/']).length ≤ (Path.join text d).length :=
  (h.join hd).1.length_le (by simp)

theorem Place.push (h : Place t base p text) (hd : IsName d) (hl : linkAt t (p ++ [d]) = none) :
    Place t base (p ++ [d]) (Path.join text d) :=
  ⟨(h.join hd).1, h.names_concat hd, h.noLinks.push hl, fun _ => (h.join hd).2⟩

/-- The directory of a name at a place, whether there is a link or not. -/
theorem Place.dirname (h : Place t base p text) (hb : IsBase base) (hd : IsName d) :
    Place t base p (Path.dirname (Path.join text d)) := by
  have hj := h.join hd
  have hdir := hj.1.dirname hb (h.length_join hd)
  rw [hj.2, if_neg (getLast?_append_below base hj.1.isComp (.inl (by simp))).2, List.dropLast_concat] at hdir
  rw [hj.2]
  exact ⟨hdir, h.names, h.noLinks, dirname_firm base h.names hd⟩

theorem Place.up (h : Place t base p text) (hb : IsBase base)
    (hl : (base ++ ['/']).length ≤ text.length) : Place t base p.dropLast (Path.dirname text) := by
  rcases List.eq_nil_or_concat' p with rfl | ⟨p, d, rfl⟩
  · have hdir := h.stands.dirname hb hl
    refine ⟨?_, by simp, noLinks_root t, fun hne => absurd rfl hne⟩
    split at hdir <;> exact hdir
  · have hdir := h.stands.dirname hb hl
    have heq := h.eq (by simp)
    have hfirm := getLast?_append_below base h.stands.isComp (.inl (by simp))
    rw [← heq] at hfirm
    rw [if_neg hfirm.2] at hdir
    refine ⟨hdir, fun c hc => h.names c (List.dropLast_subset _ hc), h.noLinks.dropLast, fun hne => ?_⟩
    rw [List.dropLast_concat] at hne ⊢
    rw [heq]
    exact dirname_firm base (fun c hc => h.names c (List.mem_append_left _ hc)) (h.names d (by simp)) hne

end Place

theorem realpathOf_stop {fs : FileSystem} {root : Str} {assumeDir : Bool} {text : Str}
    (h : fs.link text = none ∨ text.length < root.length) (n : ℕ) :
    realpathOf fs root assumeDir n text = .ok (text, fs.isDir text) := by
  cases n with
  | zero =>
    rw [realpathOf, if_neg]
    rintro ⟨hl, hlen⟩
    rcases h with h | h
    · exact hl h
    · exact absurd hlen (not_le.2 h)
  | succ n =>
    rw [realpathOf]
    rcases h with h | h
    · rw [h]
    · cases fs.link text with
      | none => rfl
      | some target => exact if_neg (not_le.2 h)

section Hosts
variable {fs : FileSystem} {t : RootTree} {base : Str} {p : List Str} {text d : Str}

theorem realpathOf_place (hosts : Hosts fs base t) (h : Place t base p text) (n : ℕ) :
    realpathOf fs (base ++ ['/']) false n text = .ok (text, t.isDir p) := by
  rw [← hosts.isDir p text h.names h.noLinks h.stands]
  refine realpathOf_stop ?_ n
  by_cases hp : p = []
  · subst hp
    rcases h.stands.eq with heq | ⟨heq, -⟩
    · rw [heq]
      exact .inl (fs.follows _)
    · rw [heq]
      exact .inr (by simp [below])
  · rw [h.eq hp, hosts.link p hp h.names h.noLinks.dropLast]
    exact .inl (h.noLinks p List.prefix_rfl)

theorem link_join (hosts : Hosts fs base t) (h : Place t base p text) (hd : IsName d) :
    fs.link (Path.join text d) = linkAt t (p ++ [d]) := by
  rw [(h.join hd).2]
  refine hosts.link _ (by simp) (h.names_concat hd) ?_
  rw [List.dropLast_concat]
  exact h.noLinks

theorem realpathRel_name {step : Str → Except Failure (Str × Bool)} {root start d : Str}
    {next : Str × Bool} (hd : d ≠ pardir) (hs : step (Path.join start d) = .ok next)
    (hbelow : isPathBelow next.1 root) (ds : List Str) :
    realpathRel step root false true start (d :: ds) = realpathRel step root false next.2 next.1 ds := by
  rw [realpathRel, if_neg fun hno => hno.1 rfl, if_neg hd, hs]
  simp only [bind, Except.bind, hbelow]
  rfl

theorem realpathRel_up (hb : IsBase base) {start : Str} (h : Place t base p start) :
    ∃ start', Place t base p.dropLast start' ∧ ∀ step ds,
      realpathRel step (base ++ ['/']) false true start (pardir :: ds) =
        realpathRel step (base ++ ['/']) false true start' ds := by
  have hup : Place t base p.dropLast
      (if (base ++ ['/']).length ≤ start.length then Path.dirname start else start) := by
    split
    · exact h.up hb ‹_›
    · rename_i hshort
      have hnil : p = [] := by
        by_contra hne
        exact hshort (h.stands.length_le hne)
      subst hnil
      exact h
  refine ⟨_, hup, fun step ds => ?_⟩
  rw [realpathRel, if_neg fun hno => hno.1 rfl, if_pos rfl]
  simp only [bind, Except.bind, pure, Except.pure, hup.stands.isPathBelow]
  rfl

/-- Blank components behind the root. -/
theorem realpathRel_blanks (hosts : Hosts fs base t) (m : ℕ) :
    ∀ start, Place t base [] start → ∃ start', Place t base [] start' ∧
      ∀ n ds, realpathRel (realpathOf fs (base ++ ['/']) false n) (base ++ ['/']) false true start
          (List.replicate m [] ++ ds) =
        realpathRel (realpathOf fs (base ++ ['/']) false n) (base ++ ['/']) false true start' ds := by
  induction m with
  | zero => exact fun start h => ⟨start, h, fun _ _ => rfl⟩
  | succ m ih =>
    intro start h
    have hj := h.stands.join (d := []) (by simp)
    rw [if_pos rfl] at hj
    have hplace : Place t base [] (Path.join start []) :=
      ⟨hj.1, by simp, noLinks_root t, fun hne => absurd rfl hne⟩
    obtain ⟨start', hstart', heq⟩ := ih _ hplace
    refine ⟨start', hstart', fun n ds => ?_⟩
    have hdir : t.isDir [] = true := FileTree.isDir_iff.2 t.root
    have hstop := realpathOf_place hosts hplace n
    rw [List.replicate_succ, List.cons_append,
      realpathRel_name (by decide) hstop hplace.stands.isPathBelow, hdir, heq n ds]

/-- The walk along a link's target, from the place that the source starts it at. -/
theorem target_walk (hosts : Hosts fs base t) (hb : IsBase base) (h : Place t base p text) (hd : IsName d)
    {target : Str} (htidy : Tidy target) :
    ∃ tdir start, targetDir (base ++ ['/']) (Path.join text d) (normpath target) = .ok tdir ∧
      Place t base (if isAbs target then [] else p) start ∧
      ∀ n, realpathRel (realpathOf fs (base ++ ['/']) false n) (base ++ ['/']) false true tdir
          ((normpath target).splitOn '/') =
        realpathRel (realpathOf fs (base ++ ['/']) false n) (base ++ ['/']) false true start
          (components target) := by
  obtain ⟨m, hm, hsplit⟩ := splitOn_normpath_tidy htidy
  rw [targetDir, isAbs_normpath, hsplit]
  cases habs : isAbs target with
  | true =>
    obtain ⟨start, hstart, heq⟩ := realpathRel_blanks hosts m _ (place_root t base)
    exact ⟨base ++ ['/'], start, rfl, hstart, fun n => heq n _⟩
  | false =>
    have hdir := h.dirname hb hd
    rw [hm habs]
    exact ⟨_, _, if_pos hdir.stands.isPathBelow, hdir, fun _ => rfl⟩

theorem isDir_start (target : Str) (hdir : t.isDir p) :
    t.isDir (if isAbs target then [] else p) = true := by
  split
  · exact FileTree.isDir_iff.2 t.root
  · exact hdir

/-- A link below the root, followed once. -/
theorem realpathOf_link (hosts : Hosts fs base t) (h : Place t base p text) (hd : IsName d)
    {target tdir file : Str} (hl : linkAt t (p ++ [d]) = some target)
    (htdir : targetDir (base ++ ['/']) (Path.join text d) (normpath target) = .ok tdir) {n : ℕ}
    (hwalk : realpathRel (realpathOf fs (base ++ ['/']) false n) (base ++ ['/']) false true tdir
      ((normpath target).splitOn '/') = .ok file) {q : List Str} (hq : Place t base q file) :
    realpathOf fs (base ++ ['/']) false (n + 1) (Path.join text d) = .ok (file, t.isDir q) := by
  have hlink := (link_join hosts h hd).trans hl
  rw [realpathOf, hlink]
  simp only [if_pos (h.length_join hd), htdir, hwalk, bind, Except.bind]
  exact realpathOf_place hosts hq n

/-- Where one name leads, from a place. -/
def Next (t : RootTree) (p : List Str) (d : Str) (q : List Str) : Prop :=
  linkAt t (p ++ [d]) = none ∧ q = p ++ [d] ∨
    ∃ target, linkAt t (p ++ [d]) = some target ∧
      Leads t (if isAbs target then [] else p) (components target) q

theorem Next.leads {q ds r : List Str} (h : Next t p d q) (hdir : t.isDir p) (hd : d ≠ pardir)
    (hr : Leads t q ds r) : Leads t p (d :: ds) r := by
  rcases h with ⟨hl, rfl⟩ | ⟨target, hl, hq⟩
  · exact .down hdir hd hl hr
  · exact .follow hdir hd hl hq hr

/-! ### What is returned, the walk leads to -/

theorem realpathRel_leads (hb : IsBase base) {step : Str → Except Failure (Str × Bool)}
    (hstep : ∀ p d text next, Place t base p text → t.isDir p → IsName d →
      step (Path.join text d) = .ok next →
      ∃ q, Place t base q next.1 ∧ next.2 = t.isDir q ∧ Next t p d q) :
    ∀ (ds : List Str) (p : List Str) (start result : Str), Place t base p start →
      (∀ d ∈ ds, d = pardir ∨ IsName d) →
      realpathRel step (base ++ ['/']) false (t.isDir p) start ds = .ok result →
      ∃ q, Place t base q result ∧ Leads t p ds q
  | [], p, start, result, h, _, hr => by
    cases hr
    exact ⟨p, h, .here p⟩
  | d :: ds, p, start, result, h, hds, hr => by
    have hrest := fun p start h hr => realpathRel_leads hb hstep ds p start result h
      (fun d hd => hds d (List.mem_cons_of_mem _ hd)) hr
    by_cases hdir : t.isDir p
    · rw [hdir] at hr
      by_cases hd : d = pardir
      · subst hd
        obtain ⟨start', hup, heq⟩ := realpathRel_up hb h
        rw [heq, ← isDir_dropLast hdir] at hr
        obtain ⟨q, hq, hleads⟩ := hrest _ _ hup hr
        exact ⟨q, hq, .up hdir hleads⟩
      · have hname := (hds d List.mem_cons_self).resolve_left hd
        cases hs : step (Path.join start d) with
        | error e =>
          rw [realpathRel, if_neg fun hno => hno.1 rfl, if_neg hd, hs] at hr
          cases hr
        | ok next =>
          obtain ⟨q, hq, hflag, hnext⟩ := hstep p d start next h hdir hname hs
          rw [realpathRel_name hd hs hq.stands.isPathBelow, hflag] at hr
          obtain ⟨r, hr, hleads⟩ := hrest _ _ hq hr
          exact ⟨r, hr, hnext.leads hdir hd hleads⟩
    · rw [realpathRel, if_pos ⟨hdir, Bool.false_ne_true⟩] at hr
      cases hr

theorem realpathOf_leads (hosts : Hosts fs base t) (hb : IsBase base)
    (htidy : ∀ p target, linkAt t p = some target → Tidy target) :
    ∀ (n : ℕ) (p : List Str) (d text : Str) (next : Str × Bool), Place t base p text → t.isDir p →
      IsName d → realpathOf fs (base ++ ['/']) false n (Path.join text d) = .ok next →
      ∃ q, Place t base q next.1 ∧ next.2 = t.isDir q ∧ Next t p d q
  | n, p, d, text, next, h, hdir, hd, hr => by
    cases hl : linkAt t (p ++ [d]) with
    | none =>
      have hpush := h.push hd hl
      rw [realpathOf_place hosts hpush] at hr
      cases hr
      exact ⟨_, hpush, rfl, .inl ⟨hl, rfl⟩⟩
    | some target =>
      have hlink := (link_join hosts h hd).trans hl
      have hlen := h.length_join hd
      cases n with
      | zero =>
        rw [realpathOf, if_pos ⟨by rw [hlink]; exact Option.some_ne_none _, hlen⟩] at hr
        cases hr
      | succ n =>
        have ht := htidy _ _ hl
        obtain ⟨tdir, start, htdir, hstart, heq⟩ := target_walk hosts hb h hd ht
        cases hw : realpathRel (realpathOf fs (base ++ ['/']) false n) (base ++ ['/']) false true tdir
            ((normpath target).splitOn '/') with
        | error e =>
          rw [realpathOf, hlink] at hr
          simp only [if_pos hlen, htdir, bind, Except.bind, hw] at hr
          cases hr
        | ok file =>
          have hwalk := hw
          rw [heq n, ← isDir_start target hdir] at hwalk
          obtain ⟨q, hq, hleads⟩ := realpathRel_leads hb (realpathOf_leads hosts hb htidy n)
            _ _ _ _ hstart ht.isComp hwalk
          rw [realpathOf_link hosts h hd hl htdir hw hq] at hr
          cases hr
          exact ⟨q, hq, rfl, .inr ⟨target, hl, hleads⟩⟩

/-! ### Where the walk leads, is returned -/

theorem leads_realpathRel (hosts : Hosts fs base t) (hb : IsBase base)
    (htidy : ∀ p target, linkAt t p = some target → Tidy target) {ds r : List Str}
    (hleads : Leads t p ds r) :
    (∀ d ∈ ds, d = pardir ∨ IsName d) → ∀ start, Place t base p start →
      ∃ n result, Place t base r result ∧ ∀ m, n ≤ m →
        realpathRel (realpathOf fs (base ++ ['/']) false m) (base ++ ['/']) false (t.isDir p) start ds =
          .ok result := by
  induction hleads with
  | here p => exact fun _ start h => ⟨0, start, h, fun _ _ => rfl⟩
  | @up p ds r hdir _ ih =>
    intro hds start h
    obtain ⟨start', hup, heq⟩ := realpathRel_up hb h
    obtain ⟨n, result, hresult, hn⟩ := ih (fun d hd => hds d (List.mem_cons_of_mem _ hd)) _ hup
    refine ⟨n, result, hresult, fun m hm => ?_⟩
    rw [hdir, heq, ← isDir_dropLast hdir]
    exact hn m hm
  | @down p ds r d hdir hd hl _ ih =>
    intro hds start h
    have hpush := h.push ((hds d List.mem_cons_self).resolve_left hd) hl
    obtain ⟨n, result, hresult, hn⟩ := ih (fun d hd => hds d (List.mem_cons_of_mem _ hd)) _ hpush
    refine ⟨n, result, hresult, fun m hm => ?_⟩
    rw [hdir, realpathRel_name hd (realpathOf_place hosts hpush m) hpush.stands.isPathBelow]
    exact hn m hm
  | @follow p ds q r d target hdir hd hl _ _ ihq ih =>
    intro hds start h
    have hname := (hds d List.mem_cons_self).resolve_left hd
    have ht := htidy _ _ hl
    obtain ⟨tdir, start', htdir, hstart', heq⟩ := target_walk hosts hb h hname ht
    obtain ⟨n₁, file, hfile, hn₁⟩ := ihq ht.isComp start' hstart'
    obtain ⟨n₂, result, hresult, hn₂⟩ := ih (fun d hd => hds d (List.mem_cons_of_mem _ hd)) file hfile
    refine ⟨max (n₁ + 1) n₂, result, hresult, fun m hm => ?_⟩
    obtain ⟨m, rfl⟩ := Nat.exists_eq_add_one_of_ne_zero (by omega : m ≠ 0)
    have hwalk := hn₁ m (by omega)
    rw [isDir_start target hdir, ← heq m] at hwalk
    have hstep := realpathOf_link hosts h hname hl htdir hwalk hfile
    rw [hdir, realpathRel_name hd hstep hfile.stands.isPathBelow]
    exact hn₂ (m + 1) (by omega)

end Hosts

/-! ### `realpath` -/

theorem explained_eq_ok {file result : Str} {r : Except Failure Str} :
    explained file r = .ok result ↔ r = .ok result := by
  unfold explained
  split
  · exact ⟨fun h => (by cases h), fun h => (by cases h)⟩
  · exact Iff.rfl

/-- With the directories resolved, a path below the root is walked from the root. -/
theorem realpath_eq {fs : FileSystem} {base file root : Str} {q : List Str} (hq : ∀ c ∈ q, IsName c)
    (hroot : rootText root = base ++ ['/']) (hfile : normpath file = base ++ below q) (n : ℕ) :
    realpath fs file root true n false = explained (base ++ below q)
      (realpathRel (realpathOf fs (base ++ ['/']) false n) (base ++ ['/']) false true (base ++ ['/'])
        (List.replicate 1 [] ++ q)) := by
  have hbelow : isPathBelow (base ++ below q) (base ++ ['/']) := by
    rw [isPathBelow, List.isPrefixOf_iff_prefix]
    cases q with
    | nil => exact ⟨[], by simp [below]⟩
    | cons c q => exact ⟨c ++ below q ++ ['/'], by simp [below]⟩
  have hdrop : (base ++ below q).drop ((base ++ ['/']).length - 1) = below q := by simp
  rw [realpath, hroot, hfile]
  simp only [hbelow, not_true_eq_false, if_false, if_true, hdrop]
  rw [splitOn_below fun c hc => (hq c hc).2.1]
  rfl

theorem realpath_is_chroot {fs : FileSystem} {t : RootTree} {base file root : Str} {q : List Str}
    (hosts : Hosts fs base t) (htidy : ∀ p target, linkAt t p = some target → Tidy target)
    (hroot : rootText root = base ++ ['/']) (hfile : normpath file = base ++ below q)
    (hq : ∀ c ∈ q, IsName c) :
    (∀ n result, realpath fs file root true n false = .ok result →
        ∃ r, Leads t [] q r ∧ At base r result) ∧
      ∀ r, Leads t [] q r → ∃ n result, At base r result ∧
        ∀ m, n ≤ m → realpath fs file root true m false = .ok result := by
  have hb : IsBase base := by
    obtain ⟨base', hb, heq⟩ := rootText_eq root
    rwa [List.append_cancel_right (hroot.symm.trans heq)]
  obtain ⟨start, hstart, heq⟩ := realpathRel_blanks hosts 1 _ (place_root t base)
  have hdir : t.isDir [] = true := FileTree.isDir_iff.2 t.root
  have hnames : ∀ d ∈ q, d = pardir ∨ IsName d := fun d hd => .inr (hq d hd)
  refine ⟨fun n result hr => ?_, fun r hr => ?_⟩
  · rw [realpath_eq hq hroot hfile, explained_eq_ok, heq, ← hdir] at hr
    obtain ⟨r, hplace, hleads⟩ := realpathRel_leads hb (realpathOf_leads hosts hb htidy n)
      _ _ _ _ hstart hnames hr
    exact ⟨r, hleads, hplace.stands⟩
  · obtain ⟨n, result, hplace, hn⟩ := leads_realpathRel hosts hb htidy hr hnames start hstart
    refine ⟨n, result, hplace.stands, fun m hm => ?_⟩
    rw [realpath_eq hq hroot hfile, explained_eq_ok, heq, ← hdir]
    exact hn m hm

/-- A root whose link `l` is absolute. -/
def rooted : RootTree where
  node p := if p = [] ∨ p = ["d".toList] then some .dir
    else if p = ["l".toList] then some (.leaf (.link "/d".toList)) else none
  root := rfl
  closed p n h q hq hne := by
    have hlen : p.length ≤ 1 := by
      split_ifs at h with h1 h2
      · rcases h1 with rfl | rfl <;> simp
      · rw [h2]; simp
    have hlt : q.length < p.length := lt_of_le_of_ne hq.length_le fun he => hne (hq.eq_of_length he)
    have hnil : q = [] := List.eq_nil_of_length_eq_zero (by omega)
    exact if_pos (.inl hnil)

def rootedSystem : FileSystem where
  link s := if s = "/r/l".toList then some "/d".toList else none
  isDir s := s.rdropWhile (· = '/') = "/r".toList ∨ s.rdropWhile (· = '/') = "/r/d".toList
  follows s := if_neg fun he => by
    have hlast := congrArg List.getLast? he
    rw [List.getLast?_concat] at hlast
    revert hlast
    decide

theorem hosts_rooted : Hosts rootedSystem "/r".toList rooted := by
  have heq : ∀ p q : List Str, (∀ c ∈ p, '/' ∉ c) → (∀ c ∈ q, '/' ∉ c) →
      ("/r".toList ++ below p = "/r".toList ++ below q ↔ p = q) := fun p q hp hq =>
    ⟨fun he => below_inj hp hq (List.append_cancel_left he), fun he => he ▸ rfl⟩
  constructor
  · intro p hne hp _
    have hl := heq p ["l".toList] (fun c hc => (hp c hc).2.1) (by decide)
    by_cases hpl : p = ["l".toList]
    · subst hpl
      rfl
    · have hlink : rootedSystem.link ("/r".toList ++ below p) = none := if_neg fun he => hpl (hl.1 he)
      rw [hlink, linkAt, rooted]
      simp only [hne, hpl, false_or, if_false]
      split_ifs <;> rfl
  · intro p text hp _ hat
    have hslash : ∀ c ∈ p, '/' ∉ c := fun c hc => (hp c hc).2.1
    have hroot := heq p [] hslash (by simp)
    have hd := heq p ["d".toList] hslash (by decide)
    -- without its slash the text is that of the place
    have hfirm := getLast?_append_below "/r".toList hat.isComp (.inr (by decide))
    obtain ⟨init, a, hlast⟩ := List.eq_nil_or_concat' ("/r".toList ++ below p) |>.resolve_left hfirm.1
    have ha : a ≠ '/' := fun he => hfirm.2 (by rw [hlast, he, List.getLast?_concat])
    have hself : ("/r".toList ++ below p).rdropWhile (fun c => decide (c = '/')) =
        "/r".toList ++ below p := by
      rw [hlast]
      exact List.rdropWhile_concat_neg _ _ _ (by simpa using ha)
    have htext : text.rdropWhile (fun c => decide (c = '/')) = "/r".toList ++ below p := by
      rcases hat.eq with rfl | ⟨rfl, -⟩
      · rw [List.rdropWhile_concat_pos _ _ _ (by decide)]
        exact hself
      · exact hself
    have hnode : rooted.node p = some .dir ↔ p = [] ∨ p = ["d".toList] := by
      simp only [rooted]
      split_ifs with h1 h2
      · exact ⟨fun _ => h1, fun _ => rfl⟩
      · exact ⟨fun he => (by cases he), fun he => absurd he h1⟩
      · exact ⟨fun he => (by cases he), fun he => absurd he h1⟩
    rw [Bool.eq_iff_iff, FileTree.isDir_iff, hnode, ← hroot, ← hd]
    simp only [rootedSystem, htext, decide_eq_true_eq]
    rfl

theorem realpath_is_chroot_sample : ∃ n result, At "/r".toList ["d".toList, "x".toList] result ∧
    ∀ m, n ≤ m → realpath rootedSystem "/r/l/x".toList "/r".toList true m false = .ok result := by
  have hlink : linkAt rooted ["l".toList] = some "/d".toList := rfl
  have htarget : Leads rooted [] (components "/d".toList) ["d".toList] :=
    .down rfl (by decide) rfl (.here _)
  have hleads : Leads rooted [] ["l".toList, "x".toList] ["d".toList, "x".toList] :=
    .follow rfl (by decide) hlink htarget (.down rfl (by decide) rfl (.here _))
  have htidy : ∀ p target, linkAt rooted p = some target → Tidy target := by
    intro p target hl
    rw [linkAt, rooted] at hl
    simp only at hl
    split_ifs at hl with h1 h2
    cases hl
    exact ⟨0, ["d".toList], rfl, by decide, rfl⟩
  exact (realpath_is_chroot hosts_rooted htidy (by decide) (by decide) (by decide)).2 _ hleads

end Oe
end OpenBmc
