import Mathlib.Data.List.Infix
import Mathlib.Data.List.DropRight

/-!
# File trees

A tree says of every path what is there; what is above a node of the tree is a directory. `prune`,
`mkdirs` and `copy` are the effects of `rm -rf`, `mkdir -p` and `cp -r`. None of them writes below
a node that is no directory, and a copy never puts a directory in the place of anything else, nor
anything else in the place of a directory.
-/

namespace OpenBmc

variable {κ δ : Type}

inductive Node (δ : Type)
  | dir
  | leaf (data : δ)
  deriving DecidableEq

def Node.isDir : Node δ → Bool
  | .dir => true
  | .leaf _ => false

theorem Node.isDir_iff {n : Node δ} : n.isDir ↔ n = .dir := by
  cases n <;> simp [Node.isDir]

structure FileTree (κ δ : Type) where
  node : List κ → Option (Node δ)
  root : node [] = some .dir
  closed : ∀ p n, node p = some n → ∀ q, q <+: p → q ≠ p → node q = some .dir

namespace FileTree

def isDir (t : FileTree κ δ) (p : List κ) : Bool := (t.node p).any Node.isDir

def isLeaf (t : FileTree κ δ) (p : List κ) : Bool := (t.node p).any fun n => !n.isDir

theorem isDir_iff {t : FileTree κ δ} {p : List κ} : t.isDir p ↔ t.node p = some .dir := by
  unfold isDir
  cases t.node p with
  | none => simp
  | some n => simpa using Node.isDir_iff

theorem isLeaf_iff {t : FileTree κ δ} {p : List κ} :
    t.isLeaf p ↔ ∃ d, t.node p = some (.leaf d) := by
  unfold isLeaf
  cases t.node p with
  | none => simp
  | some n => cases n <;> simp [Node.isDir]

theorem isLeaf_of_node {t : FileTree κ δ} {p : List κ} {d : δ} (h : t.node p = some (.leaf d)) :
    t.isLeaf p :=
  isLeaf_iff.2 ⟨d, h⟩

theorem not_isLeaf_of_dir {t : FileTree κ δ} {p : List κ} (h : t.node p = some .dir) :
    ¬ t.isLeaf p := by
  rw [isLeaf_iff]
  rintro ⟨d, hd⟩
  rw [h] at hd
  cases hd

theorem ne_nil_of_leaf {t : FileTree κ δ} {p : List κ} {d : δ} (h : t.node p = some (.leaf d)) :
    p ≠ [] := by
  rintro rfl
  rw [t.root] at h
  cases h

/-- On a path there is one node at most that is no directory. -/
theorem eq_of_isLeaf {t : FileTree κ δ} {p q w : List κ} (hp : t.isLeaf p) (hq : t.isLeaf q)
    (hpw : p <+: w) (hqw : q <+: w) : p = q := by
  obtain ⟨d, hd⟩ := isLeaf_iff.1 hp
  obtain ⟨e, he⟩ := isLeaf_iff.1 hq
  by_contra hne
  rcases List.prefix_or_prefix_of_prefix hpw hqw with h | h
  · exact not_isLeaf_of_dir (t.closed q _ he p h hne) hp
  · exact not_isLeaf_of_dir (t.closed p _ hd q h (Ne.symm hne)) hq

/-- Everything in the tree `t` is in the tree `src`. -/
def Sub (t src : FileTree κ δ) : Prop := ∀ p n, t.node p = some n → src.node p = some n

theorem Sub.isLeaf {t src : FileTree κ δ} (h : t.Sub src) {p : List κ} (hp : t.isLeaf p) : src.isLeaf p := by
  obtain ⟨d, hd⟩ := isLeaf_iff.1 hp
  exact isLeaf_of_node (h p _ hd)

theorem prefix_dropLast {p q : List κ} (h : q <+: p) (hne : q ≠ p) : q <+: p.dropLast := by
  obtain ⟨s, rfl⟩ := h
  have hs : s ≠ [] := fun he => hne (by simp [he])
  rw [List.dropLast_append_of_ne_nil hs]
  exact List.prefix_append q _

/-! ### Removing -/

section prune
variable (t : FileTree κ δ) (found : List κ → Bool)

/-- The tree without the found paths and without what is below them; the root stays. -/
def prune : FileTree κ δ where
  node p := if ∃ q ∈ p.inits, q ≠ [] ∧ found q then none else t.node p
  root := by
    rw [if_neg, t.root]
    rintro ⟨q, hq, hne, -⟩
    exact hne (by simpa using hq)
  closed p n h q hq hne := by
    by_cases hp : ∃ q ∈ p.inits, q ≠ [] ∧ found q
    · rw [if_pos hp] at h
      cases h
    · rw [if_neg hp] at h
      rw [if_neg]
      · exact t.closed p n h q hq hne
      · rintro ⟨r, hr, hf⟩
        have hrp := ((List.mem_inits _ _).1 hr).trans hq
        exact hp ⟨r, (List.mem_inits _ _).2 hrp, hf⟩

variable {t found}

theorem node_prune {keep : List κ → Prop} [DecidablePred keep] {p : List κ}
    (hfound : ∀ q, q ≠ [] → (found q ↔ ¬ keep q))
    (hkeep : ∀ q, q ≠ [] → q <+: p → keep p → keep q) :
    (t.prune found).node p = if p = [] ∨ keep p then t.node p else none := by
  unfold prune
  simp only
  by_cases hp : p = [] ∨ keep p
  · rw [if_pos hp, if_neg]
    rintro ⟨q, hq, hne, hf⟩
    have hqp := (List.mem_inits _ _).1 hq
    have hp : keep p := hp.resolve_left fun he => hne (List.prefix_nil.1 (he ▸ hqp))
    exact (hfound q hne).1 hf (hkeep q hne hqp hp)
  · rw [if_neg hp, if_pos]
    rw [not_or] at hp
    exact ⟨p, (List.mem_inits _ _).2 List.prefix_rfl, hp.1, (hfound p hp.1).2 hp.2⟩

end prune

/-! ### Making directories -/

section mkdirs
variable (t : FileTree κ δ) (d : List κ)

/-- Neither the path nor what is above it is anything but a directory. -/
def Clear (p : List κ) : Prop := ∀ q ∈ p.inits, ¬ t.isLeaf q

instance (p : List κ) : Decidable (t.Clear p) := inferInstanceAs (Decidable (∀ q ∈ p.inits, _))

variable {t} in
theorem Clear.of_initial {p q : List κ} (h : t.Clear p) (hq : q <+: p) : t.Clear q :=
  fun r hr => h r ((List.mem_inits _ _).2 (((List.mem_inits _ _).1 hr).trans hq))

variable [DecidableEq κ]

/-- The tree with the directory `d` and those above it, as far as nothing else is in the way. -/
def mkdirs : FileTree κ δ where
  node p := if p ∈ d.inits ∧ t.Clear p then some .dir else t.node p
  root := by split <;> simp [t.root]
  closed p n h q hq hne := by
    split
    · rfl
    · rename_i hcond
      by_cases hp : p ∈ d.inits ∧ t.Clear p
      · have hqd := hq.trans ((List.mem_inits _ _).1 hp.1)
        exact absurd ⟨(List.mem_inits _ _).2 hqd, hp.2.of_initial hq⟩ hcond
      · rw [if_neg hp] at h
        exact t.closed p n h q hq hne

end mkdirs

/-! ### Copying -/

variable [DecidableEq κ]

def empty : FileTree κ δ where
  node p := if p = [] then some .dir else none
  root := rfl
  closed p n h q hq hne := by
    by_cases hp : p = []
    · rw [hp] at hq hne
      exact absurd (List.prefix_nil.1 hq) hne
    · rw [if_neg hp] at h
      cases h

/-- The tree whose one leaf is at the path. -/
def single (p : List κ) (hp : p ≠ []) (d : δ) : FileTree κ δ where
  node q := if q = p then some (.leaf d) else if q ∈ p.inits then some .dir else none
  root := by rw [if_neg (Ne.symm hp), if_pos (by simp)]
  closed q n h r hr hne := by
    have hqp : q <+: p := by
      by_cases hq : q = p
      · exact hq ▸ List.prefix_rfl
      · rw [if_neg hq] at h
        by_contra hnot
        rw [if_neg fun hm => hnot ((List.mem_inits _ _).1 hm)] at h
        cases h
    have hrp : r ≠ p := fun he => hne (hr.eq_of_length_le (he ▸ hqp.length_le))
    rw [if_neg hrp, if_pos ((List.mem_inits _ _).2 (hr.trans hqp))]

section copy
variable (src : FileTree κ δ) (w : List κ) (t : FileTree κ δ) (d : List κ)

theorem isLeaf_single {p q : List κ} {hp : p ≠ []} {d : δ} : (single p hp d).isLeaf q ↔ q = p := by
  rw [isLeaf_iff]
  unfold single
  simp only
  constructor
  · rintro ⟨e, he⟩
    by_contra hne
    rw [if_neg hne] at he
    split at he <;> cases he
  · exact fun he => ⟨d, if_pos he⟩

/-- What is copied to the path when `w` is copied to `d`. -/
def copied (p : List κ) : Option (Node δ) :=
  if d ∈ p.inits then src.node (w ++ p.drop d.length) else none

/-- Nothing is in the way of the node. -/
structure Fits (p : List κ) (n : Node δ) : Prop where
  above : ∀ q ∈ p.inits, q ≠ p → ¬ t.isLeaf q
  over_leaf : t.isLeaf p → ¬ n.isDir
  over_dir : t.isDir p → n.isDir

instance (p : List κ) (n : Node δ) : Decidable (t.Fits p n) :=
  decidable_of_iff ((∀ q ∈ p.inits, q ≠ p → ¬ t.isLeaf q) ∧ (t.isLeaf p → ¬ n.isDir) ∧
      (t.isDir p → n.isDir))
    ⟨fun h => ⟨h.1, h.2.1, h.2.2⟩, fun h => ⟨h.above, h.over_leaf, h.over_dir⟩⟩

/-- The node that a copy of `w` to `d` writes at the path. -/
def written (p : List κ) : Option (Node δ) :=
  (src.copied w d p).filter fun n => t.isDir d.dropLast && decide (t.Fits p n)

variable {src w t d}

theorem written_eq_some {p : List κ} {n : Node δ} : src.written w t d p = some n ↔
    d <+: p ∧ src.node (w ++ p.drop d.length) = some n ∧ t.isDir d.dropLast ∧ t.Fits p n := by
  unfold written copied
  rw [Option.filter_eq_some_iff]
  by_cases hd : d <+: p
  · rw [if_pos ((List.mem_inits _ _).2 hd)]
    simp [hd]
  · rw [if_neg fun hm => hd ((List.mem_inits _ _).1 hm)]
    simp [hd]

/-- Above a node that is written is a directory, written as well or there before. -/
theorem written_above {p q : List κ} {n : Node δ} (h : src.written w t d p = some n)
    (hq : q <+: p) (hne : q ≠ p) :
    src.written w t d q = some .dir ∨ src.written w t d q = none ∧ t.node q = some .dir := by
  obtain ⟨hd, hn, hparent, hfits⟩ := written_eq_some.1 h
  by_cases hdq : d <+: q
  · left
    obtain ⟨r, rfl⟩ := hdq
    obtain ⟨s, rfl⟩ := hq
    rw [List.append_assoc, List.drop_left] at hn
    have hs : s ≠ [] := fun he => hne (by simp [he])
    refine written_eq_some.2 ⟨List.prefix_append d r, ?_, hparent, ?_, ?_, ?_⟩
    · rw [List.drop_left]
      exact src.closed _ _ hn _ ⟨s, by simp⟩ (by simpa using hs)
    · intro u hu hur
      have hud := (List.mem_inits _ _).1 hu
      refine hfits.above u ((List.mem_inits _ _).2 (hud.trans (List.prefix_append _ s))) ?_
      rintro rfl
      exact hur (hud.eq_of_length_le (by simp))
    · intro hleaf
      exact absurd hleaf (hfits.above _ ((List.mem_inits _ _).2 (List.prefix_append _ s)) hne)
    · exact fun _ => rfl
  · right
    have hqd : q <+: d := (List.prefix_or_prefix_of_prefix hd hq).resolve_left hdq
    have hqd' : q ≠ d := fun he => hdq (he ▸ List.prefix_rfl)
    constructor
    · by_contra hw
      obtain ⟨m, hm⟩ := Option.ne_none_iff_exists'.1 hw
      exact hdq (written_eq_some.1 hm).1
    · have hlast : q <+: d.dropLast := prefix_dropLast hqd hqd'
      by_cases he : q = d.dropLast
      · rw [he]
        exact isDir_iff.1 hparent
      · exact t.closed _ _ (isDir_iff.1 hparent) q hlast he

variable (src w t d)

/-- The tree after a copy of `w` to `d`, if the directory of `d` is there. -/
def copy : FileTree κ δ where
  node p := (src.written w t d p).or (t.node p)
  root := by
    cases h : src.written w t d [] with
    | none => simp [t.root]
    | some n =>
      obtain ⟨-, -, -, hfits⟩ := written_eq_some.1 h
      simp [Node.isDir_iff.1 (hfits.over_dir (isDir_iff.2 t.root))]
  closed p n h q hq hne := by
    cases hp : src.written w t d p with
    | some m =>
      rcases written_above hp hq hne with hdir | ⟨hnone, hdir⟩
      · simp [hdir]
      · simp [hnone, hdir]
    | none =>
      rw [hp, Option.none_or] at h
      have hdir := t.closed p n h q hq hne
      cases hw : src.written w t d q with
      | none => simp [hdir]
      | some m =>
        obtain ⟨-, -, -, hfits⟩ := written_eq_some.1 hw
        simp [Node.isDir_iff.1 (hfits.over_dir (isDir_iff.2 hdir))]

/-- A copy of a whole tree into an empty one is the tree. -/
theorem node_copy_empty (p : List κ) : (src.copy [] empty []).node p = src.node p := by
  have hleaf : ∀ q : List κ, ¬ (empty : FileTree κ δ).isLeaf q := by
    intro q hq
    obtain ⟨e, he⟩ := isLeaf_iff.1 hq
    unfold empty at he
    simp only at he
    split at he <;> cases he
  show (src.written [] empty [] p).or ((empty : FileTree κ δ).node p) = src.node p
  cases hn : src.node p with
  | none =>
    have hp : p ≠ [] := by
      rintro rfl
      rw [src.root] at hn
      cases hn
    have hw : src.written [] empty [] p = none := by
      by_contra hw
      obtain ⟨m, hm⟩ := Option.ne_none_iff_exists'.1 hw
      have hm := (written_eq_some.1 hm).2.1
      simp [hn] at hm
    rw [hw, Option.none_or]
    exact if_neg hp
  | some n =>
    have hw : src.written [] empty [] p = some n := by
      refine written_eq_some.2 ⟨List.nil_prefix, by simpa using hn, isDir_iff.2 rfl,
        fun q _ _ => hleaf q, fun h => absurd h (hleaf p), ?_⟩
      intro hdir
      have hp : p = [] := by
        by_contra hp
        have hdir := isDir_iff.1 hdir
        unfold empty at hdir
        simp only [if_neg hp] at hdir
        cases hdir
      rw [hp, src.root] at hn
      cases hn
      rfl
    rw [hw, Option.some_or]

end copy

/-! ### Parts of a tree -/

section place
variable {src t : FileTree κ δ} {w : List κ}

omit [DecidableEq κ] in
/-- Whatever is there already, a part of a tree is in the way of nothing in the tree. -/
theorem Sub.fits (h : t.Sub src) {p : List κ} {n : Node δ} (hn : src.node p = some n) :
    t.Fits p n := by
  refine ⟨fun q hq hne hleaf => ?_, fun hleaf hdir => ?_, fun hdir => ?_⟩
  · have hdir := src.closed p n hn q ((List.mem_inits _ _).1 hq) hne
    exact not_isLeaf_of_dir hdir (h.isLeaf hleaf)
  · rw [Node.isDir_iff.1 hdir] at hn
    exact not_isLeaf_of_dir hn (h.isLeaf hleaf)
  · have hsrc := h p _ (isDir_iff.1 hdir)
    rw [hn] at hsrc
    exact Node.isDir_iff.2 (Option.some.inj hsrc)

variable (hsub : t.Sub src) (hn : src.node w ≠ none)
include hsub hn

theorem Sub.node_mkdirs (p : List κ) :
    (t.mkdirs w.dropLast).node p = if p <+: w.dropLast then some .dir else t.node p := by
  obtain ⟨n, hn⟩ := Option.ne_none_iff_exists'.1 hn
  show (if p ∈ w.dropLast.inits ∧ t.Clear p then some .dir else t.node p) = _
  by_cases hp : p <+: w.dropLast
  · have hclear : t.Clear p := by
      intro q hq hleaf
      have hqw := ((List.mem_inits _ _).1 hq).trans hp
      have hne : q ≠ w := by
        rintro rfl
        have := hqw.length_le
        rw [List.length_dropLast] at this
        obtain rfl : q = [] := List.length_eq_zero_iff.1 (by omega)
        exact not_isLeaf_of_dir t.root hleaf
      have hdir := src.closed w n hn q (hqw.trans (List.dropLast_prefix w)) hne
      exact not_isLeaf_of_dir hdir (hsub.isLeaf hleaf)
    rw [if_pos hp, if_pos ⟨(List.mem_inits _ _).2 hp, hclear⟩]
  · rw [if_neg hp, if_neg fun h => hp ((List.mem_inits _ _).1 h.1)]

/-- A node of a tree placed in a part of the tree: its directories, itself and what is below it
are there then, and the rest is as it was. -/
theorem Sub.node_place (hw : w ≠ []) (p : List κ) :
    (src.copy w (t.mkdirs w.dropLast) w).node p =
      if w <+: p ∨ p <+: w then src.node p else t.node p := by
  have hdirs := hsub.node_mkdirs hn
  have hlast : ¬ w <+: w.dropLast := by
    intro h
    have := h.length_le
    have := List.length_pos_iff.2 hw
    rw [List.length_dropLast] at *
    omega
  have habove : ∀ q, q <+: w.dropLast → src.node q = some .dir := by
    intro q hq
    obtain ⟨n, hn⟩ := Option.ne_none_iff_exists'.1 hn
    exact src.closed w n hn q (hq.trans (List.dropLast_prefix w)) fun he => hlast (he ▸ hq)
  have hsub' : (t.mkdirs w.dropLast).Sub src := by
    intro q n hq
    rw [hdirs] at hq
    split at hq
    · rw [habove q ‹_›, hq]
    · exact hsub q n hq
  show (src.written w (t.mkdirs w.dropLast) w p).or ((t.mkdirs w.dropLast).node p) = _
  by_cases hp : w <+: p
  · rw [if_pos (.inl hp)]
    have hdrop : w ++ p.drop w.length = p := by
      obtain ⟨s, rfl⟩ := hp
      rw [List.drop_left]
    cases hsrc : src.node p with
    | some n =>
      have hparent : (t.mkdirs w.dropLast).isDir w.dropLast := by
        rw [isDir_iff, hdirs, if_pos List.prefix_rfl]
      rw [written_eq_some.2 ⟨hp, hdrop.symm ▸ hsrc, hparent, hsub'.fits hsrc⟩, Option.some_or]
    | none =>
      have hwritten : src.written w (t.mkdirs w.dropLast) w p = none := by
        by_contra hwr
        obtain ⟨m, hm⟩ := Option.ne_none_iff_exists'.1 hwr
        have hm := (written_eq_some.1 hm).2.1
        rw [hdrop, hsrc] at hm
        cases hm
      rw [hwritten, Option.none_or]
      by_contra ht
      obtain ⟨m, hm⟩ := Option.ne_none_iff_exists'.1 ht
      rw [hsub' p m hm] at hsrc
      cases hsrc
  · have hwritten : src.written w (t.mkdirs w.dropLast) w p = none := by
      by_contra hwr
      obtain ⟨m, hm⟩ := Option.ne_none_iff_exists'.1 hwr
      exact hp (written_eq_some.1 hm).1
    rw [hwritten, Option.none_or, hdirs]
    by_cases hpw : p <+: w
    · have hpl : p <+: w.dropLast := prefix_dropLast hpw fun he => hp (he ▸ List.prefix_rfl)
      rw [if_pos hpl, if_pos (.inr hpw), habove p hpl]
    · rw [if_neg fun h => hpw (h.trans (List.dropLast_prefix w)), if_neg (not_or.2 ⟨hp, hpw⟩)]

end place

end FileTree
end OpenBmc
