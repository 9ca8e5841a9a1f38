import Mathlib

/-!
# Threading lists into one

Lists are merged one after the other. A new element goes right behind the element before it in its own
list, or to the front; an element that is there already stays. So the element before a new one is its
parent in a tree. `place` is the path to an element, written as the numbers of the lists that brought
its elements: the merged list is the walk of the tree that meets later children first, which is the
lexicographic order of the paths (`threadAll_pairwise`).
-/

namespace OpenBmc
namespace Thread

variable {ν : Type} [DecidableEq ν]

/-- A list with a gap. -/
structure Gap (ν : Type) where
  before : List ν
  after : List ν

namespace Gap

def list (z : Gap ν) : List ν := z.before ++ z.after

/-- The gap moves behind `x`, which is put into it first where it is new. -/
def visit (z : Gap ν) (x : ν) : Gap ν :=
  if x ∈ z.list then ⟨z.list.takeWhile (· ≠ x) ++ [x], (z.list.dropWhile (· ≠ x)).tail⟩
  else ⟨z.before ++ [x], z.after⟩

end Gap

def thread (l xs : List ν) : List ν := (xs.foldl Gap.visit ⟨[], l⟩).list

def threadAll (ls : List (List ν)) : List ν := ls.foldl thread []

/-! ### Places -/

/-- Later lists come first. -/
abbrev Path := List ℕᵒᵈ

structure Places (ν : Type) where
  place : ν → Option Path
  /-- The path to the element before. -/
  cur : Path

def Places.visit (k : ℕᵒᵈ) (p : Places ν) (x : ν) : Places ν :=
  match p.place x with
  | some c => { p with cur := c }
  | none => ⟨Function.update p.place x (some (p.cur ++ [k])), p.cur ++ [k]⟩

def placeList (place : ν → Option Path) (k : ℕᵒᵈ) (xs : List ν) : ν → Option Path :=
  (xs.foldl (Places.visit k) ⟨place, []⟩).place

/-- The places that the lists give, the first of which has the number `n`. -/
def placesFrom : ℕ → (ν → Option Path) → List (List ν) → ν → Option Path
  | _, place, [] => place
  | n, place, xs :: ls => placesFrom (n + 1) (placeList place (OrderDual.toDual n) xs) ls

def place (ls : List (List ν)) (x : ν) : Path := (placesFrom 0 (fun _ => none) ls x).getD []

/-- The elements of a list are placed in its order. -/
def Ascending (ls : List (List ν)) : Prop := ∀ xs ∈ ls, xs.Pairwise fun x y => place ls x < place ls y

/-! ### Paths -/

theorem append_lt {k : ℕᵒᵈ} {c q : Path} (hlt : c < q) (hfresh : ¬ c ++ [k] <+: q)
    (hbound : ∀ i ∈ q, k ≤ i) : c ++ [k] < q := by
  induction c generalizing q with
  | nil =>
    cases q with
    | nil => exact absurd hlt (List.not_lt_nil _)
    | cons j q =>
      have hne : k ≠ j := by
        rintro rfl
        exact hfresh ⟨q, rfl⟩
      have hle : k ≤ j := hbound j (List.mem_cons_self ..)
      exact List.cons_lt_cons_iff.2 (.inl (lt_of_le_of_ne hle hne))
  | cons i c ih =>
    cases q with
    | nil => exact absurd hlt (List.not_lt_nil _)
    | cons j q =>
      rw [List.cons_append, List.cons_lt_cons_iff]
      refine (List.cons_lt_cons_iff.1 hlt).imp_right ?_
      rintro ⟨rfl, hlt⟩
      refine ⟨rfl, ih (List.cons_lt_cons_self.1 hlt) ?_ fun x hx => hbound x (List.mem_cons_of_mem _ hx)⟩
      intro hpre
      exact hfresh (List.cons_prefix_cons.2 ⟨rfl, hpre⟩)

theorem lt_append (c : Path) (k : ℕᵒᵈ) : c < c ++ [k] := by
  induction c with
  | nil => exact List.nil_lt_cons ..
  | cons i c ih => exact List.cons_lt_cons_iff.2 (.inr ⟨rfl, ih⟩)

omit [DecidableEq ν] in
/-- A list whose elements ascend is a part of every list in which they all ascend. -/
theorem sublist_of_ascending {κ : Type} [LinearOrder κ] {key : ν → κ} {xs l : List ν}
    (hxs : xs.Pairwise fun x y => key x < key y) (hl : l.Pairwise fun x y => key x < key y)
    (hsub : xs ⊆ l) : xs.Sublist l := by
  have hanti : Std.Antisymm fun x y : ν => key x < key y :=
    ⟨fun a b hab hba => absurd (hab.trans hba) (lt_irrefl _)⟩
  have hnodup : xs.Nodup := hxs.imp fun {x y} hlt heq => hlt.ne (congrArg key heq)
  exact List.sublist_of_subperm_of_pairwise (List.subperm_of_subset hnodup hsub) hxs hl

/-! ### The merged list ascends -/

section Threading
variable {k : ℕᵒᵈ}

/-- `pl` places the elements of `l`, in its order, by lists before number `k`. -/
structure Placed (k : ℕᵒᵈ) (l : List ν) (pl : ν → Option Path) : Prop where
  ascending : l.Pairwise fun x y => (pl x).getD [] < (pl y).getD []
  mem : ∀ x, x ∈ l ↔ ∃ c, pl x = some c
  ne_nil : ∀ x c, pl x = some c → c ≠ []
  bound : ∀ x c, pl x = some c → ∀ i ∈ c, k ≤ i

omit [DecidableEq ν] in
theorem Placed.eq_of_place {l : List ν} {pl : ν → Option Path} (h : Placed k l pl) {x y : ν} {c : Path}
    (hx : pl x = some c) (hy : pl y = some c) : x = y := by
  have hnodup : (l.map fun x => (pl x).getD []).Nodup :=
    List.pairwise_map.2 (h.ascending.imp fun hlt => hlt.ne)
  refine List.inj_on_of_nodup_map hnodup ((h.mem x).2 ⟨c, hx⟩) ((h.mem y).2 ⟨c, hy⟩) ?_
  show (pl x).getD [] = (pl y).getD []
  rw [hx, hy]

/-- The state within list number `k`, of which the elements `done` have been visited. -/
structure Threading (k : ℕᵒᵈ) (done : List ν) (z : Gap ν) (p : Places ν) : Prop
    extends Placed k z.list p.place where
  before : ∀ a ∈ z.before, (p.place a).getD [] ≤ p.cur
  after : ∀ a ∈ z.after, p.cur < (p.place a).getD []
  fresh : ∀ x c, p.place x = some c → ¬ p.cur ++ [k] <+: c
  parent : ∀ x c q, p.place x = some c → q ++ [k] <+: c → q = [] ∨ ∃ y ∈ done, p.place y = some q
  cur : p.cur = [] ∨ ∃ y ∈ done, p.place y = some p.cur

theorem split_at {l : List ν} {x : ν} (hx : x ∈ l) :
    l = l.takeWhile (· ≠ x) ++ x :: (l.dropWhile (· ≠ x)).tail := by
  induction l with
  | nil => exact absurd hx List.not_mem_nil
  | cons a l ih =>
    by_cases ha : a = x
    · simp [ha]
    · have hmem : x ∈ l := (List.mem_cons.1 hx).resolve_left (Ne.symm ha)
      simpa [ha] using ih hmem

variable {done : List ν} {z : Gap ν} {p : Places ν} {x : ν}

theorem Threading.visit_old (h : Threading k done z p) (hdone : x ∉ done) {c : Path}
    (hx : p.place x = some c) : Threading k (x :: done) (z.visit x) (p.visit k x) := by
  have hmem : x ∈ z.list := (h.mem x).2 ⟨c, hx⟩
  have hsplit := split_at hmem
  have hp : p.visit k x = ⟨p.place, c⟩ := by rw [Places.visit, hx]
  have hz : z.visit x = ⟨z.list.takeWhile (· ≠ x) ++ [x], (z.list.dropWhile (· ≠ x)).tail⟩ :=
    if_pos hmem
  have hlist : (z.visit x).list = z.list := by
    rw [hz, Gap.list, List.append_assoc]
    exact hsplit.symm
  have hplaced : Placed k (z.visit x).list (p.visit k x).place := by
    rw [hlist, hp]
    exact h.toPlaced
  have hasc := h.ascending
  rw [hsplit, List.pairwise_append] at hasc
  obtain ⟨-, htail, hcross⟩ := hasc
  have hkey : (p.place x).getD [] = c := by rw [hx, Option.getD_some]
  rw [hz, hp] at *
  refine ⟨hplaced, ?_, ?_, ?_, ?_, .inr ⟨x, List.mem_cons_self .., hx⟩⟩
  · intro a ha
    rcases List.mem_append.1 ha with ha | ha
    · have hlt := hcross a ha x (List.mem_cons_self ..)
      rw [hkey] at hlt
      exact hlt.le
    · rw [List.mem_singleton.1 ha]
      exact hkey.le
  · intro a ha
    have hlt := (List.pairwise_cons.1 htail).1 a ha
    rwa [hkey] at hlt
  · intro y c' hy hpre
    rcases h.parent y c' c hy hpre with hnil | ⟨y', hy', hplace⟩
    · exact h.ne_nil x c hx hnil
    · exact hdone (h.eq_of_place hplace hx ▸ hy')
  · intro y c' q hy hpre
    exact (h.parent y c' q hy hpre).imp_right fun ⟨y', hy', hplace⟩ =>
      ⟨y', List.mem_cons_of_mem _ hy', hplace⟩

theorem Threading.visit_new (h : Threading k done z p) (hx : p.place x = none) :
    Threading k (x :: done) (z.visit x) (p.visit k x) := by
  have hmem : x ∉ z.list := by
    intro hmem
    obtain ⟨c, hc⟩ := (h.mem x).1 hmem
    rw [hx] at hc
    exact Option.some_ne_none c hc.symm
  have hp : p.visit k x = ⟨Function.update p.place x (some (p.cur ++ [k])), p.cur ++ [k]⟩ := by
    rw [Places.visit, hx]
  have hz : z.visit x = ⟨z.before ++ [x], z.after⟩ := if_neg hmem
  have hother : ∀ {y}, y ≠ x → Function.update p.place x (some (p.cur ++ [k])) y = p.place y :=
    fun hne => Function.update_of_ne hne _ _
  have hself : Function.update p.place x (some (p.cur ++ [k])) x = some (p.cur ++ [k]) :=
    Function.update_self ..
  have hplace : ∀ {y c}, Function.update p.place x (some (p.cur ++ [k])) y = some c →
      y = x ∧ c = p.cur ++ [k] ∨ y ≠ x ∧ p.place y = some c := by
    intro y c hy
    by_cases hne : y = x
    · rw [hne, hself] at hy
      exact .inl ⟨hne, (Option.some.inj hy).symm⟩
    · rw [hother hne] at hy
      exact .inr ⟨hne, hy⟩
  have hbefore : ∀ a ∈ z.before, a ≠ x := fun a ha heq => hmem (heq ▸ List.mem_append_left _ ha)
  have hafter : ∀ a ∈ z.after, a ≠ x := fun a ha heq => hmem (heq ▸ List.mem_append_right _ ha)
  have hnext : ∀ a ∈ z.after, p.cur ++ [k] < (p.place a).getD [] := by
    intro a ha
    obtain ⟨c, hc⟩ := (h.mem a).1 (List.mem_append_right _ ha)
    have hlt := h.after a ha
    rw [hc, Option.getD_some] at hlt ⊢
    exact append_lt hlt (h.fresh a c hc) (h.bound a c hc)
  have hdone : ∀ {q}, (∃ y ∈ done, p.place y = some q) →
      ∃ y ∈ x :: done, Function.update p.place x (some (p.cur ++ [k])) y = some q := by
    rintro q ⟨y, hy, hq⟩
    have hne : y ≠ x := by
      rintro rfl
      rw [hx] at hq
      exact Option.some_ne_none q hq.symm
    exact ⟨y, List.mem_cons_of_mem _ hy, by rw [hother hne, hq]⟩
  rw [hz, hp]
  refine { ascending := ?_, mem := ?_, ne_nil := ?_, bound := ?_, before := ?_, after := ?_,
           fresh := ?_, parent := ?_, cur := .inr ⟨x, List.mem_cons_self .., hself⟩ }
  · show ((z.before ++ [x]) ++ z.after).Pairwise _
    have hasc := List.pairwise_append.1 h.ascending
    dsimp only
    refine List.pairwise_append.2 ⟨List.pairwise_append.2 ⟨?_, List.pairwise_singleton _ _, ?_⟩, ?_, ?_⟩
    · refine hasc.1.imp_of_mem fun {a b} ha hb hab => ?_
      rwa [hother (hbefore a ha), hother (hbefore b hb)]
    · intro a ha b hb
      rw [List.mem_singleton.1 hb, hself, hother (hbefore a ha)]
      exact (h.before a ha).trans_lt (lt_append p.cur k)
    · refine hasc.2.1.imp_of_mem fun {a b} ha hb hab => ?_
      rwa [hother (hafter a ha), hother (hafter b hb)]
    · intro a ha b hb
      rw [hother (hafter b hb)]
      rcases List.mem_append.1 ha with ha | ha
      · rw [hother (hbefore a ha)]
        exact hasc.2.2 a ha b hb
      · rw [List.mem_singleton.1 ha, hself]
        exact hnext b hb
  · intro y
    show y ∈ (z.before ++ [x]) ++ z.after ↔ ∃ c, Function.update p.place x _ y = some c
    by_cases hy : y = x
    · rw [hy, hself]
      exact iff_of_true (by simp) ⟨_, rfl⟩
    · rw [hother hy, ← h.mem y]
      simp [Gap.list, hy]
  · intro y c hy
    rcases hplace hy with ⟨-, rfl⟩ | ⟨-, hy⟩
    · simp
    · exact h.ne_nil y c hy
  · intro y c hy i hi
    rcases hplace hy with ⟨-, rfl⟩ | ⟨-, hy⟩
    · rcases List.mem_append.1 hi with hi | hi
      · rcases h.cur with hnil | ⟨w, -, hw⟩
        · rw [hnil] at hi
          exact absurd hi List.not_mem_nil
        · exact h.bound w _ hw i hi
      · exact (List.mem_singleton.1 hi).ge
    · exact h.bound y c hy i hi
  · intro a ha
    dsimp only
    rcases List.mem_append.1 ha with ha | ha
    · rw [hother (hbefore a ha)]
      exact ((h.before a ha).trans_lt (lt_append p.cur k)).le
    · rw [List.mem_singleton.1 ha, hself]
      exact le_refl (p.cur ++ [k])
  · intro a ha
    dsimp only
    rw [hother (hafter a ha)]
    exact hnext a ha
  · intro y c hy hpre
    rcases hplace hy with ⟨-, rfl⟩ | ⟨-, hy⟩
    · have hlen := hpre.length_le
      simp at hlen
    · exact h.fresh y c hy ((List.prefix_append _ _).trans hpre)
  · intro y c q hy hpre
    rcases hplace hy with ⟨-, rfl⟩ | ⟨-, hy⟩
    · rcases List.prefix_concat_iff.1 hpre with heq | hpre
      · have hq : q = p.cur := (List.append_inj' heq rfl).1
        rw [hq]
        exact h.cur.imp_right hdone
      · rcases h.cur with hnil | ⟨w, -, hw⟩
        · rw [hnil, List.prefix_nil] at hpre
          exact absurd hpre (by simp)
        · exact (h.parent w _ q hw hpre).imp_right hdone
    · exact (h.parent y c q hy hpre).imp_right hdone

theorem Threading.foldl {xs : List ν} (h : Threading k done z p) (hxs : xs.Nodup)
    (hdone : ∀ x ∈ xs, x ∉ done) :
    Threading k (xs.reverse ++ done) (xs.foldl Gap.visit z) (xs.foldl (Places.visit k) p) := by
  induction xs generalizing done z p with
  | nil => exact h
  | cons x xs ih =>
    obtain ⟨hx, hxs⟩ := List.nodup_cons.1 hxs
    have hvisit : Threading k (x :: done) (z.visit x) (p.visit k x) := by
      cases hplace : p.place x with
      | none => exact h.visit_new hplace
      | some c => exact h.visit_old (hdone x (List.mem_cons_self ..)) hplace
    have hrest : ∀ y ∈ xs, y ∉ x :: done := by
      intro y hy hmem
      rcases List.mem_cons.1 hmem with rfl | hmem
      · exact hx hy
      · exact hdone y (List.mem_cons_of_mem _ hy) hmem
    have hend := ih hvisit hxs hrest
    rwa [List.reverse_cons, List.append_assoc]

/-- The next list keeps the order of the places. -/
theorem Placed.thread {l xs : List ν} {pl : ν → Option Path} (h : Placed k l pl)
    (hk : ∀ x c, pl x = some c → k ∉ c) (hxs : xs.Nodup) :
    Placed k (thread l xs) (placeList pl k xs) := by
  have hnot : ∀ {q x c}, pl x = some c → ¬ q ++ [k] <+: c := by
    intro q x c hx hpre
    exact hk x c hx (hpre.subset (List.mem_append_right _ (List.mem_singleton_self k)))
  have hstart : Threading k [] ⟨[], l⟩ ⟨pl, []⟩ := by
    refine { toPlaced := h, before := fun a ha => absurd ha List.not_mem_nil, after := ?_,
             fresh := fun x c hx => hnot hx, parent := fun x c q hx hq => absurd hq (hnot hx),
             cur := .inl rfl }
    intro a ha
    obtain ⟨c, hc⟩ := (h.mem a).1 ha
    show [] < (pl a).getD []
    rw [hc, Option.getD_some]
    obtain ⟨i, c, rfl⟩ := List.exists_cons_of_ne_nil (h.ne_nil a c hc)
    exact List.nil_lt_cons i c
  exact (hstart.foldl hxs fun x _ => List.not_mem_nil).toPlaced

/-- An element that is there is visited at its place. -/
theorem visit_of_split {l r : List ν} (hz : z.list = l ++ x :: r) (hx : x ∉ l) :
    z.visit x = ⟨l ++ [x], r⟩ := by
  have hmem : x ∈ z.list := hz ▸ List.mem_append_right _ (List.mem_cons_self ..)
  have hne : ∀ a ∈ l, decide (a ≠ x) = true := fun a ha => decide_eq_true fun heq => hx (heq ▸ ha)
  rw [Gap.visit, if_pos hmem, hz, List.takeWhile_append_of_pos hne, List.dropWhile_append_of_pos hne]
  simp

theorem list_visit (z : Gap ν) (x : ν) :
    (z.visit x).list = if x ∈ z.list then z.list else z.before ++ x :: z.after := by
  rw [Gap.visit]
  split
  case isTrue hx =>
    rw [Gap.list, List.append_assoc]
    exact (split_at hx).symm
  case isFalse hx =>
    rw [Gap.list, List.append_assoc]
    rfl

theorem mem_visit {y : ν} : y ∈ (z.visit x).list ↔ y ∈ z.list ∨ y = x := by
  rw [list_visit]
  split
  case isTrue hx =>
    refine ⟨.inl, ?_⟩
    rintro (hy | rfl)
    exacts [hy, hx]
  case isFalse hx =>
    rw [List.mem_append, List.mem_cons, Gap.list, List.mem_append, or_left_comm, or_comm]

theorem nodup_visit (h : z.list.Nodup) (x : ν) : (z.visit x).list.Nodup := by
  rw [list_visit]
  split
  case isTrue hx => exact h
  case isFalse hx => exact List.nodup_middle.2 (List.nodup_cons.2 ⟨hx, h⟩)

theorem mem_thread {l xs : List ν} {y : ν} : y ∈ thread l xs ↔ y ∈ l ∨ y ∈ xs := by
  suffices hfold : ∀ z : Gap ν, y ∈ (xs.foldl Gap.visit z).list ↔ y ∈ z.list ∨ y ∈ xs from hfold ⟨[], l⟩
  induction xs with
  | nil => simp
  | cons x xs ih =>
    intro z
    rw [List.foldl_cons, ih, mem_visit, List.mem_cons, or_assoc]

theorem placed_foldl {n : ℕ} {l : List ν} {pl : ν → Option Path} {ls : List (List ν)}
    (h : Placed (OrderDual.toDual n) l pl) (hk : ∀ x c, pl x = some c → OrderDual.toDual n ∉ c)
    (hls : ∀ xs ∈ ls, xs.Nodup) :
    ∃ k, Placed k (ls.foldl thread l) (placesFrom n pl ls) ∧
      ∀ x, x ∈ ls.foldl thread l ↔ x ∈ l ∨ ∃ xs ∈ ls, x ∈ xs := by
  induction ls generalizing n l pl with
  | nil => exact ⟨_, h, by simp⟩
  | cons xs ls ih =>
    have hnext := h.thread hk (hls xs (List.mem_cons_self ..))
    have hlt : OrderDual.toDual (n + 1) < OrderDual.toDual n := Nat.lt_succ_self n
    have hbound : Placed (OrderDual.toDual (n + 1)) (thread l xs) (placeList pl (OrderDual.toDual n) xs) :=
      { hnext with bound := fun x c hx i hi => hlt.le.trans (hnext.bound x c hx i hi) }
    obtain ⟨k, hplaced, hmem⟩ := ih hbound
      (fun x c hx hi => absurd (hnext.bound x c hx _ hi) (not_le_of_gt hlt))
      fun ys hys => hls ys (List.mem_cons_of_mem _ hys)
    refine ⟨k, hplaced, fun x => ?_⟩
    rw [List.foldl_cons, hmem, mem_thread, or_assoc, List.exists_mem_cons_iff]

end Threading

/-! ### The merged list -/

variable {ls : List (List ν)}

theorem threadAll_spec (hls : ∀ xs ∈ ls, xs.Nodup) :
    (threadAll ls).Pairwise (fun x y => place ls x < place ls y) ∧
      ∀ x, x ∈ threadAll ls ↔ ∃ xs ∈ ls, x ∈ xs := by
  have hstart : Placed (OrderDual.toDual 0) ([] : List ν) fun _ => none :=
    ⟨.nil, fun x => by simp, fun x c hx => absurd hx.symm (Option.some_ne_none c),
      fun x c hx => absurd hx.symm (Option.some_ne_none c)⟩
  obtain ⟨k, hplaced, hmem⟩ := placed_foldl hstart
    (fun x c hx => absurd hx.symm (Option.some_ne_none c)) hls
  exact ⟨hplaced.ascending, fun x => (hmem x).trans (or_iff_right List.not_mem_nil)⟩

theorem threadAll_nodup (hls : ∀ xs ∈ ls, xs.Nodup) : (threadAll ls).Nodup :=
  (threadAll_spec hls).1.imp fun {_ _} hlt heq => hlt.ne (congrArg (place ls) heq)

/-- The merged list keeps the order of all lists exactly where their elements are placed in it. -/
theorem sublist_threadAll_iff (hls : ∀ xs ∈ ls, xs.Nodup) :
    (∀ xs ∈ ls, xs.Sublist (threadAll ls)) ↔ Ascending ls := by
  obtain ⟨hasc, hmem⟩ := threadAll_spec hls
  constructor
  · intro hsub xs hxs
    exact hasc.sublist (hsub xs hxs)
  · intro hplaced xs hxs
    exact sublist_of_ascending (hplaced xs hxs) hasc fun x hx => (hmem x).2 ⟨xs, hxs, hx⟩

end Thread
end OpenBmc
