import OpenBmc.PrServ.Table

/-!
# The order of revisions

`revision_greater` accepts whatever is not `Below`, and a revision is not below its own extensions:
`1` and `1.0` are each greater than the other. Two revisions of which neither extends the other are
ordered as their numbers are, and then all the laws of a strict total order hold. What
`_extremum_value` finds is the same in every order of the rows if no row is extended by the least
revision or extends to the greatest.
-/

namespace OpenBmc
namespace PrServ
open Py Dotted

/-- A revision as `increase_revision` writes it. -/
def revision (r : List Int) : Str := joinDots (r.map intStr)

/-- A dotted integer string with its components in canonical decimal. -/
def Canonical (rev : Str) : Prop := ∃ r, r ≠ [] ∧ rev = revision r

def Greater (rev1 rev2 : Str) : Prop := revisionGreater (some rev1) (some rev2) = .ok true

def Smaller (rev1 rev2 : Str) : Prop := revisionSmaller (some rev1) (some rev2) = .ok true

/-- The first revision is the second one with more components behind it. -/
def Extends (rev1 rev2 : Str) : Prop := rev2 ++ ['.'] <+: rev1

instance (a b : Str) : Decidable (Greater a b) := inferInstanceAs (Decidable (_ = _))

instance (a b : Str) : Decidable (Smaller a b) := inferInstanceAs (Decidable (_ = _))

/-- The laws of a strict total order, at three revisions. -/
structure Laws (a b c : Str) : Prop where
  irrefl : ¬ Greater a a
  asymm : Greater a b → ¬ Greater b a
  trans : Greater a b → Greater b c → Greater a c
  total : a = b ∧ ¬ Greater a b ∧ ¬ Greater b a ∨ a ≠ b ∧ Greater a b ∧ ¬ Greater b a ∨
    a ≠ b ∧ ¬ Greater a b ∧ Greater b a
  smaller : Smaller a b ↔ Greater b a
  increased : ∃ x, increaseRevision a = .ok x ∧ Greater x a

/-- Whatever the order of the rows, the same value is chosen. -/
def OrderFree (rows : List Str) (isMax : Bool) : Prop :=
  ∀ rows', rows'.Perm rows → Table.extremumValue rows' isMax = Table.extremumValue rows isMax

/-- The greatest revision extends no row, and no row extends the least. -/
structure EndsApart (rows : List Str) : Prop where
  greatest : ∀ g ∈ rows, (∀ x ∈ rows, num x ≤ num g) → ∀ x ∈ rows, ¬ Extends g x
  least : ∀ m ∈ rows, (∀ x ∈ rows, num m ≤ num x) → ∀ x ∈ rows, ¬ Extends x m

/-! ### Canonical revisions -/

theorem ints_map_intStr (r : List Int) : ints (r.map intStr) = some r := by
  induction r with
  | nil => rfl
  | cons i r ih => exact ints_cons.2 ⟨i, r, parseInt_intStr i, ih, rfl⟩

theorem components_revision {r : List Int} (h : r ≠ []) : components (revision r) = some r := by
  rw [revision, components_joinDots (by simpa using h), ints_map_intStr]
  intro f hf
  obtain ⟨i, -, rfl⟩ := List.mem_map.1 hf
  exact dot_not_mem_intStr i

section Canonical
variable {a b c : Str}

theorem Canonical.isRevision (h : Canonical a) : IsRevision a := by
  obtain ⟨r, hr, rfl⟩ := h
  exact ⟨r, components_revision hr⟩

theorem Canonical.eq (h : Canonical a) : a = revision (num a) := by
  obtain ⟨r, hr, rfl⟩ := h
  rw [num, components_revision hr]
  rfl

theorem Canonical.num_inj (ha : Canonical a) (hb : Canonical b) : num a = num b ↔ a = b := by
  constructor
  · intro h
    rw [ha.eq, hb.eq, h]
  · rintro rfl
    rfl

theorem Canonical.num_ne_nil (h : Canonical a) : num a ≠ [] :=
  components_ne_nil h.isRevision.components

theorem Canonical.extends_iff (ha : Canonical a) (hb : Canonical b) :
    Extends a b ↔ num b <+: num a ∧ num b ≠ num a := by
  constructor
  · rintro ⟨z, rfl⟩
    have hz : b ++ ['.'] ++ z = b ++ '.' :: z := by simp
    rw [hz] at ha ⊢
    exact num_prefix_of_extend hb.isRevision ha.isRevision
  · rintro ⟨⟨q, hq⟩, hne⟩
    have hq0 : q ≠ [] := by
      rintro rfl
      exact hne (by rw [← hq, List.append_nil])
    refine ⟨joinDots (q.map intStr), ?_⟩
    rw [ha.eq, ← hq, revision, List.map_append, joinDots_append (by simpa using hb.num_ne_nil)
      (by simpa using hq0)]
    show b ++ ['.'] ++ joinDots (q.map intStr) = revision (num b) ++ '.' :: joinDots (q.map intStr)
    rw [← hb.eq, List.append_assoc]
    rfl

theorem greater_iff (ha : IsRevision a) (hb : IsRevision b) :
    Greater a b ↔ ¬ Below (num a) (num b) ∧ a ≠ b := by
  obtain ⟨g, hg, hiff⟩ := revisionGreater_eq ha hb
  rw [Greater, hg, ← hiff, Except.ok.injEq]

theorem smaller_iff (ha : IsRevision a) (hb : IsRevision b) : Smaller a b ↔ Below (num a) (num b) := by
  obtain ⟨g, hg, hiff⟩ := revisionSmaller_eq ha hb
  rw [Smaller, hg, ← hiff, Except.ok.injEq]

/-- A revision is greater than those before it in the order of numbers, and than those that extend
it. -/
theorem Canonical.greater_iff (ha : Canonical a) (hb : Canonical b) :
    Greater a b ↔ num b < num a ∨ Extends b a := by
  rw [PrServ.greater_iff ha.isRevision hb.isRevision, not_below_iff, hb.extends_iff ha,
    ne_eq, ← ha.num_inj hb]
  constructor
  · rintro ⟨h | h, hne⟩
    · exact .inl (lt_of_le_of_ne h (Ne.symm hne))
    · exact .inr ⟨h, hne⟩
  · rintro (h | ⟨h, hne⟩)
    · exact ⟨.inl h.le, h.ne'⟩
    · exact ⟨.inr h, hne⟩

theorem Canonical.below_of_lt (ha : Canonical a) (hb : Canonical b) (h : num a < num b)
    (he : ¬ Extends b a) : Below (num a) (num b) :=
  (lt_iff.1 h).resolve_right fun hp => he ((hb.extends_iff ha).2 hp)

/-- The laws hold exactly of revisions of which neither of the first two extends the other. -/
theorem laws_iff (ha : Canonical a) (hb : Canonical b) (hc : Canonical c) :
    Laws a b c ↔ ¬ Extends a b ∧ ¬ Extends b a := by
  constructor
  · intro h
    have hboth : ∀ {x y}, Canonical x → Canonical y → Extends x y → Greater x y ∧ Greater y x :=
      fun hx hy he => ⟨(hx.greater_iff hy).2 (.inl (lt_iff.2 (.inr ((hx.extends_iff hy).1 he)))),
        (hy.greater_iff hx).2 (.inr he)⟩
    refine ⟨fun he => ?_, fun he => ?_⟩
    · obtain ⟨hab, hba⟩ := hboth ha hb he
      exact h.asymm hab hba
    · obtain ⟨hba, hab⟩ := hboth hb ha he
      exact h.asymm hab hba
  · rintro ⟨hab, hba⟩
    have hgab : Greater a b ↔ num b < num a := by rw [ha.greater_iff hb, or_iff_left hba]
    have hgba : Greater b a ↔ num a < num b := by rw [hb.greater_iff ha, or_iff_left hab]
    refine { irrefl := ?_, asymm := ?_, trans := ?_, total := ?_, smaller := ?_, increased := ?_ }
    · rw [ha.greater_iff ha, ha.extends_iff ha]
      rintro (h | ⟨-, h⟩)
      exacts [lt_irrefl _ h, h rfl]
    · rw [hgab, hgba]
      exact lt_asymm
    · rw [hgab, hb.greater_iff hc, ha.greater_iff hc]
      rintro h (h' | h')
      · exact .inl (h'.trans h)
      · -- `b` is below `a` at a component that `c` has too
        have hbelow := (hb.below_of_lt ha h hab).of_initial ((hc.extends_iff hb).1 h').1
        exact .inl hbelow.lt
    · rw [hgab, hgba, ← ha.num_inj hb, ne_eq, ← ha.num_inj hb]
      rcases lt_trichotomy (num a) (num b) with h | h | h
      · exact .inr (.inr ⟨h.ne, lt_asymm h, h⟩)
      · exact .inl ⟨h, by simp [h], by simp [h]⟩
      · exact .inr (.inl ⟨h.ne', h, lt_asymm h⟩)
    · rw [smaller_iff ha.isRevision hb.isRevision, hgba]
      exact ⟨Below.lt, fun h => ha.below_of_lt hb h hba⟩
    · obtain ⟨x, hx, hrev, hnum⟩ := increaseRevision_eq ha.isRevision
      have hlt : num a < num x := hnum ▸ lt_bump ha.num_ne_nil
      refine ⟨x, hx, (PrServ.greater_iff hrev ha.isRevision).2 ⟨fun h => lt_asymm hlt h.lt, ?_⟩⟩
      rintro rfl
      exact lt_irrefl _ hlt

end Canonical

/-! ### The scan over the rows -/

/-- Whether a row takes the place of the value held. -/
def accepts (isMax : Bool) : Str → Str → Bool := if isMax then Table.better else Table.smaller

section Rows
variable {rows : List Str} {isMax : Bool} {c g m v x : Str}

theorem extremumValue_cons (h : ∀ x ∈ v :: rows, IsRevision x) :
    Table.extremumValue (v :: rows) isMax = .ok (some (pick (accepts isMax) v rows)) := by
  cases isMax with
  | true => rw [Table.extremumValue, Table.extremumLoop_true h]; rfl
  | false => rw [Table.extremumValue, Table.extremumLoop_false h]; rfl

theorem extremumValue_concat (h : ∀ x ∈ rows ++ [c], IsRevision x)
    (hv : Table.extremumValue rows isMax = .ok (some v)) : Table.extremumValue (rows ++ [c]) isMax =
      .ok (some (if accepts isMax c v then c else v)) := by
  cases rows with
  | nil => cases hv
  | cons w rows =>
    rw [extremumValue_cons fun x hx => h x (List.mem_append_left _ hx), Except.ok.injEq,
      Option.some.injEq] at hv
    rw [List.cons_append, extremumValue_cons (by simpa using h), pick_concat, hv]

/-- The last row is chosen if it takes the place of any other. -/
theorem extremumValue_last (h : ∀ x ∈ rows ++ [c], IsRevision x)
    (hc : ∀ x ∈ rows, x ≠ c → accepts isMax c x) :
    Table.extremumValue (rows ++ [c]) isMax = .ok (some c) := by
  cases rows with
  | nil => exact extremumValue_cons (show ∀ x ∈ c :: [], IsRevision x from h)
  | cons w rows =>
    rw [List.cons_append, extremumValue_cons (by simpa using h), pick_concat]
    by_cases he : pick (accepts isMax) w rows = c
    · rw [he, ite_self]
    · rw [if_pos (hc _ pick_mem he)]

theorem extremumValue_eq_of_top (h : ∀ x ∈ rows, IsRevision x) (hg : g ∈ rows)
    (htop : ∀ x ∈ rows, x ≠ g → accepts isMax g x)
    (hkeep : ∀ x ∈ rows, x ≠ g → accepts isMax x g = false) :
    Table.extremumValue rows isMax = .ok (some g) := by
  cases rows with
  | nil => cases hg
  | cons v rows => rw [extremumValue_cons h, pick_eq_of_top hg htop hkeep]

theorem orderFree_of_top (h : ∀ x ∈ rows, IsRevision x) (hg : g ∈ rows)
    (htop : ∀ x ∈ rows, x ≠ g → accepts isMax g x)
    (hkeep : ∀ x ∈ rows, x ≠ g → accepts isMax x g = false) : OrderFree rows isMax := by
  intro rows' hperm
  have hmem : ∀ x, x ∈ rows' → x ∈ rows := fun x => hperm.mem_iff.1
  rw [extremumValue_eq_of_top h hg htop hkeep,
    extremumValue_eq_of_top (fun x hx => h x (hmem x hx)) (hperm.mem_iff.2 hg)
      (fun x hx => htop x (hmem x hx)) fun x hx => hkeep x (hmem x hx)]

theorem better_iff (hc : Canonical c) (hv : Canonical v) :
    accepts true c v ↔ num v < num c ∨ Extends v c := by
  rw [← hc.greater_iff hv, greater_iff hc.isRevision hv.isRevision]
  exact decide_eq_true_iff

theorem smaller_iff_below : accepts false c v ↔ Below (num c) (num v) := decide_eq_true_iff

theorem orderFree_max_iff (h : ∀ x ∈ rows, Canonical x) : OrderFree rows true ↔
    ∀ g ∈ rows, (∀ x ∈ rows, num x ≤ num g) → ∀ x ∈ rows, ¬ Extends g x := by
  constructor
  · intro hfree g hg hmax x hx he
    have hne : x ≠ g := by
      rintro rfl
      exact (((h x hx).extends_iff (h x hx)).1 he).2 rfl
    have htop : ∀ y ∈ rows, y ≠ g → accepts true g y := fun y hy hyg =>
      (better_iff (h g hg) (h y hy)).2 (.inl (lt_of_le_of_ne (hmax y hy)
        fun hnum => hyg (((h y hy).num_inj (h g hg)).1 hnum)))
    -- the same rows with the greatest and the one it extends at the end, in either order
    have hperm : (((rows.erase g).erase x ++ [x]) ++ [g]).Perm rows :=
      (List.perm_append_singleton _ _).trans (((List.perm_append_singleton _ _).trans
        (List.perm_cons_erase ((List.mem_erase_of_ne hne).2 hx)).symm).cons g |>.trans
          (List.perm_cons_erase hg).symm)
    have hperm' : (((rows.erase g).erase x ++ [g]) ++ [x]).Perm rows := by
      refine List.Perm.trans ?_ hperm
      rw [List.append_assoc, List.append_assoc]
      exact List.Perm.append_left _ (List.Perm.swap ..)
    have hrest : ∀ y ∈ (rows.erase g).erase x, y ∈ rows := fun y hy =>
      List.mem_of_mem_erase (List.mem_of_mem_erase hy)
    have hrev : ∀ {l : List Str}, l.Perm rows → ∀ y ∈ l, IsRevision y := fun hp y hy =>
      (h y (hp.mem_iff.1 hy)).isRevision
    have hlast : Table.extremumValue ((rows.erase g).erase x ++ [x] ++ [g]) true = .ok (some g) :=
      extremumValue_last (hrev hperm) fun y hy => htop y (hperm.mem_iff.1 (List.mem_append_left _ hy))
    have hg' : Table.extremumValue ((rows.erase g).erase x ++ [g]) true = .ok (some g) :=
      extremumValue_last (fun y hy => hrev hperm' y (List.mem_append_left _ hy))
        fun y hy => htop y (hrest y hy)
    have hlast' : Table.extremumValue ((rows.erase g).erase x ++ [g] ++ [x]) true = .ok (some x) := by
      rw [extremumValue_concat (hrev hperm') hg', if_pos ((better_iff (h x hx) (h g hg)).2 (.inr he))]
    have heq := (hfree _ hperm').trans (hfree _ hperm).symm
    rw [hlast', hlast, Except.ok.injEq, Option.some.injEq] at heq
    exact hne heq
  · intro hends
    by_cases hnil : rows = []
    · subst hnil
      rintro rows' hperm
      rw [List.perm_nil.1 hperm]
    obtain ⟨g, hg, hmax⟩ := rows.toFinset.exists_max_image num (by simpa using hnil)
    simp only [List.mem_toFinset] at hg hmax
    have hlt : ∀ y ∈ rows, y ≠ g → num y < num g := fun y hy hyg => lt_of_le_of_ne (hmax y hy)
      fun hnum => hyg (((h y hy).num_inj (h g hg)).1 hnum)
    have htop : ∀ y ∈ rows, y ≠ g → accepts true g y := fun y hy hyg =>
      (better_iff (h g hg) (h y hy)).2 (.inl (hlt y hy hyg))
    refine orderFree_of_top (fun x hx => (h x hx).isRevision) hg htop fun y hy hyg => ?_
    rw [Bool.eq_false_iff, ne_eq, better_iff (h y hy) (h g hg), not_or]
    exact ⟨lt_asymm (hlt y hy hyg), hends g hg hmax y hy⟩

/-- An extension of the least row keeps its place, against the least row too. -/
theorem extends_pick (hm : Canonical m) (h : ∀ x ∈ rows, Canonical x ∧ num m ≤ num x)
    (hv : Canonical v) (he : Extends v m) : Extends (pick (accepts false) v rows) m := by
  induction rows generalizing v with
  | nil => exact he
  | cons c rows ih =>
    have hc := h c (by simp)
    have hrest := fun x hx => h x (List.mem_cons_of_mem c hx)
    show Extends (pick (accepts false) (if accepts false c v then c else v) rows) m
    by_cases hacc : accepts false c v
    · rw [if_pos hacc]
      rw [smaller_iff_below] at hacc
      have hpre := ((hv.extends_iff hm).1 he).1
      have hnot : ¬ Below (num m) (num c) := fun hb => lt_asymm hacc.lt (hb.of_initial hpre).lt
      refine ih hrest hc.1 ((hc.1.extends_iff hm).2 ⟨prefix_of_not_below hnot hc.2, fun heq => ?_⟩)
      rw [← heq] at hacc
      exact not_below_of_prefix hpre hacc
    · rw [if_neg hacc]
      exact ih hrest hv he

theorem orderFree_min_iff (h : ∀ x ∈ rows, Canonical x) : OrderFree rows false ↔
    ∀ m ∈ rows, (∀ x ∈ rows, num m ≤ num x) → ∀ x ∈ rows, ¬ Extends x m := by
  have hkeep : ∀ m, (∀ x ∈ rows, num m ≤ num x) → ∀ x ∈ rows, accepts false x m = false := by
    intro m hmin x hx
    rw [Bool.eq_false_iff, ne_eq, smaller_iff_below]
    exact fun hb => not_lt.2 (hmin x hx) hb.lt
  constructor
  · intro hfree m hm hmin x hx he
    have hpm := List.perm_cons_erase hm
    have hpx := List.perm_cons_erase hx
    have hfirst : Table.extremumValue (m :: rows.erase m) false = .ok (some m) := by
      rw [extremumValue_cons fun y hy => (h y (hpm.mem_iff.2 hy)).isRevision]
      refine congrArg (fun v => Except.ok (some v)) ?_
      have hin : ∀ y ∈ rows.erase m, accepts false y m = false := fun y hy =>
        hkeep m hmin y (List.mem_of_mem_erase hy)
      generalize rows.erase m = l at hin
      induction l with
      | nil => rfl
      | cons c l ih =>
        show pick (accepts false) (if accepts false c m then c else m) l = m
        have hc := hin c (by simp)
        rw [hc, if_neg Bool.false_ne_true]
        exact ih fun y hy => hin y (List.mem_cons_of_mem c hy)
    have hother : ∃ y, Table.extremumValue (x :: rows.erase x) false = .ok (some y) ∧ Extends y m :=
      ⟨_, extremumValue_cons fun y hy => (h y (hpx.mem_iff.2 hy)).isRevision, extends_pick (h m hm)
        (fun y hy => ⟨h y (List.mem_of_mem_erase hy), hmin y (List.mem_of_mem_erase hy)⟩) (h x hx) he⟩
    obtain ⟨y, hy, hext⟩ := hother
    have heq := (hfree _ hpm.symm).trans (hfree _ hpx.symm).symm
    rw [hfirst, hy, Except.ok.injEq, Option.some.injEq] at heq
    subst heq
    exact (((h m hm).extends_iff (h m hm)).1 hext).2 rfl
  · intro hends
    by_cases hnil : rows = []
    · subst hnil
      rintro rows' hperm
      rw [List.perm_nil.1 hperm]
    obtain ⟨m, hm, hmin⟩ := rows.toFinset.exists_min_image num (by simpa using hnil)
    simp only [List.mem_toFinset] at hm hmin
    refine orderFree_of_top (fun x hx => (h x hx).isRevision) hm
      (fun x hx hxm => smaller_iff_below.2 ?_) fun x hx _ => hkeep m hmin x hx
    exact (h m hm).below_of_lt (h x hx) (lt_of_le_of_ne (hmin x hx)
      fun hnum => hxm (((h m hm).num_inj (h x hx)).1 hnum).symm) (hends m hm hmin x hx)

end Rows

/-- The laws hold of two revisions exactly when neither extends the other, and the choice among the
rows does not depend on their order exactly when the ends of the rows are apart. -/
theorem revision_order {a b c : Str} (ha : Canonical a) (hb : Canonical b) (hc : Canonical c)
    {rows : List Str} (h : ∀ x ∈ rows, Canonical x) :
    (Laws a b c ↔ ¬ Extends a b ∧ ¬ Extends b a) ∧
      (OrderFree rows true ∧ OrderFree rows false ↔ EndsApart rows) := by
  refine ⟨laws_iff ha hb hc, ?_⟩
  rw [orderFree_max_iff h, orderFree_min_iff h]
  exact ⟨fun ⟨hmax, hmin⟩ => ⟨hmax, hmin⟩, fun hends => ⟨hends.greatest, hends.least⟩⟩

theorem canonical_one : Canonical "1".toList := ⟨[1], by simp, by decide⟩

theorem canonical_two : Canonical "2".toList := ⟨[2], by simp, by decide⟩

theorem canonical_one_zero : Canonical "1.0".toList := ⟨[1, 0], by simp, by decide⟩

theorem one_and_two_ordered :
    (Laws "1".toList "2".toList "1".toList ↔
      ¬ Extends "1".toList "2".toList ∧ ¬ Extends "2".toList "1".toList) ∧
    (OrderFree ["1".toList, "2".toList] true ∧ OrderFree ["1".toList, "2".toList] false ↔
      EndsApart ["1".toList, "2".toList]) := by
  refine revision_order canonical_one canonical_two canonical_one ?_
  intro x hx
  rcases List.mem_pair.1 hx with rfl | rfl
  exacts [canonical_one, canonical_two]

/-- Each of `1` and `1.0` is greater than the other, and the later row is the maximum. -/
theorem one_and_one_zero :
    ¬ Laws "1".toList "1.0".toList "2".toList ∧
      Table.extremumValue ["1".toList, "1.0".toList] true = .ok (some "1.0".toList) ∧
      Table.extremumValue ["1.0".toList, "1".toList] true = .ok (some "1".toList) := by
  refine ⟨fun h => h.asymm ?_ ?_, ?_, ?_⟩
  · show Greater "1".toList "1.0".toList
    decide +kernel
  · show Greater "1.0".toList "1".toList
    decide +kernel
  · decide +kernel
  · decide +kernel

end PrServ
end OpenBmc
