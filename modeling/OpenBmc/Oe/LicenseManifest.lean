import OpenBmc.Oe.ManifestShape

/-!
# The manifest of a license expression

Where no bracket comes too late, what is written is an expression. It is the original without the
unwanted operands exactly if the right side of a `|` does not lose its first operand alone: that
operand's `&` would take the place of the `|`.
-/

namespace OpenBmc
namespace Oe
open Py

variable {wanted : Str → Bool} {e e' l l' r r' : Expression} {w : Walk} {k : Ast.Rank}
  {ps qs : List Str}

/-! ### Operators that change -/

/-- Two sequences of operands joined by `&`. -/
theorem reads_join (hl : Reads .ands ps l) : ∀ {qs : List Str} {r : Expression}, Reads .ands qs r →
    ∃ e, Reads .ands (ps ++ ['&'] :: qs) e ∧ e.names = l.names ++ r.names ∧
      e.tree.weight = l.tree.weight * r.tree.weight
  | _, r, .factor hr => ⟨.both l r, hl.and hr, rfl, AndOr.weight_both⟩
  | _, _, .and h₁ h₂ => by
    obtain ⟨e, he, hn, hw⟩ := reads_join hl h₁
    refine ⟨.both e _, by simpa using he.and h₂, ?_, ?_⟩
    · simp [Expression.names, hn]
    · simp [Expression.tree, AndOr.weight_both, hw, mul_assoc]
  | _, _, @Reads.sideBySide qs m n r₁ h₁ hm hn => by
    obtain ⟨e, he, hnames, hw⟩ := reads_join hl h₁
    have he : Reads .ands (ps ++ ['&'] :: qs ++ [m]) e := by simpa using he
    refine ⟨.both e (.name n), by simpa using he.sideBySide hm hn, ?_, ?_⟩
    · simp [Expression.names, hnames]
    · simp [Expression.tree, AndOr.weight_both, hw, mul_assoc]

/-- A `&` in the place of a `|`. -/
theorem reads_join_or (hl : Reads .ors ps l) (hr : Reads .ands qs r) :
    ∃ e, Reads .ors (ps ++ ['&'] :: qs) e ∧ e.names = l.names ++ r.names ∧
      l.tree.weight + r.tree.weight < e.tree.weight := by
  cases hl with
  | ands hl =>
    obtain ⟨e, he, hn, hw⟩ := reads_join hl hr
    refine ⟨e, he.ands, hn, ?_⟩
    rw [hw, ← AndOr.weight_either, ← AndOr.weight_both]
    exact AndOr.weight_either_lt_both _ _
  | @or _ _ l₁ l₂ h₁ h₂ =>
    obtain ⟨e, he, hn, hw⟩ := reads_join h₂ hr
    refine ⟨.either l₁ e, by simpa using h₁.or he, ?_, ?_⟩
    · simp [Expression.names, hn]
    · have hlt := AndOr.weight_either_lt_both l₂.tree r.tree
      rw [AndOr.weight_either, AndOr.weight_both] at hlt
      simp only [Expression.tree, AndOr.weight_either, hw]
      omega

/-! ### What is written -/

/-- How an expression that is written compares with the original: nothing but the unwanted operands
is gone, or it asks for more. -/
def Compares (wanted : Str → Bool) (e e' : Expression) : Prop :=
  ∃ p, e.prune wanted = some p ∧ (e.Ordered wanted → e' = p) ∧
    (¬ e.Ordered wanted → p.tree.weight < e'.tree.weight)

theorem Compares.weight_le (h : Compares wanted e e') :
    ∃ p, e.prune wanted = some p ∧ p.tree.weight ≤ e'.tree.weight := by
  obtain ⟨p, hp, heq, hlt⟩ := h
  refine ⟨p, hp, ?_⟩
  by_cases ho : e.Ordered wanted
  · rw [heq ho]
  · exact (hlt ho).le

theorem Compares.group (h : Compares wanted e e') : Compares wanted (.group e) (.group e') := by
  obtain ⟨p, hp, heq, hlt⟩ := h
  exact ⟨.group p, by rw [Expression.prune, hp]; rfl, fun ho => congrArg _ (heq ho), hlt⟩

theorem Compares.both (hl : Compares wanted l l') (hr : Compares wanted r r') :
    Compares wanted (.both l r) (.both l' r') := by
  obtain ⟨p, hp, heq, hlt⟩ := hl
  obtain ⟨q, hq, heq', hlt'⟩ := hr
  obtain ⟨p', hp', hle⟩ := Compares.weight_le ⟨p, hp, heq, hlt⟩
  obtain ⟨q', hq', hle'⟩ := Compares.weight_le ⟨q, hq, heq', hlt'⟩
  obtain rfl := Option.some.inj (hp'.symm.trans hp)
  obtain rfl := Option.some.inj (hq'.symm.trans hq)
  refine ⟨.both p' q', by rw [Expression.prune, hp, hq], ?_, fun ho => ?_⟩
  · rintro ⟨hol, hor⟩
    rw [heq hol, heq' hor]
  · have h3 := AndOr.three_le_weight p'.tree
    have h3' := AndOr.three_le_weight q'.tree
    simp only [Expression.tree, AndOr.weight_both]
    by_cases hol : l.Ordered wanted
    · have hlt' := hlt' fun hor => ho ⟨hol, hor⟩
      exact lt_of_lt_of_le (Nat.mul_lt_mul_of_pos_left hlt' (by omega))
        (Nat.mul_le_mul_right _ hle)
    · exact lt_of_lt_of_le (Nat.mul_lt_mul_of_pos_right (hlt hol) (by omega))
        (Nat.mul_le_mul_left _ hle')

theorem Compares.either (hl : Compares wanted l l') (hr : Compares wanted r r')
    (hlead : r.leads wanted) : Compares wanted (.either l r) (.either l' r') := by
  obtain ⟨p, hp, heq, hlt⟩ := hl
  obtain ⟨q, hq, heq', hlt'⟩ := hr
  obtain ⟨p', hp', hle⟩ := Compares.weight_le ⟨p, hp, heq, hlt⟩
  obtain ⟨q', hq', hle'⟩ := Compares.weight_le ⟨q, hq, heq', hlt'⟩
  obtain rfl := Option.some.inj (hp'.symm.trans hp)
  obtain rfl := Option.some.inj (hq'.symm.trans hq)
  refine ⟨.either p' q', by rw [Expression.prune, hp, hq], ?_, fun ho => ?_⟩
  · rintro ⟨hol, hor, -⟩
    rw [heq hol, heq' hor]
  · simp only [Expression.tree, AndOr.weight_either]
    by_cases hol : l.Ordered wanted
    · have hlt' := hlt' fun hor => ho ⟨hol, hor, fun _ _ => hlead⟩
      omega
    · have hlt := hlt hol
      omega

/-- The `&` of a right side that has lost its first operand stands in the place of the `|`. -/
theorem Compares.joined (hl : Compares wanted l l') (hr : Compares wanted r r')
    (hkl : l.keeps wanted) (hkr : r.keeps wanted) (hlead : r.leads wanted = false)
    (hw : l'.tree.weight + r'.tree.weight < e'.tree.weight) :
    Compares wanted (.either l r) e' := by
  obtain ⟨p, hp, hle⟩ := hl.weight_le
  obtain ⟨q, hq, hle'⟩ := hr.weight_le
  refine ⟨.either p q, by rw [Expression.prune, hp, hq], fun ho => ?_, fun _ => ?_⟩
  · exact absurd (ho.2.2 hkl hkr) (by simp [hlead])
  · simp only [Expression.tree, AndOr.weight_either]
    omega

theorem Compares.left (h : Compares wanted l l') (hr : r.prune wanted = none)
    (ho : r.Ordered wanted) : Compares wanted (.both l r) l' := by
  obtain ⟨p, hp, heq, hlt⟩ := h
  exact ⟨p, by rw [Expression.prune, hp, hr], fun h => heq h.1, fun h => hlt fun hl => h ⟨hl, ho⟩⟩

theorem Compares.right (h : Compares wanted r r') (hl : l.prune wanted = none)
    (ho : l.Ordered wanted) : Compares wanted (.both l r) r' := by
  obtain ⟨p, hp, heq, hlt⟩ := h
  refine ⟨p, by rw [Expression.prune, hl, hp], fun h => heq h.2, fun h => hlt fun hr => h ⟨ho, hr⟩⟩

theorem Compares.leftSide (h : Compares wanted l l') (hr : r.keeps wanted = false)
    (ho : r.Ordered wanted) : Compares wanted (.either l r) l' := by
  obtain ⟨p, hp, heq, hlt⟩ := h
  refine ⟨p, by rw [Expression.prune, hp, Expression.prune_of_not_keeps hr], fun h => heq h.1,
    fun h => hlt fun hl => h ⟨hl, ho, fun _ hk => ?_⟩⟩
  rw [hr] at hk
  exact absurd hk Bool.false_ne_true

theorem Compares.rightSide (h : Compares wanted r r') (hl : l.keeps wanted = false)
    (ho : l.Ordered wanted) : Compares wanted (.either l r) r' := by
  obtain ⟨p, hp, heq, hlt⟩ := h
  refine ⟨p, by rw [Expression.prune, Expression.prune_of_not_keeps hl, hp], fun h => heq h.2.1,
    fun h => hlt fun hr => h ⟨ho, hr, fun hk => ?_⟩⟩
  rw [hl] at hk
  exact absurd hk Bool.false_ne_true

theorem ordered_of_dropped : ∀ {e : Expression} {b : Bool}, e.keeps wanted = false →
    e.Balanced wanted b → e.Ordered wanted
  | .name _, _, _, _ => trivial
  | .group e, _, hk, hb => absurd hb.1 (by simpa using hk)
  | .both l r, _, hk, hb => by
    rw [Expression.keeps_both, Bool.or_eq_false_iff] at hk
    exact ⟨ordered_of_dropped hk.1 hb.1, ordered_of_dropped hk.2 hb.2⟩
  | .either l r, _, hk, hb => by
    rw [Expression.keeps_either, Bool.or_eq_false_iff] at hk
    refine ⟨ordered_of_dropped hk.1 hb.1, ordered_of_dropped hk.2 hb.2, fun h => ?_⟩
    rw [hk.1] at h
    exact absurd h Bool.false_ne_true

theorem keeps_of_leads : ∀ {e : Expression}, e.leads wanted → e.keeps wanted
  | .name n, h => by simpa [Expression.leads] using h
  | .group e, h => h
  | .both l r, h => by simp [keeps_of_leads (e := l) h]
  | .either l r, h => by simp [keeps_of_leads (e := l) h]

theorem filter_names_of_dropped (h : e.keeps wanted = false) : e.names.filter wanted = [] := by
  rw [List.filter_eq_nil_iff]
  exact fun n hn hw => absurd (List.any_eq_true.2 ⟨n, hn, hw⟩) (by simpa [Expression.keeps] using h)

theorem append_names_ne_nil (licenses : List Str) (h : e.keeps wanted) :
    licenses ++ e.names.filter wanted ≠ [] := by
  obtain ⟨n, hn, hw⟩ := List.any_eq_true.1 h
  exact List.append_ne_nil_of_right_ne_nil _
    (List.ne_nil_of_mem (List.mem_filter.2 ⟨hn, hw⟩))

theorem count_ops (ops : List Ast.BinOperator) : (ops.map Pending.op).count .opening = 0 :=
  List.count_eq_zero.2 (by simp)

theorem balanced_push (o : Ast.BinOperator)
    (h : r.Balanced wanted (w.behind || l.keeps wanted)) :
    r.Balanced wanted ((w.visit wanted l).push (.op o)).behind := by
  have hbehind : ((w.visit wanted l).push (.op o)).behind = _ := Walk.behind_visit wanted l w
  rw [hbehind]
  exact h

/-- Of operands that are all dropped the operators stay pending. -/
def Drops (wanted : Str → Bool) (k : Ast.Rank) (e : Expression) : Prop :=
  ∀ w : Walk, e.keeps wanted = false → e.Balanced wanted w.behind →
    ∃ ops : List Ast.BinOperator,
      w.visit wanted e = ⟨w.pending ++ ops.map .op, w.licenses, w.out⟩ ∧
      (k ≠ .ors → ∀ o ∈ ops, o = .bitAnd)

/-- An operand of rank `k` is written behind what is pending; `lead` are the operators of operands
that were dropped in front of it. -/
def Writes (wanted : Str → Bool) (k : Ast.Rank) (e : Expression) (w : Walk)
    (lead : List Ast.BinOperator) : Prop :=
  ∃ (ts : List Ast.Token) (e' : Expression) (trail : List Ast.BinOperator),
    w.visit wanted e = ⟨trail.map .op, w.licenses ++ e.names.filter wanted,
      w.out ++ flushed w.licenses (w.pending ++ lead.map .op) ++ ts⟩ ∧
    Reads k (ts.map tokenPiece) e' ∧ e'.names = e.names.filter wanted ∧ Compares wanted e e'

/-- What is written for an operand that keeps something. -/
def Keeps (wanted : Str → Bool) : Ast.Rank → Expression → Prop
  | .factor, e => ∀ w : Walk, e.keeps wanted → e.Balanced wanted w.behind →
    e.leads wanted ∧ Writes wanted .factor e w []
  | .ands, e => ∀ w : Walk, e.keeps wanted → e.Balanced wanted w.behind →
    ∃ lead, Writes wanted .ands e w lead ∧ (∀ o ∈ lead, o = .bitAnd) ∧ (lead = [] ↔ e.leads wanted)
  | .ors, e => ∀ w : Walk, e.keeps wanted → e.Balanced wanted w.behind →
    (w.licenses = [] ∨ e.leads wanted) → Writes wanted .ors e w []

theorem drops_name {n : Str} : Drops wanted .factor (.name n) := by
  intro w hk _
  rw [Expression.keeps_name] at hk
  refine ⟨[], ?_, fun _ o ho => by cases ho⟩
  rw [Walk.visit, hk]
  simp

theorem drops_group : Drops wanted .factor (.group e) :=
  fun _ hk hb => absurd hb.1 (by simpa using hk)

theorem factor_ne_ors : Ast.Rank.factor ≠ .ors := fun h => Ast.Rank.noConfusion h

theorem ands_ne_ors : Ast.Rank.ands ≠ .ors := fun h => Ast.Rank.noConfusion h

theorem drops_factor (h : Drops wanted .factor e) : Drops wanted .ands e := by
  intro w hk hb
  obtain ⟨ops, hv, hand⟩ := h w hk hb
  exact ⟨ops, hv, fun _ => hand factor_ne_ors⟩

theorem drops_ands (h : Drops wanted .ands e) : Drops wanted .ors e := by
  intro w hk hb
  obtain ⟨ops, hv, -⟩ := h w hk hb
  exact ⟨ops, hv, fun hne => absurd rfl hne⟩

theorem drops_and (hl : Drops wanted .ands l) (hr : Drops wanted .factor r) :
    Drops wanted .ands (.both l r) := by
  intro w hk hb
  rw [Expression.keeps_both, Bool.or_eq_false_iff] at hk
  obtain ⟨ops, hv, hand⟩ := hl w hk.1 hb.1
  have hb₂ := balanced_push .bitAnd hb.2
  obtain ⟨ops', hv', hand'⟩ := hr _ hk.2 hb₂
  refine ⟨ops ++ .bitAnd :: ops', ?_, fun _ => ?_⟩
  · rw [Walk.visit, hv', hv]
    simp [Walk.push]
  · rw [List.forall_mem_append, List.forall_mem_cons]
    exact ⟨hand ands_ne_ors, rfl, hand' factor_ne_ors⟩

theorem drops_or (hl : Drops wanted .ors l) (hr : Drops wanted .ands r) :
    Drops wanted .ors (.either l r) := by
  intro w hk hb
  rw [Expression.keeps_either, Bool.or_eq_false_iff] at hk
  obtain ⟨ops, hv, -⟩ := hl w hk.1 hb.1
  have hb₂ := balanced_push .bitOr hb.2
  obtain ⟨ops', hv', -⟩ := hr _ hk.2 hb₂
  refine ⟨ops ++ .bitOr :: ops', ?_, fun hne => absurd rfl hne⟩
  rw [Walk.visit, hv', hv]
  simp [Walk.push]

theorem keeps_name {n : Str} (hn : IsLicenseName n) : Keeps wanted .factor (.name n) := by
  intro w hk _
  rw [Expression.keeps_name] at hk
  refine ⟨hk, [.string n], .name n, [], ?_, .name hn, ?_, .name n, ?_, fun _ => rfl,
    fun h => absurd trivial h⟩
  · rw [Walk.visit, if_pos hk]
    simp [Walk.write, Expression.names, hk]
  · simp [Expression.names, hk]
  · rw [Expression.prune, if_pos hk]

theorem keeps_group (h : Keeps wanted .ors e) : Keeps wanted .factor (.group e) := by
  intro w hk hb
  have hlead : (w.push .opening).licenses = [] ∨ e.leads wanted := by
    by_cases hl : w.licenses = []
    · exact .inl hl
    · exact .inr (hb.2.1 (Walk.behind_iff.2 hl))
  obtain ⟨ts, e', trail, hv, hreads, hnames, hc⟩ := h (w.push .opening) hb.1 hb.2.2 hlead
  refine ⟨hb.1, .lpar :: ts ++ [.rpar], .group e', trail, ?_, ?_, hnames, hc.group⟩
  · rw [Walk.visit, hv]
    simp [Walk.close, Walk.push, flushed_opening, Expression.names]
  · rw [List.map_append, List.map_cons]
    exact .group hreads

theorem keeps_factor (h : Keeps wanted .factor e) : Keeps wanted .ands e := by
  intro w hk hb
  obtain ⟨hlead, ts, e', trail, hv, hreads, hrest⟩ := h w hk hb
  exact ⟨[], ⟨ts, e', trail, hv, hreads.factor, hrest⟩, fun _ ho => absurd ho List.not_mem_nil,
    iff_of_true rfl hlead⟩

theorem keeps_ands (h : Keeps wanted .ands e) : Keeps wanted .ors e := by
  intro w hk hb hlead
  obtain ⟨lead, ⟨ts, e', trail, hv, hreads, hrest⟩, -, hnil⟩ := h w hk hb
  refine ⟨ts, e', trail, ?_, hreads.ands, hrest⟩
  rw [hv]
  rcases hlead with hl | hl
  · -- Before the first license the operators are not written.
    simp [hl, flushed_nil, count_ops]
  · rw [hnil.2 hl]

theorem keeps_and (hl : Keeps wanted .ands l) (hdl : Drops wanted .ands l)
    (hr : Keeps wanted .factor r) (hdr : Drops wanted .factor r) :
    Keeps wanted .ands (.both l r) := by
  intro w hk hb
  have hb₂ := balanced_push .bitAnd hb.2
  by_cases hkl : l.keeps wanted
  · obtain ⟨lead, ⟨ts, l', trail, hv, hreads, hnames, hc⟩, hand, hnil⟩ := hl w hkl hb.1
    refine ⟨lead, ?_, hand, hnil⟩
    by_cases hkr : r.keeps wanted
    · obtain ⟨-, us, r', trail', hv', hreads', hnames', hc'⟩ := hr _ hkr hb₂
      refine ⟨ts ++ .amp :: us, .both l' r', trail', ?_, ?_, ?_, hc.both hc'⟩
      · have hamp := flushed_ops (append_names_ne_nil w.licenses hkl) trail .bitAnd
        rw [List.map_append, List.map_singleton] at hamp
        rw [Walk.visit, hv', hv]
        simp [Walk.push, hamp, binToken, Expression.names]
      · rw [List.map_append, List.map_cons]
        exact hreads.and hreads'
      · rw [Expression.names, hnames, hnames', Expression.names, List.filter_append]
    · have hkr : r.keeps wanted = false := by simpa using hkr
      obtain ⟨ops, hv', -⟩ := hdr _ hkr hb₂
      refine ⟨ts, l', trail ++ .bitAnd :: ops, ?_, hreads, ?_,
        hc.left (Expression.prune_of_not_keeps hkr) (ordered_of_dropped hkr hb.2)⟩
      · rw [Walk.visit, hv', hv]
        simp [Walk.push, Expression.names, filter_names_of_dropped hkr]
      · rw [hnames, Expression.names, List.filter_append, filter_names_of_dropped hkr,
          List.append_nil]
  · have hkl : l.keeps wanted = false := by simpa using hkl
    have hkr : r.keeps wanted := by simpa [hkl] using hk
    obtain ⟨ops, hv, hand⟩ := hdl w hkl hb.1
    obtain ⟨-, us, r', trail', hv', hreads', hnames', hc'⟩ := hr _ hkr hb₂
    refine ⟨ops ++ [.bitAnd], ⟨us, r', trail', ?_, hreads'.factor, ?_,
      hc'.right (Expression.prune_of_not_keeps hkl) (ordered_of_dropped hkl hb.1)⟩, ?_, ?_⟩
    · rw [Walk.visit, hv', hv]
      simp [Walk.push, Expression.names, filter_names_of_dropped hkl]
    · rw [hnames', Expression.names, List.filter_append, filter_names_of_dropped hkl,
        List.nil_append]
    · rw [List.forall_mem_append]
      exact ⟨hand ands_ne_ors, List.forall_mem_singleton.2 rfl⟩
    · refine iff_of_false (by simp) fun h => ?_
      rw [keeps_of_leads (e := l) h] at hkl
      exact Bool.noConfusion hkl

theorem keeps_or (hl : Keeps wanted .ors l) (hdl : Drops wanted .ors l)
    (hr : Keeps wanted .ands r) (hdr : Drops wanted .ands r) :
    Keeps wanted .ors (.either l r) := by
  intro w hk hb hlead
  have hb₂ := balanced_push .bitOr hb.2
  by_cases hkl : l.keeps wanted
  · obtain ⟨ts, l', trail, hv, hreads, hnames, hc⟩ := hl w hkl hb.1 hlead
    by_cases hkr : r.keeps wanted
    · obtain ⟨lead, ⟨us, r', trail', hv', hreads', hnames', hc'⟩, hand, hnil⟩ := hr _ hkr hb₂
      have hlast := flushed_ops (append_names_ne_nil w.licenses hkl)
      cases lead using List.reverseRecOn with
      | nil =>
        have hbar := hlast trail .bitOr
        rw [List.map_append, List.map_singleton] at hbar
        refine ⟨ts ++ .bar :: us, .either l' r', trail', ?_, ?_, ?_, hc.either hc' (hnil.1 rfl)⟩
        · rw [Walk.visit, hv', hv]
          simp [Walk.push, hbar, binToken, Expression.names]
        · rw [List.map_append, List.map_cons]
          exact hreads.or hreads'
        · rw [Expression.names, hnames, hnames', Expression.names, List.filter_append]
      | append_singleton lead o =>
        -- The last operator that is pending is a `&` of the right side.
        obtain rfl : o = .bitAnd := hand o (by simp)
        have hamp := hlast (trail ++ .bitOr :: lead) .bitAnd
        have hlead' : r.leads wanted = false := by
          by_contra hne
          exact absurd (hnil.2 (by simpa using hne)) (by simp)
        obtain ⟨e', he', hen, hew⟩ := reads_join_or hreads hreads'
        refine ⟨ts ++ .amp :: us, e', trail', ?_, ?_, ?_, hc.joined hc' hkl hkr hlead' hew⟩
        · rw [Walk.visit, hv', hv]
          simp only [List.map_append, List.map_cons, List.map_nil, List.append_assoc,
            List.cons_append] at hamp
          simp [Walk.push, hamp, binToken, Expression.names]
        · rw [List.map_append, List.map_cons]
          exact he'
        · rw [hen, hnames, hnames', Expression.names, List.filter_append]
    · have hkr : r.keeps wanted = false := by simpa using hkr
      obtain ⟨ops, hv', -⟩ := hdr _ hkr hb₂
      refine ⟨ts, l', trail ++ .bitOr :: ops, ?_, hreads, ?_,
        hc.leftSide hkr (ordered_of_dropped hkr hb.2)⟩
      · rw [Walk.visit, hv', hv]
        simp [Walk.push, Expression.names, filter_names_of_dropped hkr]
      · rw [hnames, Expression.names, List.filter_append, filter_names_of_dropped hkr,
          List.append_nil]
  · have hkl : l.keeps wanted = false := by simpa using hkl
    have hkr : r.keeps wanted := by simpa [hkl] using hk
    have hl : w.licenses = [] := by
      refine hlead.resolve_right fun h => ?_
      rw [keeps_of_leads (e := l) h] at hkl
      exact Bool.noConfusion hkl
    obtain ⟨ops, hv, -⟩ := hdl w hkl hb.1
    obtain ⟨lead, ⟨us, r', trail', hv', hreads', hnames', hc'⟩, -⟩ := hr _ hkr hb₂
    refine ⟨us, r', trail', ?_, hreads'.ands, ?_,
      hc'.rightSide hkl (ordered_of_dropped hkl hb.1)⟩
    · rw [Walk.visit, hv', hv]
      simp [Walk.push, Expression.names, filter_names_of_dropped hkl, hl, flushed_nil, count_ops,
        List.count_append]
    · rw [hnames', Expression.names, List.filter_append, filter_names_of_dropped hkl,
        List.nil_append]

theorem Reads.drops (h : Reads k ps e) : Drops wanted k e := by
  induction h with
  | name _ => exact drops_name
  | group _ _ => exact drops_group
  | factor _ ih => exact drops_factor ih
  | and _ _ ihl ihr => exact drops_and ihl ihr
  | sideBySide _ _ _ ih => exact drops_and ih drops_name
  | ands _ ih => exact drops_ands ih
  | or _ _ ihl ihr => exact drops_or ihl ihr

theorem Reads.keeps (h : Reads k ps e) : Keeps wanted k e := by
  induction h with
  | name hn => exact keeps_name hn
  | group _ ih => exact keeps_group ih
  | factor _ ih => exact keeps_factor ih
  | and hl hr ihl ihr => exact keeps_and ihl hl.drops ihr hr.drops
  | sideBySide hl _ hn ih => exact keeps_and ih hl.drops (keeps_name hn) drops_name
  | ands _ ih => exact keeps_ands ih
  | or hl hr ihl ihr => exact keeps_or ihl hl.drops ihr hr.drops

theorem Reads.isLicenseName (h : Reads k ps e) : ∀ n ∈ e.names, IsLicenseName n := by
  induction h with
  | name hn => exact List.forall_mem_singleton.2 hn
  | group _ ih => exact ih
  | factor _ ih => exact ih
  | and _ _ ihl ihr => exact List.forall_mem_append.2 ⟨ihl, ihr⟩
  | sideBySide _ _ hn ih => exact List.forall_mem_append.2 ⟨ih, List.forall_mem_singleton.2 hn⟩
  | ands _ ih => exact ih
  | or _ _ ihl ihr => exact List.forall_mem_append.2 ⟨ihl, ihr⟩

/-! ### The manifest -/

/-- A manifest for what is left of an expression: nothing, or a license expression that is equivalent
to it, and its names. -/
def IsManifest (left : Option Expression) (licensestr : Str) (licenses : List Str) : Prop :=
  match left with
  | none => licensestr = [] ∧ licenses = []
  | some p => ∃ e', IsExpression licensestr e' ∧ e'.tree.Equivalent p.tree ∧ licenses = e'.names

/-- The expression of a node, as what it requires. -/
def nodeTree : Ast.Node → AndOr Str
  | .constant n => .leaf n
  | .binOp l .bitAnd r => .both (nodeTree l) (nodeTree r)
  | .binOp l .bitOr r => .either (nodeTree l) (nodeTree r)
  | _ => .leaf []

theorem nodeTree_node : ∀ e : Expression, nodeTree (e.node id) = e.tree
  | .name n => rfl
  | .group e => nodeTree_node e
  | .both l r => by
    rw [Expression.node, nodeTree, nodeTree_node l, nodeTree_node r, Expression.tree]
  | .either l r => by
    rw [Expression.node, nodeTree, nodeTree_node l, nodeTree_node r, Expression.tree]

variable {licensestr : Str}

theorem parse_getElements (h : IsExpression licensestr e) {ts : List Ast.Token}
    (hts : getElements licensestr = .ok ts) : Ast.parse ts = some (some (e.node id)) := by
  obtain ⟨us, hus, hparse⟩ := parse_elements roundGrouping h
  rw [hts] at hus
  cases hus
  simpa [roundGrouping] using hparse

/-- A string requires one thing. -/
theorem IsExpression.tree_eq (h : IsExpression licensestr e) (h' : IsExpression licensestr e') :
    e.tree = e'.tree := by
  obtain ⟨ts, hts, -⟩ := parse_elements roundGrouping h
  have heq := (parse_getElements h hts).symm.trans (parse_getElements h' hts)
  rw [← nodeTree_node, ← nodeTree_node, Option.some.inj (Option.some.inj heq)]

theorem groupText_ne_nil {t : Ast.Token} (h : IsToken t) : groupText t ≠ [] := by
  cases t with
  | string n => exact h.1
  | _ => exact List.cons_ne_nil _ _

section Manifest
variable (dontWantLicenses : List Str) (canonicalLicense : Str → Str)

/-- What the walk has written at the end, as text and as tokens. -/
theorem manifestLicenses_walk (h : IsExpression licensestr e) :
    let w := Walk.start.visit (isWanted dontWantLicenses canonicalLicense) e
    w.Written ∧ manifestLicenses licensestr dontWantLicenses canonicalLicense =
      .ok (w.out.flatMap groupText, w.licenses) := by
  intro w
  have hw : w.Written := Walk.ready_start.visit e (Reads.isLicenseName h)
  refine ⟨hw, ?_⟩
  rw [manifestLicenses_eq h, map_roundChar_text hw.separated.isToken]

/-- A bracket came too late: the string is no expression, and it is not empty. -/
theorem not_isManifest_of_broken (hw : w.Written) (hb : w.Broken) (left : Option Expression) :
    ¬ IsManifest left (w.out.flatMap groupText) w.licenses := by
  intro hm
  cases left with
  | none =>
    have hout : w.out = [] := by
      rw [List.eq_nil_iff_forall_not_mem]
      intro t ht
      exact groupText_ne_nil (hw.separated.isToken t ht) (List.flatMap_eq_nil_iff.1 hm.1 t ht)
    rw [Walk.Broken, hout] at hb
    exact absurd hb (by simp)
  | some p =>
    obtain ⟨e, he, -, -⟩ := hm
    have hparse := parse_getElements he (getElements_text hw.separated)
    rw [Ast.parse, show Ast.Parser.start.run w.out = none from hb] at hparse
    cases hparse

/-- What is written behind an empty string. -/
theorem isManifest_of_writes (hw : (Walk.start.visit wanted e).Written)
    (hwrites : Writes wanted .ors e .start []) :
    IsManifest (e.prune wanted) ((Walk.start.visit wanted e).out.flatMap groupText)
      (Walk.start.visit wanted e).licenses ↔ e.Ordered wanted := by
  obtain ⟨ts, e', trail, hv, hreads, hnames, p, hp, heq, hlt⟩ := hwrites
  have hflushed : flushed [] [] = [] := rfl
  have hout : (Walk.start.visit wanted e).out = ts := by
    rw [hv]
    simp [Walk.start, hflushed]
  have hlic : (Walk.start.visit wanted e).licenses = e'.names := by
    rw [hv, hnames]
    rfl
  have hexp : IsExpression (ts.flatMap groupText) e' := by
    rw [IsExpression, licensePieces_text (hout ▸ hw.separated)]
    exact hreads
  rw [hp, hout, hlic]
  constructor
  · rintro ⟨e₂, he₂, hequiv, -⟩
    by_contra ho
    have hweight := hequiv.weight_eq
    rw [he₂.tree_eq hexp] at hweight
    exact absurd hweight (hlt ho).ne'
  · intro ho
    obtain rfl := heq ho
    exact ⟨e', hexp, .refl _, rfl⟩

/-- The string and the list are a manifest exactly if no group loses all its names, the groups behind
a name that stays keep their first operand, and so do the right sides of a `|` of which both sides
keep something. -/
theorem manifest_licenses_iff (h : IsExpression licensestr e) :
    (∃ str licenses, manifestLicenses licensestr dontWantLicenses canonicalLicense =
        .ok (str, licenses) ∧
      IsManifest (e.prune (isWanted dontWantLicenses canonicalLicense)) str licenses) ↔
    e.Balanced (isWanted dontWantLicenses canonicalLicense) false ∧
      e.Ordered (isWanted dontWantLicenses canonicalLicense) := by
  obtain ⟨hw, hout⟩ := manifestLicenses_walk dontWantLicenses canonicalLicense h
  generalize isWanted dontWantLicenses canonicalLicense = wanted at hw hout ⊢
  have hmanifest : (∃ str licenses, manifestLicenses licensestr dontWantLicenses canonicalLicense =
      .ok (str, licenses) ∧ IsManifest (e.prune wanted) str licenses) ↔
      IsManifest (e.prune wanted) ((Walk.start.visit wanted e).out.flatMap groupText)
        (Walk.start.visit wanted e).licenses := by
    rw [hout]
    constructor
    · rintro ⟨str, licenses, heq, hm⟩
      cases heq
      exact hm
    · exact fun hm => ⟨_, _, rfl, hm⟩
  rw [hmanifest]
  by_cases hb : e.Balanced wanted false
  · rw [and_iff_right hb]
    by_cases hk : e.keeps wanted
    · exact isManifest_of_writes hw (Reads.keeps h Walk.start hk hb (.inl rfl))
    · have hk : e.keeps wanted = false := by simpa using hk
      obtain ⟨ops, hv, -⟩ := Reads.drops h Walk.start hk hb
      rw [Expression.prune_of_not_keeps hk, hv]
      exact iff_of_true ⟨rfl, rfl⟩ (ordered_of_dropped hk hb)
  · have hdepth : Walk.start.Depth 0 := by
      intro p hp
      cases hp
      rfl
    have hstale : (Walk.start.visit wanted e).Stale :=
      Walk.stale_of_not_balanced e (Reads.isLicenseName h) Walk.ready_start hb
    have hbroken := hstale.broken (hdepth.visit e)
    exact iff_of_false (not_isManifest_of_broken hw hbroken _) fun hc => hb hc.1

end Manifest

theorem manifest_licenses_iff_and : ∃ str licenses,
    manifestLicenses "MIT & GPL".toList ["GPL".toList] id = .ok (str, licenses) ∧
    IsManifest ((Expression.both (.name "MIT".toList) (.name "GPL".toList)).prune
      (isWanted ["GPL".toList] id)) str licenses := by
  have hexp : IsExpression "MIT & GPL".toList
      (.both (.name "MIT".toList) (.name "GPL".toList)) := by
    have hpieces : licensePieces "MIT & GPL".toList =
        ["MIT".toList] ++ ['&'] :: ["GPL".toList] := by decide
    rw [IsExpression, hpieces]
    exact .ands (.and (.factor (.name (by decide))) (.name (by decide)))
  exact (manifest_licenses_iff ["GPL".toList] id hexp).2 (by decide)

/-- A group that loses its names leaves its bracket in front. -/
theorem emptiedGroup_fails : ¬ ∀ (licensestr : Str) (e : Expression) (dontWantLicenses : List Str)
    (canonicalLicense : Str → Str), IsExpression licensestr e →
    ∃ str licenses, manifestLicenses licensestr dontWantLicenses canonicalLicense =
      .ok (str, licenses) ∧
    IsManifest (e.prune (isWanted dontWantLicenses canonicalLicense)) str licenses := by
  intro hall
  have hexp : IsExpression "(GPL) | MIT".toList
      (.either (.group (.name "GPL".toList)) (.name "MIT".toList)) := by
    have hpieces : licensePieces "(GPL) | MIT".toList =
        ['('] :: ["GPL".toList] ++ [[')']] ++ ['|'] :: ["MIT".toList] := by decide
    rw [IsExpression, hpieces]
    exact .or (.ands (.factor (.group (.ands (.factor (.name (by decide)))))))
      (.factor (.name (by decide)))
  obtain ⟨str, licenses, heq, hm⟩ := hall _ _ ["GPL".toList] id hexp
  have hrun : manifestLicenses "(GPL) | MIT".toList ["GPL".toList] id =
      .ok (")(MIT".toList, ["MIT".toList]) := by decide
  rw [hrun] at heq
  cases heq
  obtain ⟨e', he', -, -⟩ := hm
  have hts : getElements ")(MIT".toList = .ok [.rpar, .lpar, .string "MIT".toList] := by decide
  have hparse := parse_getElements he' hts
  have hnone : Ast.parse [.rpar, .lpar, .string "MIT".toList] = none := by decide
  rw [hnone] at hparse
  cases hparse

end Oe
end OpenBmc
