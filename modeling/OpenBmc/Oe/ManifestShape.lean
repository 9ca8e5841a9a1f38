import OpenBmc.Oe.ManifestWalk

/-!
# When a manifest is well formed

The visitor writes `]` at the end of a group that it has dropped, and writes the `[` later; and it
writes an operator behind a `[` when the first operand of the group is dropped. After either no text
makes the string an expression again.
-/

namespace OpenBmc
namespace Oe
open Py

namespace Expression
variable (wanted : Str → Bool)

/-- The expression without the operands that are not wanted, the groups that become empty, and their
operators. -/
def prune : Expression → Option Expression
  | name n => if wanted n then some (name n) else none
  | group e => (prune e).map group
  | both l r =>
    match prune l, prune r with
    | some l, some r => some (both l r)
    | some l, none => some l
    | none, r => r
  | either l r =>
    match prune l, prune r with
    | some l, some r => some (either l r)
    | some l, none => some l
    | none, r => r

/-- A name of the expression stays. -/
def keeps (e : Expression) : Bool := e.names.any wanted

/-- The first operand stays. -/
def leads : Expression → Bool
  | name n => wanted n
  | group e => e.keeps wanted
  | both l _ => leads l
  | either l _ => leads l

/-- No group loses all its names, and the groups behind a name that stays keep their first operand.
`behind` says whether a name in front of the expression stays. -/
def Balanced : Bool → Expression → Prop
  | _, name _ => True
  | behind, group e => e.keeps wanted ∧ (behind → e.leads wanted) ∧ Balanced behind e
  | behind, both l r => Balanced behind l ∧ Balanced (behind || l.keeps wanted) r
  | behind, either l r => Balanced behind l ∧ Balanced (behind || l.keeps wanted) r

/-- The right side of a `|` keeps its first operand, if both sides keep something. -/
def Ordered : Expression → Prop
  | name _ => True
  | group e => Ordered e
  | both l r => Ordered l ∧ Ordered r
  | either l r => Ordered l ∧ Ordered r ∧ (l.keeps wanted → r.keeps wanted → r.leads wanted)

instance decidableBalanced : ∀ (b : Bool) (e : Expression), Decidable (e.Balanced wanted b)
  | _, name _ => isTrue trivial
  | b, group e =>
    have := decidableBalanced b e
    inferInstanceAs (Decidable (_ ∧ _ ∧ _))
  | b, both l r =>
    have := decidableBalanced b l
    have := decidableBalanced (b || l.keeps wanted) r
    inferInstanceAs (Decidable (_ ∧ _))
  | b, either l r =>
    have := decidableBalanced b l
    have := decidableBalanced (b || l.keeps wanted) r
    inferInstanceAs (Decidable (_ ∧ _))

instance decidableOrdered : ∀ e : Expression, Decidable (e.Ordered wanted)
  | name _ => isTrue trivial
  | group e => decidableOrdered e
  | both l r =>
    have := decidableOrdered l
    have := decidableOrdered r
    inferInstanceAs (Decidable (_ ∧ _))
  | either l r =>
    have := decidableOrdered l
    have := decidableOrdered r
    inferInstanceAs (Decidable (_ ∧ _ ∧ _))

variable {wanted}

@[simp] theorem keeps_name {n : Str} : (name n).keeps wanted = wanted n := by simp [keeps, names]

@[simp] theorem keeps_group {e : Expression} : (group e).keeps wanted = e.keeps wanted := rfl

@[simp] theorem keeps_both {l r : Expression} :
    (both l r).keeps wanted = (l.keeps wanted || r.keeps wanted) := by simp [keeps, names]

@[simp] theorem keeps_either {l r : Expression} :
    (either l r).keeps wanted = (l.keeps wanted || r.keeps wanted) := by simp [keeps, names]

theorem isSome_prune : ∀ e : Expression, (e.prune wanted).isSome = e.keeps wanted
  | name n => by
    rw [prune, keeps_name]
    split_ifs with h <;> simp [h]
  | group e => by simp [prune, isSome_prune e]
  | both l r => by
    rw [keeps_both, ← isSome_prune l, ← isSome_prune r, prune]
    cases l.prune wanted <;> cases r.prune wanted <;> rfl
  | either l r => by
    rw [keeps_either, ← isSome_prune l, ← isSome_prune r, prune]
    cases l.prune wanted <;> cases r.prune wanted <;> rfl

theorem prune_of_not_keeps {e : Expression} (h : e.keeps wanted = false) :
    e.prune wanted = none := by
  rw [← isSome_prune] at h
  simpa using h

end Expression

variable {wanted : Str → Bool} {e l r : Expression} {w : Walk}

/-! ### Invariants of the walk -/

namespace Walk

theorem licenses_visit : ∀ (e : Expression) (w : Walk),
    (w.visit wanted e).licenses = w.licenses ++ e.names.filter wanted
  | .name n, w => by
    rw [visit, Expression.names]
    split_ifs with h <;> simp [h, write]
  | .group e, w => licenses_visit e _
  | .both l r, w => by
    rw [visit, licenses_visit r, Expression.names, List.filter_append, ← List.append_assoc]
    exact congrArg (· ++ _) (licenses_visit l w)
  | .either l r, w => by
    rw [visit, licenses_visit r, Expression.names, List.filter_append, ← List.append_assoc]
    exact congrArg (· ++ _) (licenses_visit l w)

/-- A license was written. -/
def behind (w : Walk) : Bool := decide (w.licenses ≠ [])

theorem behind_iff : w.behind = true ↔ w.licenses ≠ [] := decide_eq_true_iff

theorem behind_visit (wanted : Str → Bool) (e : Expression) (w : Walk) :
    (w.visit wanted e).behind = (w.behind || e.keeps wanted) := by
  have hkeeps : e.keeps wanted = decide (e.names.filter wanted ≠ []) := by
    rw [Expression.keeps, Bool.eq_iff_iff, decide_eq_true_iff, List.any_eq_true, Ne,
      List.filter_eq_nil_iff]
    simp
  rw [behind, licenses_visit, behind, hkeeps, Bool.eq_iff_iff]
  simp [or_iff_not_imp_left]

/-- What is written: tokens apart from each other, and nothing but closing brackets before the first
license. -/
structure Written (w : Walk) : Prop where
  separated : Separated w.out
  closing : w.licenses = [] → ∀ t ∈ w.out, t = .rpar

/-- An operand may follow: behind a name an operator or a bracket is pending. -/
structure Ready (w : Walk) : Prop extends Written w where
  pending : ∀ t ∈ w.out.getLast?, isName t → w.pending ≠ []

theorem Written.push (h : w.Written) (p : Pending) : (w.push p).Ready :=
  ⟨⟨h.separated, h.closing⟩, fun _ _ _ => by simp [Walk.push]⟩

theorem Separated.concat {ts : List Ast.Token} {t : Ast.Token} (h : Separated ts) (ht : IsToken t)
    (hapart : ∀ u ∈ ts.getLast?, ¬ (isName u ∧ isName t)) : Separated (ts ++ [t]) := by
  refine ⟨?_, ?_⟩
  · rw [List.forall_mem_append]
    exact ⟨h.isToken, List.forall_mem_singleton.2 ht⟩
  · refine List.isChain_append.2 ⟨h.apart, .singleton t, fun u hu v hv => ?_⟩
    cases hv
    exact hapart u hu

theorem Written.close (h : w.Written) : w.close.Written :=
  ⟨Separated.concat h.separated trivial fun _ _ hn => Bool.false_ne_true hn.2,
    fun hl => List.forall_mem_append.2 ⟨h.closing hl, List.forall_mem_singleton.2 rfl⟩⟩

theorem Ready.write (h : w.Ready) {n : Str} (hn : IsLicenseName n) : (w.write n).Written := by
  have hflushed : ∀ t ∈ flushed w.licenses w.pending, IsToken t ∧ ¬ isName t := by
    intro t ht
    rcases mem_flushed ht with rfl | rfl | rfl <;> exact ⟨trivial, Bool.false_ne_true⟩
  have hout : Separated (w.out ++ flushed w.licenses w.pending) := by
    refine ⟨?_, List.isChain_append.2 ⟨h.separated.apart, ?_, ?_⟩⟩
    · exact List.forall_mem_append.2 ⟨h.separated.isToken, fun t ht => (hflushed t ht).1⟩
    · refine List.isChain_iff_forall_rel_of_append_cons_cons.2 fun a b l₁ l₂ heq hab => ?_
      exact (hflushed a (by rw [heq]; simp)).2 hab.1
    · intro a _ b hb hab
      exact (hflushed b (List.mem_of_mem_head? hb)).2 hab.2
  refine ⟨Separated.concat hout hn fun t ht hname => ?_, fun hl => by simp [Walk.write] at hl⟩
  rw [List.getLast?_append] at ht
  cases hlast : (flushed w.licenses w.pending).getLast? with
  | some u =>
    rw [hlast] at ht
    cases ht
    exact (hflushed t (List.mem_of_mem_getLast? hlast)).2 hname.1
  | none =>
    -- The name before would have to be followed by what is pending.
    rw [hlast, Option.none_or] at ht
    have hne : w.licenses ≠ [] := by
      intro hl
      rw [h.closing hl t (List.mem_of_mem_getLast? ht)] at hname
      exact Bool.false_ne_true hname.1
    exact flushed_ne_nil hne (h.pending t ht hname.1) (List.getLast?_eq_none_iff.1 hlast)

theorem Ready.visit : ∀ (e : Expression) {w : Walk}, (∀ n ∈ e.names, IsLicenseName n) →
    w.Ready → (w.visit wanted e).Written
  | .name n, w, hn, h => by
    rw [Walk.visit]
    split_ifs
    · exact h.write (hn n (List.mem_singleton_self n))
    · exact h.toWritten
  | .group e, w, hn, h => (Ready.visit e hn (h.toWritten.push .opening)).close
  | .both l r, w, hn, h => by
    rw [Expression.names, List.forall_mem_append] at hn
    exact Ready.visit r hn.2 ((Ready.visit l hn.1 h).push _)
  | .either l r, w, hn, h => by
    rw [Expression.names, List.forall_mem_append] at hn
    exact Ready.visit r hn.2 ((Ready.visit l hn.1 h).push _)

theorem ready_start : start.Ready := by
  refine ⟨⟨⟨?_, .nil⟩, ?_⟩, ?_⟩ <;> simp [start]

/-! ### Brackets that come too late -/

/-- What is written up to here is no beginning of an expression. -/
def Broken (w : Walk) : Prop := Ast.Parser.start.run w.out = none

/-- Behind an operand a bracket is pending, though its group is closed or has lost its first operand. -/
def Stale (w : Walk) : Prop := w.Broken ∨ (w.licenses ≠ [] ∧ .opening ∈ w.pending)

/-- An operator is pending behind a bracket. -/
def Doomed (w : Walk) : Prop :=
  w.Broken ∨ (w.licenses ≠ [] ∧ ∃ a o b, w.pending = a ++ .opening :: .op o :: b)

theorem Broken.append (h : w.Broken) {out : List Ast.Token} (hout : w.out <+: out) :
    Ast.Parser.start.run out = none := by
  obtain ⟨ts, rfl⟩ := hout
  rw [Ast.Parser.run_append, h]
  rfl

theorem Doomed.stale (h : w.Doomed) : w.Stale := by
  obtain h | ⟨hl, a, o, b, hp⟩ := h
  · exact .inl h
  · exact .inr ⟨hl, by rw [hp]; simp⟩

theorem Doomed.push (h : w.Doomed) (p : Pending) : (w.push p).Doomed := by
  obtain h | ⟨hl, a, o, b, hp⟩ := h
  · exact .inl h
  · exact .inr ⟨hl, a, o, b ++ [p], by simp [Walk.push, hp]⟩

theorem Doomed.close (h : w.Doomed) : w.close.Doomed := by
  obtain h | h := h
  · exact .inl (h.append (List.prefix_append _ _))
  · exact .inr h

theorem run_lpar_op (p : Ast.Parser) (o : Ast.BinOperator) (ts : List Ast.Token) :
    p.run (.lpar :: binToken o :: ts) = none := by
  cases o <;> rfl

theorem Doomed.write (h : w.Doomed) (n : Str) : (w.write n).Broken := by
  obtain h | ⟨hl, a, o, b, hp⟩ := h
  · exact h.append (by rw [Walk.write, List.append_assoc]; exact List.prefix_append _ _)
  · obtain ⟨x, o', y, hflush⟩ := flushed_opening_op hl a b o
    have hout : (w.write n).out = w.out ++ x ++ .lpar :: binToken o' :: (y ++ [.string n]) := by
      simp [Walk.write, hp, hflush]
    rw [Broken, hout, Ast.Parser.run_append]
    cases Ast.Parser.start.run (w.out ++ x) with
    | none => rfl
    | some p => exact run_lpar_op p o' _

theorem Doomed.visit : ∀ (e : Expression) {w : Walk}, w.Doomed → (w.visit wanted e).Doomed
  | .name n, w, h => by
    rw [Walk.visit]
    split_ifs
    · exact .inl (h.write n)
    · exact h
  | .group e, w, h => (Doomed.visit e (h.push _)).close
  | .both l r, w, h => Doomed.visit r ((Doomed.visit l h).push _)
  | .either l r, w, h => Doomed.visit r ((Doomed.visit l h).push _)

theorem Stale.push (h : w.Stale) (o : Ast.BinOperator) : (w.push (.op o)).Doomed := by
  obtain h | ⟨hl, hp⟩ := h
  · exact .inl h
  · refine .inr ⟨hl, ?_⟩
    obtain ⟨b, a, hba, hnot⟩ := List.eq_append_cons_of_mem (List.mem_reverse.2 hp)
    have hsplit : w.pending = a.reverse ++ .opening :: b.reverse := by
      rw [← List.reverse_reverse w.pending, hba]
      simp
    rw [Walk.push, hsplit]
    cases hb : b.reverse with
    | nil => exact ⟨a.reverse, o, [], by simp⟩
    | cons p c =>
      cases p with
      | opening => exact absurd (by rw [← List.mem_reverse, hb]; exact List.mem_cons_self) hnot
      | op o' => exact ⟨a.reverse, o', c ++ [.op o], by simp⟩

theorem Stale.close (h : w.Stale) : w.close.Stale := by
  obtain h | h := h
  · exact .inl (h.append (List.prefix_append _ _))
  · exact .inr h

theorem Stale.visit (h : w.Stale) (o : Ast.BinOperator) (e : Expression) :
    ((w.push (.op o)).visit wanted e).Stale := ((h.push o).visit e).stale

/-- What a walk over operands does of which none is wanted. -/
structure Dropped (w w' : Walk) : Prop where
  licenses : w'.licenses = w.licenses
  pending : w.pending <+: w'.pending
  out : ∃ k, w'.out = w.out ++ List.replicate k .rpar

theorem Dropped.refl (w : Walk) : Dropped w w := ⟨rfl, List.prefix_rfl, 0, by simp⟩

theorem Dropped.trans {w₁ w₂ : Walk} (h : Dropped w w₁) (h' : Dropped w₁ w₂) : Dropped w w₂ := by
  obtain ⟨k, hk⟩ := h.out
  obtain ⟨k', hk'⟩ := h'.out
  exact ⟨h'.licenses.trans h.licenses, h.pending.trans h'.pending, k + k', by
    rw [hk', hk, List.append_assoc, List.replicate_append_replicate]⟩

theorem dropped_push (w : Walk) (p : Pending) : Dropped w (w.push p) :=
  ⟨rfl, List.prefix_append _ _, 0, (List.append_nil _).symm⟩

theorem dropped_close (w : Walk) : Dropped w w.close := ⟨rfl, List.prefix_rfl, 1, rfl⟩

theorem dropped_visit : ∀ (e : Expression) (w : Walk), e.keeps wanted = false →
    Dropped w (w.visit wanted e)
  | .name n, w, h => by
    rw [Expression.keeps_name] at h
    rw [Walk.visit, h]
    exact .refl w
  | .group e, w, h =>
    ((dropped_push w .opening).trans (dropped_visit e _ h)).trans (dropped_close _)
  | .both l r, w, h => by
    rw [Expression.keeps_both, Bool.or_eq_false_iff] at h
    exact ((dropped_visit l w h.1).trans (dropped_push _ _)).trans (dropped_visit r _ h.2)
  | .either l r, w, h => by
    rw [Expression.keeps_either, Bool.or_eq_false_iff] at h
    exact ((dropped_visit l w h.1).trans (dropped_push _ _)).trans (dropped_visit r _ h.2)

/-- A group that loses all its names. -/
theorem stale_emptied (h : w.Ready) (he : e.keeps wanted = false) :
    (w.visit wanted (.group e)).Stale := by
  have hd := dropped_visit e (w.push .opening) he
  by_cases hl : w.licenses = []
  · -- Nothing but closing brackets is written.
    obtain ⟨k, hk⟩ := hd.out
    have hall : ∀ t ∈ (w.visit wanted (.group e)).out, t = .rpar := by
      intro t ht
      rw [Walk.visit, Walk.close, hk, List.mem_append, List.mem_append] at ht
      rcases ht with (ht | ht) | ht
      · exact h.closing hl t ht
      · exact List.eq_of_mem_replicate ht
      · exact List.mem_singleton.1 ht
    refine .inl ?_
    cases hout : (w.visit wanted (.group e)).out with
    | nil => simp [Walk.visit, Walk.close] at hout
    | cons t ts =>
      rw [hall t (by rw [hout]; exact List.mem_cons_self)] at hout
      rw [Broken, hout]
      rfl
  · refine .inr ⟨?_, ?_⟩
    · exact fun hnil => hl (hd.licenses.symm.trans hnil)
    · exact hd.pending.subset (by simp [Walk.push])

/-- A first operand that is dropped behind a bracket. -/
theorem stale_of_not_leads : ∀ (e : Expression) {w : Walk}, w.Ready → w.licenses ≠ [] →
    .opening ∈ w.pending → e.leads wanted = false → (w.visit wanted e).Stale
  | .name n, w, _, hl, hp, he => by
    rw [Expression.leads] at he
    rw [Walk.visit, he]
    exact .inr ⟨hl, hp⟩
  | .group e, w, h, _, _, he => stale_emptied h he
  | .both l r, w, h, hl, hp, he => (stale_of_not_leads l h hl hp he).visit _ r
  | .either l r, w, h, hl, hp, he => (stale_of_not_leads l h hl hp he).visit _ r

theorem stale_of_not_balanced : ∀ (e : Expression) {w : Walk}, (∀ n ∈ e.names, IsLicenseName n) →
    w.Ready → ¬ e.Balanced wanted w.behind → (w.visit wanted e).Stale
  | .name n, w, _, _, hb => absurd trivial hb
  | .group e, w, hn, h, hb => by
    by_cases hk : e.keeps wanted
    · refine Stale.close ?_
      by_cases hlead : w.behind → e.leads wanted
      · exact stale_of_not_balanced e hn (h.toWritten.push _) fun hbal => hb ⟨hk, hlead, hbal⟩
      · obtain ⟨hbehind, hlead⟩ := Classical.not_imp.1 hlead
        exact stale_of_not_leads e (h.toWritten.push _) (behind_iff.1 hbehind)
          (by simp [Walk.push]) (by simpa using hlead)
    · exact stale_emptied h (by simpa using hk)
  | .both l r, w, hn, h, hb => by
    rw [Expression.names, List.forall_mem_append] at hn
    by_cases hbl : l.Balanced wanted w.behind
    · refine stale_of_not_balanced r hn.2 ((Ready.visit l hn.1 h).push _) fun hbr => hb ⟨hbl, ?_⟩
      rwa [← behind_visit]
    · exact (stale_of_not_balanced l hn.1 h hbl).visit _ r
  | .either l r, w, hn, h, hb => by
    rw [Expression.names, List.forall_mem_append] at hn
    by_cases hbl : l.Balanced wanted w.behind
    · refine stale_of_not_balanced r hn.2 ((Ready.visit l hn.1 h).push _) fun hbr => hb ⟨hbl, ?_⟩
      rwa [← behind_visit]
    · exact (stale_of_not_balanced l hn.1 h hbl).visit _ r

/-! ### Brackets that are counted -/

/-- The brackets that are open: those that are written and those that are pending. -/
def Depth (d : Int) (w : Walk) : Prop :=
  ∀ p, Ast.Parser.start.run w.out = some p → p.outer.length + w.pending.count .opening = d

theorem sum_nesting_flushed (licenses : List Str) (q : List Pending) :
    ((flushed licenses q).map Ast.nesting).sum = q.count .opening := by
  rw [← count_flushed licenses]
  have hmem : ∀ t ∈ flushed licenses q, t = .lpar ∨ t = .amp ∨ t = .bar :=
    fun t ht => mem_flushed ht
  generalize flushed licenses q = ts at hmem
  induction ts with
  | nil => rfl
  | cons t ts ih =>
    rw [List.forall_mem_cons] at hmem
    rw [List.map_cons, List.sum_cons, ih hmem.2]
    rcases hmem.1 with rfl | rfl | rfl
    · rw [List.count_cons_self, Ast.nesting]
      omega
    · simp [Ast.nesting]
    · simp [Ast.nesting]

theorem Depth.push {d : Int} (h : w.Depth d) (o : Ast.BinOperator) : (w.push (.op o)).Depth d := by
  intro p hp
  rw [Walk.push, List.count_append, List.count_singleton, if_neg (by simp), add_zero]
  exact h p hp

theorem Depth.visit : ∀ (e : Expression) {w : Walk} {d : Int}, w.Depth d →
    (w.visit wanted e).Depth d
  | .name n, w, d, h => by
    rw [Walk.visit]
    split_ifs
    · intro p hp
      rw [Walk.write, List.append_assoc, Ast.Parser.run_append] at hp
      obtain ⟨q, hq, hrun⟩ := Option.bind_eq_some_iff.1 hp
      have hlen := Ast.Parser.length_outer_run hrun
      rw [List.map_append, List.sum_append, sum_nesting_flushed] at hlen
      have hd := h q hq
      simp only [List.map_singleton, List.sum_singleton, Ast.nesting] at hlen
      simp only [Walk.write, List.count_nil]
      omega
    · exact h
  | .group e, w, d, h => by
    have hopen : (w.push .opening).Depth (d + 1) := by
      intro p hp
      have hd := h p hp
      rw [Walk.push, List.count_append, List.count_singleton_self]
      omega
    have hinner := Depth.visit e hopen
    intro p hp
    rw [Walk.visit, Walk.close, Ast.Parser.run_append] at hp
    obtain ⟨q, hq, hrun⟩ := Option.bind_eq_some_iff.1 hp
    have hlen := Ast.Parser.length_outer_run hrun
    have hd := hinner q hq
    simp only [List.map_singleton, List.sum_singleton, Ast.nesting] at hlen
    simp only [Walk.visit, Walk.close]
    omega
  | .both l r, w, d, h => Depth.visit r ((Depth.visit l h).push _)
  | .either l r, w, d, h => Depth.visit r ((Depth.visit l h).push _)

/-- After the whole walk a stale bracket leaves no expression. -/
theorem Stale.broken (h : w.Stale) (hd : w.Depth 0) : w.Broken := by
  obtain h | ⟨-, hp⟩ := h
  · exact h
  · rw [Broken, Option.eq_none_iff_forall_ne_some]
    intro p hrun
    have hcount := List.count_pos_iff.2 hp
    have := hd p hrun
    omega

end Walk

end Oe
end OpenBmc
