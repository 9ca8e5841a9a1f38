import OpenBmc.BitBake.Overrides

/-!
# Removes

What `:remove` takes out of a value. `removal_iff` says when every active remove of a variable and
of the definitions selected for it is carried out: a remove of a selected definition counts only
when one of its words stands in that definition's own value.
-/

namespace OpenBmc
namespace BitBake
open Py

/-! ### Removing words from a text -/

theorem whitespaceSplit_word {w : Str} (hw : ∀ c ∈ w, ¬ isSpace c) : whitespaceSplit w = [w] := by
  induction w with
  | nil => rfl
  | cons c w ih =>
    rw [whitespaceSplit, if_neg (hw c List.mem_cons_self),
      ih fun d hd => hw d (List.mem_cons_of_mem c hd)]

theorem whitespaceSplit_space {w : Str} (hw : ∀ c ∈ w, ¬ isSpace c) {c : Char} (hc : isSpace c)
    (s : Str) : whitespaceSplit (w ++ c :: s) = w :: [c] :: whitespaceSplit s := by
  induction w with
  | nil => rw [List.nil_append, whitespaceSplit, if_pos hc]
  | cons d w ih =>
    rw [List.cons_append, whitespaceSplit, if_neg (hw d List.mem_cons_self),
      ih fun e he => hw e (List.mem_cons_of_mem d he)]

theorem mem_whitespaceSplit {v : Str} (hv : IsWord v) (s : Str) :
    v ∈ whitespaceSplit s ↔ v ∈ words s := by
  induction s using spaceInduction with
  | last w hw =>
    rw [whitespaceSplit_word hw, List.mem_singleton]
    by_cases he : w = []
    · subst he
      exact ⟨fun h => absurd h hv.1, fun h => absurd h List.not_mem_nil⟩
    · rw [IsWord.words ⟨he, hw⟩, List.mem_singleton]
  | space w c s hw hc ih =>
    have hvc : v ≠ [c] := by
      rintro rfl
      exact hv.2 c (List.mem_singleton_self c) hc
    rw [whitespaceSplit_space hw hc, words_append_cons hc, List.mem_append, ← ih, List.mem_cons,
      List.mem_cons, or_iff_right hvc]
    refine or_congr_left ?_
    by_cases he : w = []
    · subst he
      exact ⟨fun h => absurd h hv.1, fun h => absurd h List.not_mem_nil⟩
    · rw [IsWord.words ⟨he, hw⟩, List.mem_singleton]

section keep
variable {keep : Str → Bool} (hkeep : ∀ v, ¬ IsWord v → keep v)
include hkeep

/-- Without some of its words a text has the others, in their order. -/
theorem words_keep (s : Str) :
    words ((whitespaceSplit s).filter keep).flatten = (words s).filter keep := by
  have hone : ∀ w : Str, (∀ c ∈ w, ¬ isSpace c) →
      words (([w].filter keep).flatten) = (words w).filter keep := by
    intro w hw
    by_cases he : w = []
    · subst he
      rw [List.filter_singleton, hkeep [] fun h => h.1 rfl]
      rfl
    · rw [IsWord.words ⟨he, hw⟩]
      by_cases hk : keep w
      · rw [List.filter_singleton, hk]
        exact (congrArg words (List.flatten_singleton)).trans (IsWord.words ⟨he, hw⟩)
      · rw [List.filter_singleton, Bool.eq_false_iff.2 hk]
        rfl
  induction s using spaceInduction with
  | last w hw => rw [whitespaceSplit_word hw, hone w hw]
  | space w c s hw hc ih =>
    have hspace : keep [c] := hkeep [c] fun h => h.2 c (List.mem_singleton_self c) hc
    have hsplit : ((whitespaceSplit (w ++ c :: s)).filter keep).flatten =
        ([w].filter keep).flatten ++ c :: ((whitespaceSplit s).filter keep).flatten := by
      rw [whitespaceSplit_space hw hc, ← List.singleton_append, List.filter_append,
        List.flatten_append, List.filter_cons_of_pos hspace]
      rfl
    rw [hsplit, words_append_cons hc, words_append_cons hc, List.filter_append, hone w hw, ih]

theorem spaces_keep (s : Str) :
    (((whitespaceSplit s).filter keep).flatten).filter isSpace = s.filter isSpace := by
  have hone : ∀ w : Str, (∀ c ∈ w, ¬ isSpace c) →
      (([w].filter keep).flatten).filter isSpace = [] := by
    intro w hw
    rw [List.filter_eq_nil_iff]
    intro c hc
    obtain ⟨v, hv, hcv⟩ := List.mem_flatten.1 hc
    rw [List.mem_singleton.1 (List.mem_of_mem_filter hv)] at hcv
    exact hw c hcv
  induction s using spaceInduction with
  | last w hw =>
    rw [whitespaceSplit_word hw, hone w hw, List.filter_eq_nil_iff.2 hw]
  | space w c s hw hc ih =>
    have hspace : keep [c] := hkeep [c] fun h => h.2 c (List.mem_singleton_self c) hc
    have hsplit : ((whitespaceSplit (w ++ c :: s)).filter keep).flatten =
        ([w].filter keep).flatten ++ c :: ((whitespaceSplit s).filter keep).flatten := by
      rw [whitespaceSplit_space hw hc, ← List.singleton_append, List.filter_append,
        List.flatten_append, List.filter_cons_of_pos hspace]
      rfl
    rw [hsplit, List.filter_append, List.filter_append, hone w hw, List.filter_cons_of_pos hc, ih,
      List.filter_eq_nil_iff.2 hw, List.filter_cons_of_pos hc]

end keep

/-! ### The words that removes name -/

namespace DataSmart
variable {E : Expansion} {d : DataSmart}

/-- The word stands in the expansion of the remove. -/
def Named (E : Expansion) (r w : Str) : Prop := ∃ t, E.text none r = .ok t ∧ w ∈ words t

theorem Named.isWord {r w : Str} (h : Named E r w) : IsWord w :=
  isWord_of_mem_words h.choose_spec.2

theorem mapM_expand {removes : List Str} {expanded : List (Str × List Str)}
    (h : removes.mapM (fun r => do return (r, words (← E.text none r))) =
      (.ok expanded : Except DataError _)) (r : Str) (f : List Str → Prop) :
    (∃ e ∈ expanded, e.1 = r ∧ f e.2) ↔ r ∈ removes ∧ ∃ t, E.text none r = .ok t ∧ f (words t) := by
  induction removes generalizing expanded with
  | nil =>
    cases h
    simp
  | cons q removes ih =>
    simp only [List.mapM_cons, bind, Except.bind, pure, Except.pure] at h
    cases hq : E.text none q with
    | error e =>
      rw [hq] at h
      cases h
    | ok x =>
      simp only [hq] at h
      cases hrest : removes.mapM (fun r => do return (r, words (← E.text none r))) with
      | error e =>
        simp only [bind, Except.bind, pure, Except.pure] at hrest
        rw [hrest] at h
        cases h
      | ok rest =>
        have ih := ih hrest
        simp only [bind, Except.bind, pure, Except.pure] at hrest
        rw [hrest] at h
        cases h
        simp only [List.mem_cons, exists_eq_or_imp, ih]
        constructor
        · rintro (⟨rfl, hf⟩ | ⟨hr, ht⟩)
          · exact ⟨.inl rfl, x, hq, hf⟩
          · exact ⟨.inr hr, ht⟩
        · rintro ⟨rfl | hr, t, ht, hf⟩
          · rw [hq] at ht
            cases ht
            exact .inl ⟨rfl, hf⟩
          · exact .inr ⟨hr, t, ht, hf⟩

/-- The words that go are the named ones, and the removes that are kept in mind name one of them. -/
theorem removeWords_ok {removes : List Str} {parser q : VariableParse}
    (h : removeWords E removes parser = .ok q) :
    (∃ t, q.value = some t ∧
      (∃ keep : Str → Bool, words t = (words (parser.value.getD [])).filter keep ∧
        ∀ w, keep w ↔ ∀ r ∈ removes, ¬ Named E r w) ∧
      t.filter isSpace = (parser.value.getD []).filter isSpace) ∧
    ∃ matched, q.removes = some matched ∧ ∀ r, r ∈ matched ↔
      r ∈ removes ∧ ∃ w ∈ words (parser.value.getD []), Named E r w := by
  simp only [removeWords, bind, Except.bind] at h
  cases hm : removes.mapM (fun r => do return (r, words (← E.text none r))) with
  | error e =>
    simp only [bind, Except.bind] at hm
    rw [hm] at h
    cases h
  | ok expanded =>
    have hspec := mapM_expand hm
    simp only [bind, Except.bind] at hm
    rw [hm] at h
    cases h
    have hkeep : ∀ w, (expanded.all fun e => w ∉ e.2) ↔ ∀ r ∈ removes, ¬ Named E r w := by
      intro w
      rw [List.all_eq_true]
      constructor
      · rintro hall r hr ⟨t, ht, hw⟩
        obtain ⟨e, he, -, hwe⟩ := (hspec r (w ∈ ·)).2 ⟨hr, t, ht, hw⟩
        exact of_decide_eq_true (hall e he) hwe
      · intro hno e he
        refine decide_eq_true fun hw => ?_
        obtain ⟨hr, t, ht, hwt⟩ := (hspec e.1 (w ∈ ·)).1 ⟨e, he, rfl, hw⟩
        exact hno e.1 hr ⟨t, ht, hwt⟩
    have hword : ∀ v, ¬ IsWord v → (expanded.all fun e => v ∉ e.2) := fun v hv =>
      (hkeep v).2 fun r _ hn => hv hn.isWord
    refine ⟨⟨_, rfl, ⟨_, words_keep hword _, hkeep⟩, spaces_keep hword _⟩, _, rfl, fun r => ?_⟩
    have hany : ∀ l : List Str, (∀ v ∈ l, IsWord v) →
        ((whitespaceSplit (parser.value.getD [])).any (· ∈ l) ↔
          ∃ w ∈ words (parser.value.getD []), w ∈ l) := by
      intro l hl
      rw [List.any_eq_true]
      constructor
      · rintro ⟨w, hw, hwl⟩
        have hwl := of_decide_eq_true hwl
        exact ⟨w, (mem_whitespaceSplit (hl w hwl) _).1 hw, hwl⟩
      · rintro ⟨w, hw, hwl⟩
        exact ⟨w, (mem_whitespaceSplit (hl w hwl) _).2 hw, decide_eq_true hwl⟩
    rw [List.mem_map]
    constructor
    · rintro ⟨e, he, rfl⟩
      obtain ⟨he, hw⟩ := List.mem_filter.1 he
      obtain ⟨hr, t, ht, hw⟩ := (hspec e.1 fun l =>
        (whitespaceSplit (parser.value.getD [])).any (· ∈ l)).1 ⟨e, he, rfl, hw⟩
      obtain ⟨w, hwv, hwt⟩ := (hany _ fun v => isWord_of_mem_words).1 hw
      exact ⟨hr, w, hwv, t, ht, hwt⟩
    · rintro ⟨hr, w, hwv, t, ht, hwt⟩
      obtain ⟨e, he, her, hw⟩ := (hspec r fun l =>
        (whitespaceSplit (parser.value.getD [])).any (· ∈ l)).2
          ⟨hr, t, ht, (hany _ fun v => isWord_of_mem_words).2 ⟨w, hwv, hwt⟩⟩
      exact ⟨e, List.mem_filter.2 ⟨he, hw⟩, her⟩

/-! ### The removes of a selected definition -/

/-- The definition is selected for the variable, or for a definition that is. -/
inductive Selects (d : DataSmart) : Str → Str → Prop
  | here {v m : Str} : d.selected v = some m → Selects d v m
  | next {v m s : Str} : d.selected v = some m → Selects d m s → Selects d v s

/-- The unexpanded value of a variable. -/
inductive RawValue (d : DataSmart) : Str → Option Str → Prop
  | own {v : Str} : d.selected v = none → RawValue d v (d.rawValue v none)
  | overridden {v m : Str} {value : Option Str} : d.selected v = some m → RawValue d m value →
      RawValue d v (d.rawValue v value)

theorem RawValue.unique {v : Str} {a b : Option Str} (ha : RawValue d v a) (hb : RawValue d v b) :
    a = b := by
  induction ha generalizing b with
  | own hsel =>
    cases hb with
    | own _ => rfl
    | overridden hsel' _ =>
      rw [hsel] at hsel'
      cases hsel'
  | overridden hsel _ ih =>
    cases hb with
    | own hsel' =>
      rw [hsel] at hsel'
      cases hsel'
    | overridden hsel' hrest =>
      rw [hsel, Option.some.injEq] at hsel'
      subst hsel'
      rw [ih hrest]

/-- The value of a variable after its references are expanded and before any remove. -/
def ExpandedValue (E : Expansion) (d : DataSmart) (v e : Str) : Prop :=
  ∃ raw, RawValue d v (some raw) ∧ E.text (some v) raw = .ok e

theorem ExpandedValue.unique {v a b : Str} (ha : ExpandedValue E d v a)
    (hb : ExpandedValue E d v b) : a = b := by
  obtain ⟨r, hr, ha⟩ := ha
  obtain ⟨q, hq, hb⟩ := hb
  cases hr.unique hq
  rw [ha] at hb
  cases hb
  rfl

/-- A word of the remove stands in the value of the definition. -/
def Matches (E : Expansion) (d : DataSmart) (v r : Str) : Prop :=
  ∃ e, ExpandedValue E d v e ∧ ∃ w ∈ words e, Named E r w

/-- The removes that come to a variable with the value that is selected for it. -/
inductive Carried (E : Expansion) (d : DataSmart) : Str → Str → Prop
  | own {v m r : Str} : d.selected v = some m → r ∈ d.activeRemoves m → Matches E d m r →
      Carried E d v r
  | next {v m r : Str} : d.selected v = some m → Carried E d m r → Matches E d m r →
      Carried E d v r

theorem Carried.selects {v r : Str} (h : Carried E d v r) :
    ∃ s, Selects d v s ∧ r ∈ d.activeRemoves s := by
  induction h with
  | own hsel hr _ => exact ⟨_, .here hsel, hr⟩
  | next hsel _ _ ih =>
    obtain ⟨s, hs, hr⟩ := ih
    exact ⟨s, .next hsel hs, hr⟩

/-- What is read for a definition: its unexpanded value, and the removes that had a word there. -/
def SubSpec (E : Expansion) (d : DataSmart) (m : Str) (value : Option Str)
    (sub : Option VariableParse) : Prop :=
  RawValue d m value ∧ ∀ r, r ∈ (sub.bind (·.removes)).getD [] ↔
    (r ∈ d.activeRemoves m ∨ Carried E d m r) ∧ Matches E d m r

theorem overridden_spec {n : ℕ} {m : Str} {under : Option Str} {carried : List Str}
    (ih : ∀ {m value sub}, getVarFlag E d n m false true = .ok (value, sub) →
      SubSpec E d m value sub)
    (h : Overridden E d n m under carried) :
    RawValue d m (d.rawValue m under) ∧ ∀ r, r ∈ carried ↔ Carried E d m r := by
  rcases h with ⟨hsel, rfl, rfl⟩ | ⟨name, sub, hsel, hsub, rfl⟩
  · refine ⟨.own hsel, fun r => ⟨fun hr => absurd hr List.not_mem_nil, fun hr => ?_⟩⟩
    cases hr with
    | own hsel' _ _ | next hsel' _ _ =>
      rw [hsel] at hsel'
      cases hsel'
  · obtain ⟨hraw, hsub⟩ := ih hsub
    refine ⟨.overridden hsel hraw, fun r => ?_⟩
    rw [hsub]
    constructor
    · rintro ⟨hr | hr, hm⟩
      · exact .own hsel hr hm
      · exact .next hsel hr hm
    · intro hr
      cases hr with
      | own hsel' hr hm =>
        rw [hsel, Option.some.injEq] at hsel'
        subst hsel'
        exact ⟨.inl hr, hm⟩
      | next hsel' hr hm =>
        rw [hsel, Option.some.injEq] at hsel'
        subst hsel'
        exact ⟨.inr hr, hm⟩

/-- What a definition that is read for another one gives to it. -/
theorem getVarFlag_sub : ∀ (n : ℕ) {m : Str} {value : Option Str} {sub : Option VariableParse},
    getVarFlag E d n m false true = .ok (value, sub) → SubSpec E d m value sub
  | 0, _, _, _, h => nomatch h
  | n + 1, m, value, sub, h => by
    obtain ⟨under, carried, parser, q, hunder, hparse, rfl, rfl, hq⟩ := getVarFlag_ok rfl h
    obtain ⟨hraw, hcarried⟩ := overridden_spec (fun h => getVarFlag_sub n h) hunder
    obtain ⟨hnone, hvalue⟩ := expandWithRefs_ok hparse
    refine ⟨hraw, fun r => ?_⟩
    have hmem : r ∈ carried ++ d.activeRemoves m ↔ r ∈ d.activeRemoves m ∨ Carried E d m r := by
      rw [List.mem_append, hcarried, or_comm]
    have hmatches : Matches E d m r ↔ ∃ w ∈ words (parser.value.getD []), Named E r w := by
      cases hval : d.rawValue m under with
      | none =>
        rw [hval, Option.elim_none] at hvalue
        rw [hvalue]
        refine ⟨?_, fun ⟨w, hw, _⟩ => absurd hw List.not_mem_nil⟩
        rintro ⟨e, ⟨raw, hr, -⟩, -⟩
        rw [hval] at hraw
        cases hraw.unique hr
      | some raw =>
        rw [hval, Option.elim_some] at hvalue
        obtain ⟨e, he, hE⟩ := hvalue
        have hexp : ExpandedValue E d m e := ⟨raw, hval ▸ hraw, hE⟩
        rw [he, Option.getD_some]
        refine ⟨?_, fun hw => ⟨e, hexp, hw⟩⟩
        rintro ⟨e', he', hw⟩
        rwa [hexp.unique he']
    rw [← hmem, hmatches]
    rcases hq with ⟨rfl, hq⟩ | ⟨-, -, hq⟩
    · have hnil : (Option.bind (some q) fun p => p.removes).getD [] = [] := by
        rw [Option.bind_some, hnone]
        rfl
      rw [hnil]
      refine ⟨fun hr => absurd hr List.not_mem_nil, ?_⟩
      rintro ⟨hr, w, hw, -⟩
      rcases hq with hempty | hempty
      · have hq : q.value.getD [] = [] := by
          simp only [Bool.false_eq_true, if_false] at hempty
          cases hval : d.rawValue m under with
          | none =>
            rw [hval, Option.elim_none] at hvalue
            rw [hvalue]
            rfl
          | some raw =>
            rw [hval, Option.elim_some] at hvalue
            obtain ⟨e, he, hE⟩ := hvalue
            rw [hval, Option.getD_some] at hempty
            rw [hempty, E.text_nil] at hE
            cases hE
            rw [he]
            rfl
        rw [hq] at hw
        exact absurd hw List.not_mem_nil
      · rw [hempty] at hr
        exact absurd hr List.not_mem_nil
    · obtain ⟨-, matched, hmatched, hspec⟩ := removeWords_ok hq
      rw [Option.bind_some, hmatched, Option.getD_some]
      exact hspec r

/-! ### The removal -/

/-- A remove of the variable, or of a definition selected for it, that applies. -/
def ActiveRemove (d : DataSmart) (v r : Str) : Prop :=
  r ∈ d.activeRemoves v ∨ ∃ s, Selects d v s ∧ r ∈ d.activeRemoves s

/-- The removes are complete between the expanded value and what is read. -/
structure Removal (E : Expansion) (d : DataSmart) (v e t : Str) : Prop where
  gone : ∀ w ∈ words t, ∀ r, ActiveRemove d v r → ¬ Named E r w
  /-- Every other word is there still, and in order. -/
  kept : ∃ keep : Str → Bool, words t = (words e).filter keep ∧
    ∀ w ∈ words e, (∀ r, ActiveRemove d v r → ¬ Named E r w) → keep w
  spaces : t.filter isSpace = e.filter isSpace

/-- Each word of the value that a remove of a selected definition names is named by one of the
variable, or by one that comes with the selected value because it had a word there. -/
def RemovesReach (E : Expansion) (d : DataSmart) (v : Str) : Prop :=
  ∀ e, ExpandedValue E d v e → ∀ w ∈ words e, ∀ s r, Selects d v s → r ∈ d.activeRemoves s →
    Named E r w → ∃ q, (q ∈ d.activeRemoves v ∨ Carried E d v q) ∧ Named E q w

theorem getVarFlag_words {n : ℕ} {v t : Str} {p : Option VariableParse}
    (h : d.getVarFlag E n v true false = .ok (some t, p)) :
    ∃ e, ExpandedValue E d v e ∧ t.filter isSpace = e.filter isSpace ∧
      ∃ keep : Str → Bool, words t = (words e).filter keep ∧
        ∀ w ∈ words e, keep w ↔ ∀ q, q ∈ d.activeRemoves v ∨ Carried E d v q → ¬ Named E q w := by
  cases n with
  | zero => cases h
  | succ n =>
    obtain ⟨under, carried, parser, q, hunder, hparse, rfl, ht, hq⟩ := getVarFlag_ok rfl h
    obtain ⟨hraw, hcarried⟩ := overridden_spec (fun h => getVarFlag_sub n h) hunder
    obtain ⟨-, hvalue⟩ := expandWithRefs_ok hparse
    simp only [if_true] at ht hq
    cases hval : d.rawValue v under with
    | none =>
      rw [hval, Option.elim_none] at hvalue
      rw [hvalue] at hq
      rcases hq with ⟨rfl, -⟩ | ⟨hne, -⟩
      · rw [hvalue] at ht
        cases ht
      · exact absurd rfl hne
    | some raw =>
      rw [hval, Option.elim_some] at hvalue
      obtain ⟨e, he, hE⟩ := hvalue
      rw [he, Option.getD_some] at hq
      refine ⟨e, ⟨raw, hval ▸ hraw, hE⟩, ?_⟩
      rcases hq with ⟨rfl, hq⟩ | ⟨-, -, hq⟩
      · rw [he, Option.some.injEq] at ht
        subst ht
        refine ⟨rfl, fun _ => true, by rw [List.filter_true], fun w hw => ⟨fun _ r hr => ?_, fun _ => rfl⟩⟩
        rcases hq with rfl | hq
        · exact absurd hw List.not_mem_nil
        · rw [List.append_eq_nil_iff] at hq
          rw [← hcarried, hq.1, hq.2] at hr
          exact absurd hr (by simp)
      · obtain ⟨⟨t', ht', ⟨keep, hwords, hkeep⟩, hspaces⟩, -⟩ := removeWords_ok hq
        rw [he, Option.getD_some] at hwords hspaces
        rw [ht', Option.some.injEq] at ht
        subst ht
        refine ⟨hspaces, keep, hwords, fun w _ => (hkeep w).trans (forall_congr' fun r => ?_)⟩
        rw [List.mem_append, hcarried, or_comm]

/-- A read value is free of what the removes name exactly when they all reach it. -/
theorem removal_iff (E : Expansion) (d : DataSmart) {n : ℕ} {v t : Str} {p : Option VariableParse}
    (h : d.getVarFlag E n v true false = .ok (some t, p)) :
    (∃ e, ExpandedValue E d v e ∧ Removal E d v e t) ↔ RemovesReach E d v := by
  obtain ⟨e, he, hspaces, keep, hwords, hkeep⟩ := getVarFlag_words h
  constructor
  · rintro ⟨e', he', hgone, -, -⟩ f hf w hw s r hs hr hnamed
    rw [hf.unique he] at hw
    by_contra hno
    rw [not_exists] at hno
    have hwt : w ∈ words t := by
      rw [hwords]
      exact List.mem_filter.2 ⟨hw, (hkeep w hw).2 fun q hq hn => hno q ⟨hq, hn⟩⟩
    exact hgone w hwt r (.inr ⟨s, hs, hr⟩) hnamed
  · intro hreach
    refine ⟨e, he, ?_, ⟨keep, hwords, fun w hw hno => ?_⟩, hspaces⟩
    · intro w hw r hr hnamed
      rw [hwords] at hw
      obtain ⟨hw, hk⟩ := List.mem_filter.1 hw
      rcases hr with hr | ⟨s, hs, hr⟩
      · exact (hkeep w hw).1 hk r (.inl hr) hnamed
      · obtain ⟨q, hq, hn⟩ := hreach e he w hw s r hs hr hnamed
        exact (hkeep w hw).1 hk q hq hn
    · refine (hkeep w hw).2 fun q hq => hno q (hq.imp id fun hc => hc.selects)

namespace Sample

/-- A variable with a remove. -/
def withRemove : DataSmart :=
  parse [] [("V".toList, "a b".toList), ("V:remove".toList, "b".toList)]

/-- A selected definition with a remove, and an append of the variable. -/
def withAppend : DataSmart :=
  parse "x".toList [("V:x".toList, "a".toList), ("V:x:remove".toList, "b".toList),
    ("V:append".toList, " b".toList)]

def plainText (d : DataSmart) : Expansion := expansion d (fun _ s => .ok s) 1

theorem selected_withRemove : withRemove.selected "V".toList = none := by decide +kernel

theorem read_withRemove : withRemove.getVarFlag (plainText withRemove) 1 "V".toList true false =
    .ok (some "a ".toList, some { value := some "a ".toList, removes := some ["b".toList] }) := by
  rfl

theorem read_withAppend : withAppend.getVarFlag (plainText withAppend) 2 "V".toList true false =
    .ok (some "a b".toList, some { value := some "a b".toList }) := by
  rfl

end Sample

theorem own_remove_complete : ∃ e,
    ExpandedValue (Sample.plainText Sample.withRemove) Sample.withRemove "V".toList e ∧
    Removal (Sample.plainText Sample.withRemove) Sample.withRemove "V".toList e "a ".toList := by
  refine (removal_iff _ _ Sample.read_withRemove).2 fun e _ w _ s r hs _ _ => ?_
  cases hs with
  | here hsel | next hsel _ =>
    rw [Sample.selected_withRemove] at hsel
    cases hsel

/-- The override's remove finds no word in the override's own value, and is not carried out on what
the variable appends. -/
theorem appended_word_stays : ∃ t p,
    Sample.withAppend.getVarFlag (Sample.plainText Sample.withAppend) 2 "V".toList true false =
      .ok (some t, p) ∧
    ¬ ∃ e, ExpandedValue (Sample.plainText Sample.withAppend) Sample.withAppend "V".toList e ∧
      Removal (Sample.plainText Sample.withAppend) Sample.withAppend "V".toList e t := by
  refine ⟨_, _, Sample.read_withAppend, ?_⟩
  rintro ⟨e, -, hgone, -, -⟩
  have hsel : Sample.withAppend.selected "V".toList = some "V:x".toList := by decide +kernel
  refine hgone "b".toList (by decide) "b".toList (.inr ⟨_, .here hsel, by decide +kernel⟩) ?_
  exact ⟨"b".toList, rfl, by decide⟩

end DataSmart

end BitBake
end OpenBmc
