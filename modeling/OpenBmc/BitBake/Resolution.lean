import OpenBmc.BitBake.DataSmart

/-!
# The resolution loop

The loop takes the last part of a key off, when it is in `OVERRIDES`, and with it that part
wherever it stands in the key. `run_found` says when it ends with a definition: exactly when one of
the keys survives this. For keys of one part, `run_single` says which.
-/

namespace OpenBmc
namespace BitBake
open Py
namespace Resolution

/-- Part by part, a key is reduced to a member of `OVERRIDES`. -/
inductive Survives (os : List Str) : Str → Prop
  | here {k : Str} : k ∈ os → Survives os k
  | strip {k o : Str} : o ∈ os → (':' :: o) <:+ k → Survives os (delete (':' :: o) k) →
      Survives os k

variable {os : List Str} (hos : ∀ o ∈ os, ':' ∉ o)

theorem suffix_unique {k o p : Str} (ho : ':' ∉ o) (hp : ':' ∉ p) (h : (':' :: o) <:+ k)
    (h' : (':' :: p) <:+ k) : o = p := by
  obtain ⟨a, rfl⟩ := h
  obtain ⟨b, hb⟩ := h'
  have := rpartition_append (b := a) ho
  rw [← hb, rpartition_append hp] at this
  simp only [Prod.mk.injEq] at this
  exact this.2.symm

theorem not_mem_of_suffix {k o : Str} (hos : ∀ o ∈ os, ':' ∉ o) (h : (':' :: o) <:+ k) : k ∉ os := by
  intro hk
  obtain ⟨a, rfl⟩ := h
  exact hos _ hk (by simp)

include hos in
theorem survives_delete {k o : Str} (ho : o ∈ os) (h : (':' :: o) <:+ k) :
    Survives os (delete (':' :: o) k) ↔ Survives os k := by
  refine ⟨.strip ho h, fun hk => ?_⟩
  cases hk with
  | here hm => exact absurd hm (not_mem_of_suffix hos h)
  | strip hp hsuf hrest =>
    rwa [suffix_unique (hos _ ho) (hos _ hp) h hsuf]

/-- A definition is found, or will be. -/
def Hopeful (os : List Str) (s : Resolution) : Prop :=
  s.found.isSome ∨ ∃ k ∈ s.active, Survives os k

/-- What one key does, when it is in the table. -/
theorem key_cases (o : Str) (s : Resolution) (a : Str) :
    (a ∉ s.active ∨ ¬ (':' :: o) <:+ a ∧ a ≠ o) ∧ key o s a = s ∨
    (∃ t, s.active.get? a = some t ∧ (':' :: o) <:+ a ∧ key o s a =
      { s with active := (s.active.erase a).set (delete (':' :: o) a) t, mod := true }) ∨
    (∃ t, s.active.get? a = some t ∧ a = o ∧
      key o s a = { s with found := some t, active := s.active.erase a }) := by
  unfold key
  cases ha : s.active.get? a with
  | none => exact .inl ⟨.inl (Dict.get?_eq_none_iff.1 ha), rfl⟩
  | some t =>
    by_cases hsuf : (':' :: o) <:+ a
    · exact .inr (.inl ⟨t, rfl, hsuf, by simp only [if_pos (List.isSuffixOf_iff_suffix.2 hsuf)]⟩)
    · have hsuf' : ¬ (':' :: o).isSuffixOf a := fun h => hsuf (List.isSuffixOf_iff_suffix.1 h)
      by_cases hao : a = o
      · exact .inr (.inr ⟨t, rfl, hao, by simp only [if_neg hsuf', if_pos hao]⟩)
      · exact .inl ⟨.inr ⟨hsuf, hao⟩, by simp only [if_neg hsuf', if_neg hao]⟩

include hos in
theorem hopeful_key {o : Str} (ho : o ∈ os) (s : Resolution) (a : Str) :
    Hopeful os (key o s a) ↔ Hopeful os s := by
  rcases key_cases o s a with ⟨-, h⟩ | ⟨t, ha, hsuf, h⟩ | ⟨t, ha, hao, h⟩
  · rw [h]
  · have ha : a ∈ s.active := Dict.mem_of_get? ha
    rw [h]
    refine or_congr_right ⟨?_, ?_⟩
    · rintro ⟨k, hk, hs⟩
      simp only [Dict.mem_set, Dict.mem_erase] at hk
      rcases hk with rfl | ⟨-, hk⟩
      · exact ⟨a, ha, (survives_delete hos ho hsuf).1 hs⟩
      · exact ⟨k, hk, hs⟩
    · rintro ⟨k, hk, hs⟩
      by_cases hka : k = a
      · subst hka
        exact ⟨_, Dict.mem_set.2 (.inl rfl), (survives_delete hos ho hsuf).2 hs⟩
      · exact ⟨k, Dict.mem_set.2 (.inr (Dict.mem_erase.2 ⟨hka, hk⟩)), hs⟩
  · have ha : a ∈ s.active := Dict.mem_of_get? ha
    rw [h]
    refine ⟨fun _ => .inr ⟨a, ha, .here (hao ▸ ho)⟩, fun _ => .inl rfl⟩

include hos in
theorem hopeful_pass (s : Resolution) : Hopeful os (pass os s) ↔ Hopeful os s := by
  have hkeys : ∀ o ∈ os, ∀ (l : List Str) (s : Resolution),
      Hopeful os (l.foldl (key o) s) ↔ Hopeful os s := by
    intro o ho l
    induction l with
    | nil => exact fun s => Iff.rfl
    | cons a l ih => exact fun s => (ih _).trans (hopeful_key hos ho s a)
  have hall : ∀ (l : List Str), l ⊆ os → ∀ s : Resolution,
      Hopeful os (l.foldl override s) ↔ Hopeful os s := by
    intro l
    induction l with
    | nil => exact fun _ s => Iff.rfl
    | cons o l ih =>
      intro hl s
      exact (ih (fun p hp => hl (List.mem_cons_of_mem o hp)) _).trans
        (hkeys o (hl List.mem_cons_self) _ s)
  exact hall os (fun _ h => h) _

/-! ### A pass that changes nothing -/

theorem key_mod {o : Str} {s : Resolution} {a : Str} (h : (key o s a).mod = false) :
    s.mod = false ∧ ∀ k ∈ (key o s a).active, k ∈ s.active ∧
      (k = a → ¬ (':' :: o) <:+ k ∧ k ≠ o) := by
  rcases key_cases o s a with ⟨hno, he⟩ | ⟨t, ha, hsuf, he⟩ | ⟨t, ha, hao, he⟩
  · rw [he] at h ⊢
    refine ⟨h, fun k hk => ⟨hk, ?_⟩⟩
    rintro rfl
    exact hno.resolve_left fun hn => hn hk
  · rw [he] at h
    cases h
  · rw [he] at h ⊢
    refine ⟨h, fun k hk => ?_⟩
    have ⟨hne, hk⟩ := Dict.mem_erase.1 hk
    exact ⟨hk, fun hka => absurd hka hne⟩

theorem override_mod {o : Str} {s : Resolution} (h : (override s o).mod = false) :
    s.mod = false ∧ ∀ k ∈ (override s o).active, k ∈ s.active ∧ ¬ (':' :: o) <:+ k ∧ k ≠ o := by
  have hfold : ∀ (l : List Str) (s : Resolution), (l.foldl (key o) s).mod = false →
      s.mod = false ∧ ∀ k ∈ (l.foldl (key o) s).active, k ∈ s.active ∧
        (k ∈ l → ¬ (':' :: o) <:+ k ∧ k ≠ o) := by
    intro l
    induction l with
    | nil => exact fun s h => ⟨h, fun k hk => ⟨hk, fun hm => absurd hm List.not_mem_nil⟩⟩
    | cons a l ih =>
      intro s h
      obtain ⟨hmod, hl⟩ := ih _ h
      obtain ⟨hmod, ha⟩ := key_mod hmod
      refine ⟨hmod, fun k hk => ?_⟩
      have ⟨hk', hkl⟩ := hl k hk
      have ⟨hks, hka⟩ := ha k hk'
      refine ⟨hks, fun hm => ?_⟩
      rcases List.mem_cons.1 hm with he | hm
      · exact hka he
      · exact hkl hm
  obtain ⟨hmod, hl⟩ := hfold _ s h
  exact ⟨hmod, fun k hk => ⟨(hl k hk).1, (hl k hk).2 (hl k hk).1⟩⟩

/-- After a pass without a change, no key that is left can be reduced further. -/
theorem not_survives_of_pass {s : Resolution} (h : (pass os s).mod = false) :
    ∀ k ∈ (pass os s).active, ¬ Survives os k := by
  have hall : ∀ (l : List Str) (s : Resolution), (l.foldl override s).mod = false →
      s.mod = false ∧ ∀ k ∈ (l.foldl override s).active, k ∈ s.active ∧
        ∀ o ∈ l, ¬ (':' :: o) <:+ k ∧ k ≠ o := by
    intro l
    induction l with
    | nil => exact fun s h => ⟨h, fun k hk => ⟨hk, fun o ho => absurd ho List.not_mem_nil⟩⟩
    | cons o l ih =>
      intro s h
      obtain ⟨hmod, hl⟩ := ih _ h
      obtain ⟨hmod, ho⟩ := override_mod hmod
      refine ⟨hmod, fun k hk => ⟨(ho k (hl k hk).1).1, ?_⟩⟩
      rw [List.forall_mem_cons]
      exact ⟨(ho k (hl k hk).1).2, (hl k hk).2⟩
  intro k hk hs
  have hno := ((hall os _ h).2 k hk).2
  cases hs with
  | here hm => exact (hno k hm).2 rfl
  | strip ho hsuf _ => exact (hno _ ho).1 hsuf

/-! ### The loop ends -/

theorem sum_filter_ne {a : Str} : ∀ {l : List Str}, l.Nodup → a ∈ l →
    a.length + ((l.filter (· ≠ a)).map List.length).sum = (l.map List.length).sum
  | [], _, h => absurd h List.not_mem_nil
  | b :: l, hn, h => by
    rw [List.nodup_cons] at hn
    by_cases hb : b = a
    · subst hb
      have hself : l.filter (· ≠ b) = l :=
        List.filter_eq_self.2 fun c hc => decide_eq_true fun he => hn.1 (he ▸ hc)
      rw [List.filter_cons_of_neg (by simp), hself, List.map_cons, List.sum_cons]
    · have hl : a ∈ l := (List.mem_cons.1 h).resolve_left (Ne.symm hb)
      have ih := sum_filter_ne hn.2 hl
      rw [List.filter_cons_of_pos (by simpa using hb), List.map_cons, List.map_cons, List.sum_cons,
        List.sum_cons]
      omega

theorem size_erase {d : Dict Str Str} {a : Str} (ha : a ∈ d) :
    a.length + ((d.erase a).keys.map List.length).sum = (d.keys.map List.length).sum := by
  rw [Dict.keys_erase]
  exact sum_filter_ne d.keys_nodup (Dict.mem_iff_mem_keys.1 ha)

theorem size_set (d : Dict Str Str) (a t : Str) :
    ((d.set a t).keys.map List.length).sum ≤ (d.keys.map List.length).sum + a.length := by
  rw [Dict.keys_set]
  split
  · exact Nat.le_add_right _ _
  · simp

theorem size_key (o : Str) (s : Resolution) (a : Str) : (key o s a).size ≤ s.size ∧
    ((key o s a).mod → s.mod ∨ (key o s a).size < s.size) := by
  rcases key_cases o s a with ⟨-, h⟩ | ⟨t, ha, hsuf, h⟩ | ⟨t, ha, hao, h⟩
  · rw [h]
    exact ⟨le_rfl, .inl⟩
  · have hlt : (key o s a).size < s.size := by
      have hdel : (delete (':' :: o) a).length < a.length :=
        length_delete_lt (List.cons_ne_nil _ _) hsuf.isInfix
      have herase := size_erase (Dict.mem_of_get? ha)
      have hset := size_set (s.active.erase a) (delete (':' :: o) a) t
      rw [h]
      unfold size
      simp only
      omega
    exact ⟨hlt.le, fun _ => .inr hlt⟩
  · have hle : (key o s a).size ≤ s.size := by
      have herase := size_erase (Dict.mem_of_get? ha)
      rw [h]
      unfold size
      simp only
      omega
    rw [h] at hle ⊢
    exact ⟨hle, .inl⟩

theorem size_pass (os : List Str) (s : Resolution) :
    (pass os s).size ≤ s.size ∧ ((pass os s).mod → (pass os s).size < s.size) := by
  have hfold : ∀ {α : Type} (step : Resolution → α → Resolution),
      (∀ s a, (step s a).size ≤ s.size ∧ ((step s a).mod → s.mod ∨ (step s a).size < s.size)) →
      ∀ (l : List α) (s : Resolution), (l.foldl step s).size ≤ s.size ∧
        ((l.foldl step s).mod → s.mod ∨ (l.foldl step s).size < s.size) := by
    intro α step hstep l
    induction l with
    | nil => exact fun s => ⟨le_rfl, .inl⟩
    | cons a l ih =>
      intro s
      obtain ⟨hle, hmod⟩ := ih (step s a)
      obtain ⟨hle', hmod'⟩ := hstep s a
      refine ⟨hle.trans hle', fun h => ?_⟩
      rcases hmod h with h | h
      · exact (hmod' h).imp id fun h => hle.trans_lt h
      · exact .inr (h.trans_le hle')
  have hpass := hfold override (fun s o => hfold (key o) (size_key o) s.active.keys s) os
    { s with mod := false }
  exact ⟨hpass.1, fun h => (hpass.2 h).resolve_left Bool.false_ne_true⟩

theorem run_ends (os : List Str) : ∀ (fuel : ℕ) (s : Resolution), s.size < fuel →
    ∃ t, run os fuel s = some t
  | 0, _, h => absurd h (Nat.not_lt_zero _)
  | fuel + 1, s, h => by
    rw [run]
    by_cases hmod : (pass os s).mod
    · simp only [if_pos hmod]
      exact run_ends os fuel _ ((size_pass os s).2 hmod |>.trans_le (Nat.le_of_lt_succ h))
    · simp only [if_neg hmod]
      exact ⟨_, rfl⟩

include hos in
/-- The loop finds a definition exactly when one of its keys survives. -/
theorem run_found : ∀ (fuel : ℕ) (s t : Resolution), run os fuel s = some t →
    (t.found.isSome ↔ Hopeful os s)
  | 0, _, _, h => nomatch h
  | fuel + 1, s, t, h => by
    rw [run] at h
    by_cases hmod : (pass os s).mod
    · simp only [if_pos hmod] at h
      rw [run_found fuel _ t h, hopeful_pass hos]
    · simp only [if_neg hmod, Option.some.injEq] at h
      have hno := not_survives_of_pass (Bool.eq_false_iff.2 hmod)
      rw [← hopeful_pass hos, ← h]
      refine ⟨.inl, ?_⟩
      rintro (hf | ⟨k, hk, hs⟩)
      · exact hf
      · exact absurd hs (hno k hk)

/-! ### What is found -/

/-- The definitions of the table, and the one that is found, have the property. -/
def All (P : Str → Prop) (s : Resolution) : Prop :=
  (∀ r ∈ s.found, P r) ∧ ∀ k t, s.active.get? k = some t → P t

theorem all_key {P : Str → Prop} {s : Resolution} (h : All P s) (o a : Str) : All P (key o s a) := by
  rcases key_cases o s a with ⟨-, he⟩ | ⟨t, ha, -, he⟩ | ⟨t, ha, -, he⟩
  · rwa [he]
  · rw [he]
    refine ⟨h.1, fun k r hk => ?_⟩
    simp only [Dict.get?_set, Dict.get?_erase] at hk
    split at hk
    · cases hk
      exact h.2 a t ha
    · split at hk
      · cases hk
      · exact h.2 k r hk
  · rw [he]
    refine ⟨fun r hr => ?_, fun k r hk => ?_⟩
    · cases hr
      exact h.2 a t ha
    · simp only [Dict.get?_erase] at hk
      split at hk
      · cases hk
      · exact h.2 k r hk

theorem all_run {P : Str → Prop} : ∀ (fuel : ℕ) (s t : Resolution), run os fuel s = some t →
    All P s → All P t
  | 0, _, _, h, _ => nomatch h
  | fuel + 1, s, t, h, hs => by
    have hpass : All P (pass os s) := by
      refine List.foldlRecOn os override ⟨hs.1, hs.2⟩ fun s hs o _ => ?_
      exact List.foldlRecOn _ (key o) hs fun s hs a _ => all_key hs o a
    rw [run] at h
    by_cases hmod : (pass os s).mod
    · simp only [if_pos hmod] at h
      exact all_run fuel _ t h hpass
    · simp only [if_neg hmod, Option.some.injEq] at h
      exact h ▸ hpass

/-! ### Keys of one part -/

theorem key_self (o : Str) (s : Resolution) (ho : ':' ∉ o) : key o s o =
    (s.active.get? o).elim s fun t => { s with found := some t, active := s.active.erase o } := by
  rcases key_cases o s o with ⟨hno, he⟩ | ⟨t, -, hsuf, -⟩ | ⟨t, ha, -, he⟩
  · have ho : o ∉ s.active := hno.elim id fun h => absurd rfl h.2
    rw [he, Dict.get?_eq_none_iff.2 ho, Option.elim_none]
  · exact absurd (hsuf.subset List.mem_cons_self) ho
  · rw [he, ha, Option.elim_some]

theorem key_other {o : Str} {s : Resolution} {a : Str} (ha : ':' ∉ a) (hne : a ≠ o) :
    key o s a = s := by
  rcases key_cases o s a with ⟨-, he⟩ | ⟨t, -, hsuf, -⟩ | ⟨t, -, hao, -⟩
  · exact he
  · exact absurd (hsuf.subset List.mem_cons_self) ha
  · exact absurd hao hne

/-- Without colons in the keys an override takes its own key, and no other one. -/
theorem override_single {s : Resolution} (hs : ∀ k ∈ s.active, ':' ∉ k) (o : Str) :
    override s o = (s.active.get? o).elim s fun t =>
      { s with found := some t, active := s.active.erase o } := by
  have hskip : ∀ (l : List Str) (s : Resolution), (∀ k ∈ l, ':' ∉ k) → o ∉ l →
      l.foldl (key o) s = s := by
    intro l
    induction l with
    | nil => exact fun s _ _ => rfl
    | cons a l ih =>
      intro s hl ho
      rw [List.mem_cons, not_or] at ho
      rw [List.foldl_cons, key_other (hl a List.mem_cons_self) (Ne.symm ho.1)]
      exact ih s (fun k hk => hl k (List.mem_cons_of_mem a hk)) ho.2
  have hkeys : ∀ k ∈ s.active.keys, ':' ∉ k := fun k hk => hs k (Dict.mem_iff_mem_keys.2 hk)
  have hn := s.active.keys_nodup
  unfold override
  by_cases ho : o ∈ s.active.keys
  · obtain ⟨l, l', hl⟩ := List.append_of_mem ho
    rw [hl] at hkeys hn ⊢
    have hno := List.nodup_middle.1 hn
    rw [List.nodup_cons, List.mem_append, not_or] at hno
    rw [List.foldl_append, hskip l _ (fun k hk => hkeys k (List.mem_append_left _ hk)) hno.1.1,
      List.foldl_cons, key_self o s (hkeys o (by simp))]
    exact hskip l' _ (fun k hk => hkeys k (by simp [hk])) hno.1.2
  · rw [hskip _ _ hkeys ho, Dict.get?_eq_none_iff.2 fun h => ho (Dict.mem_iff_mem_keys.1 h),
      Option.elim_none]

/-- The key whose first place in `OVERRIDES` is the last one. -/
def IsLast (os : List Str) (keys : Dict Str Str) (k : Str) : Prop :=
  k ∈ os ∧ ∀ k' ∈ keys, k' ∈ os → os.idxOf k' ≤ os.idxOf k

theorem pass_single {s : Resolution} (hs : ∀ k ∈ s.active, ':' ∉ k) (hfound : s.found = none)
    (os : List Str) : (pass os s).mod = false ∧
      ∀ r, (pass os s).found = some r → ∃ k, s.active.get? k = some r ∧ IsLast os s.active k := by
  suffices h : (pass os s).mod = false ∧
      (∀ k, (pass os s).active.get? k = if k ∈ os then none else s.active.get? k) ∧
      ∀ r, (pass os s).found = some r →
        ∃ k, s.active.get? k = some r ∧ IsLast os s.active k from ⟨h.1, h.2.2⟩
  induction os using List.reverseRecOn with
  | nil => exact ⟨rfl, fun k => by simp [pass], fun r hr => by simp [pass, hfound] at hr⟩
  | append_singleton os o ih =>
    obtain ⟨hmod, hget, hlast⟩ := ih
    have hkeys : ∀ k ∈ (pass os s).active, ':' ∉ k := by
      intro k hk
      obtain ⟨t, ht⟩ := Dict.mem_iff_get?_isSome.1 hk
      rw [hget] at ht
      split at ht
      · cases ht
      · exact hs k (Dict.mem_of_get? ht)
    have hpass : pass (os ++ [o]) s = override (pass os s) o := by
      rw [pass, List.foldl_concat]
      rfl
    -- a key that was there before keeps its place
    have hidx : ∀ k ∈ os, (os ++ [o]).idxOf k = os.idxOf k := fun k hk => List.idxOf_append_of_mem hk
    rw [hpass, override_single hkeys]
    cases ho : (pass os s).active.get? o with
    | none =>
      have hgone : o ∈ os ∨ o ∉ s.active := by
        rw [hget] at ho
        split at ho
        · exact .inl ‹_›
        · exact .inr (Dict.get?_eq_none_iff.1 ho)
      refine ⟨hmod, fun k => ?_, fun r hr => ?_⟩
      · show (pass os s).active.get? k = _
        rw [hget]
        by_cases hk : k ∈ os
        · rw [if_pos hk, if_pos (List.mem_append_left _ hk)]
        · rw [if_neg hk]
          by_cases hko : k = o
          · subst hko
            rw [if_pos (by simp), Dict.get?_eq_none_iff.2 (hgone.resolve_left hk)]
          · rw [if_neg (by simp [hk, hko])]
      · obtain ⟨k, hk, hmem, hmax⟩ := hlast r hr
        refine ⟨k, hk, List.mem_append_left _ hmem, fun k' hk' hm => ?_⟩
        have hm : k' ∈ os := by
          rcases List.mem_append.1 hm with hm | hm
          · exact hm
          · rw [List.mem_singleton.1 hm] at hk' ⊢
            exact hgone.resolve_right fun h => h hk'
        rw [hidx k' hm, hidx k hmem]
        exact hmax k' hk' hm
    | some t =>
      have hnew : o ∉ os ∧ s.active.get? o = some t := by
        rw [hget] at ho
        split at ho
        · cases ho
        · exact ⟨‹_›, ho⟩
      refine ⟨hmod, fun k => ?_, fun r hr => ?_⟩
      · show ((pass os s).active.erase o).get? k = _
        rw [Dict.get?_erase, hget]
        by_cases hko : k = o
        · rw [if_pos hko, if_pos (by simp [hko])]
        · rw [if_neg hko]
          simp [hko]
      · cases hr
        refine ⟨o, hnew.2, by simp, fun k' hk' hm => ?_⟩
        rw [List.idxOf_append_of_notMem hnew.1, List.idxOf_cons_self]
        rcases List.mem_append.1 hm with hm | hm
        · rw [hidx k' hm]
          exact (List.idxOf_lt_length_of_mem hm).le
        · rw [List.mem_singleton.1 hm, List.idxOf_append_of_notMem hnew.1, List.idxOf_cons_self]

theorem run_single {s t : Resolution} (hs : ∀ k ∈ s.active, ':' ∉ k) (hfound : s.found = none)
    {fuel : ℕ} (h : run os fuel s = some t) {r : Str} (hr : t.found = some r) :
    ∃ k, s.active.get? k = some r ∧ IsLast os s.active k := by
  obtain ⟨hmod, hlast⟩ := pass_single hs hfound os
  cases fuel with
  | zero => cases h
  | succ fuel =>
    rw [run] at h
    simp only [hmod, Bool.false_eq_true, if_false, Option.some.injEq] at h
    exact hlast r (h ▸ hr)

end Resolution
end BitBake
end OpenBmc
