import OpenBmc.BitBake.Resolution

/-!
# Override selection

`setVar` registers an override definition under each name it is an override of, and `getVar` reads
the definition that the loop over `OVERRIDES` finds. `selects_active_iff` says when that is an
active definition, and the right one: the loop takes a part away wherever it stands in a key, so a
key with a part that begins like a later one can lose its match.
-/

namespace OpenBmc
namespace BitBake
open Py

/-! ### What is registered -/

/-- Each part of an override begins as `__override_regexp__` asks for. -/
def OverrideName (o : Str) : Prop := ∀ c ∈ o.splitOn ':', overrideMatch c

theorem splitOn_append_colon (x o : Str) :
    (x ++ ':' :: o).splitOn ':' = x.splitOn ':' ++ o.splitOn ':' := by
  simp only [List.splitOn_eq_splitOnP]
  exact List.splitOnP_append_cons _ _ (by decide)

theorem overrideMatch_head (o : Str) :
    ∃ c rest, o.splitOn ':' = c :: rest ∧ overrideMatch c = overrideMatch o := by
  cases o with
  | nil => exact ⟨[], [], rfl, rfl⟩
  | cons a o =>
    by_cases ha : a = ':'
    · subst ha
      exact ⟨[], o.splitOn ':', by simpa using splitOn_append_colon [] o, rfl⟩
    · obtain ⟨c, rest, hsplit⟩ := List.exists_cons_of_ne_nil (List.splitOn_ne_nil ':' o)
      refine ⟨a :: c, rest, ?_, rfl⟩
      rw [List.splitOn_cons_eq_if_modifyHead, if_neg (by simpa using ha), hsplit]
      rfl

theorem overrideName_iff {o : Str} : OverrideName o ↔
    overrideMatch o ∧ ∀ c ∈ (o.splitOn ':').tail, overrideMatch c := by
  obtain ⟨c, rest, hsplit, hmatch⟩ := overrideMatch_head o
  rw [OverrideName, hsplit, List.forall_mem_cons, hmatch, List.tail_cons]

theorem OverrideName.of_append {x o : Str} (h : OverrideName (x ++ ':' :: o)) :
    OverrideName x ∧ OverrideName o := by
  simp only [OverrideName, splitOn_append_colon, List.mem_append] at h
  exact ⟨fun c hc => h c (.inl hc), fun c hc => h c (.inr hc)⟩

/-- A longer name of a variable is split before a shorter one of the same definition. -/
theorem eq_or_split {v o short ov : Str} (h : v ++ ':' :: o = short ++ ':' :: ov)
    (hlen : v.length ≤ short.length) :
    v = short ∧ o = ov ∨ ∃ x, short = v ++ ':' :: x ∧ o = x ++ ':' :: ov := by
  rcases List.append_eq_append_iff.1 h with ⟨x, rfl, hx⟩ | ⟨x, rfl, hx⟩
  · cases x with
    | nil => exact .inl ⟨by simp, by simpa using hx⟩
    | cons c x =>
      rw [List.cons_append, List.cons.injEq] at hx
      obtain ⟨rfl, rfl⟩ := hx
      exact .inr ⟨x, rfl, rfl⟩
  · rw [List.length_append] at hlen
    obtain rfl : x = [] := List.length_eq_zero_iff.1 (by omega)
    exact .inl ⟨by simp, by simpa using hx.symm⟩

namespace DataSmart

/-- The override definitions of a variable. -/
def registered (data : Dict Str (List (Str × Str))) (v : Str) : List (Str × Str) :=
  (data.get? v).getD []

theorem mem_register {data : Dict Str (List (Str × Str))} {short var ov v : Str}
    {e : Str × Str} : e ∈ registered (register data short var ov) v ↔
      e ∈ registered data v ∨ v = short ∧ e = (var, ov) := by
  unfold registered register
  simp only [Dict.get?_set]
  by_cases hv : v = short
  · subst hv
    rw [if_pos rfl, Option.getD_some]
    split
    · refine ⟨.inl, ?_⟩
      rintro (h | ⟨-, rfl⟩)
      · exact h
      · assumption
    · simp
  · simp [hv]

theorem mem_updateOverrides {var v : Str} (hv : v ≠ []) {e : Str × Str} :
    ∀ (fuel : ℕ) (short ov : Str) (data : Dict Str (List (Str × Str))), short.length < fuel →
    var = short ++ ':' :: ov → (∀ c ∈ (ov.splitOn ':').tail, overrideMatch c) →
    (e ∈ registered (updateOverrides var fuel short ov data) v ↔ e ∈ registered data v ∨
      v.length ≤ short.length ∧ e.1 = var ∧ var = v ++ ':' :: e.2 ∧ OverrideName e.2)
  | 0, _, _, _, h, _, _ => absurd h (Nat.not_lt_zero _)
  | fuel + 1, short, ov, data, hfuel, hvar, htail => by
    rw [updateOverrides]
    by_cases hmatch : overrideMatch ov
    · have hname : OverrideName ov := overrideName_iff.2 ⟨hmatch, htail⟩
      have hself : v = short ∧ e = (var, ov) → v.length ≤ short.length ∧ e.1 = var ∧
          var = v ++ ':' :: e.2 ∧ OverrideName e.2 := by
        rintro ⟨rfl, rfl⟩
        exact ⟨le_rfl, rfl, hvar, hname⟩
      rw [if_pos hmatch]
      rcases hp : rpartition ':' short with ⟨_ | b, rest⟩
      · have hno := (rpartition_none hp).2
        simp only [mem_register]
        refine or_congr_right ⟨hself, ?_⟩
        rintro ⟨hlen, he, hv', -⟩
        rcases eq_or_split (hv'.symm.trans hvar) hlen with ⟨hs, ho⟩ | ⟨x, hs, -⟩
        · exact ⟨hs, Prod.ext he ho⟩
        · rw [hs] at hno
          simp at hno
      · have hshort := rpartition_some hp
        have hno : ':' ∉ (rpartition ':' short).2 := not_mem_rpartition_snd short
        rw [hp] at hno
        -- a name shorter than `short` ends in front of the last colon of `short`, or before it
        have hsplit : e.1 = var → var = v ++ ':' :: e.2 → v.length ≤ short.length →
            v = short ∧ e = (var, ov) ∨ v.length ≤ b.length := by
          intro he hv' hlen
          rcases eq_or_split (hv'.symm.trans hvar) hlen with ⟨hs, ho⟩ | ⟨x, hs, -⟩
          · exact .inl ⟨hs, Prod.ext he ho⟩
          · right
            by_contra hlt
            rcases eq_or_split (hshort.symm.trans hs) (by omega) with ⟨hb, -⟩ | ⟨y, -, hrest⟩
            · exact hlt (hb ▸ le_rfl)
            · rw [hrest] at hno
              simp at hno
        by_cases hb : b = []
        · simp only [hb, if_true, mem_register]
          refine or_congr_right ⟨hself, ?_⟩
          rintro ⟨hlen, he, hv', -⟩
          refine (hsplit he hv' hlen).resolve_right fun hlt => hv ?_
          rw [hb, List.length_nil] at hlt
          exact List.length_eq_zero_iff.1 (by omega)
        · have hlen' : b.length < short.length := by
            rw [hshort, List.length_append, List.length_cons]
            omega
          have htail' : ∀ c ∈ ((rest ++ ':' :: ov).splitOn ':').tail, overrideMatch c := by
            rw [splitOn_append_colon, List.splitOn_eq_singleton hno]
            exact hname
          have hvar' : var = b ++ ':' :: (rest ++ ':' :: ov) := by
            rw [hvar, hshort]
            simp
          simp only [if_neg hb]
          rw [mem_updateOverrides hv fuel b _ _ (by omega) hvar' htail', mem_register, or_assoc]
          refine or_congr_right ⟨?_, ?_⟩
          · rintro (h | ⟨hlt, h⟩)
            · exact hself h
            · exact ⟨by omega, h⟩
          · rintro ⟨hlen, he, hv', ho⟩
            exact (hsplit he hv' hlen).imp id fun hlt => ⟨hlt, he, hv', ho⟩
    · rw [if_neg hmatch]
      refine ⟨.inl, ?_⟩
      rintro (h | ⟨hlen, -, he, hname⟩)
      · exact h
      · rcases eq_or_split (he.symm.trans hvar) hlen with ⟨-, ho⟩ | ⟨x, -, ho⟩
        · exact absurd (overrideName_iff.1 (ho ▸ hname)).1 hmatch
        · exact absurd (overrideName_iff.1 (ho ▸ hname).of_append.2).1 hmatch

/-- A registered definition is one of an override of the variable, set or there before. -/
theorem mem_setvarUpdateOverrides {d : DataSmart} {var v : Str} (hv : v ≠ []) (hvar : ':' ∈ var)
    {e : Str × Str} : e ∈ registered (d.setvarUpdateOverrides var).overridedata v ↔
      e ∈ registered d.overridedata v ∨
        e.1 = var ∧ var = v ++ ':' :: e.2 ∧ OverrideName e.2 := by
  unfold setvarUpdateOverrides
  rcases hp : rpartition ':' var with ⟨_ | short, ov⟩
  · exact absurd hvar (rpartition_none hp).2
  · have hno : ':' ∉ (rpartition ':' var).2 := not_mem_rpartition_snd var
    rw [hp] at hno
    have hshort := rpartition_some hp
    have htail : ∀ c ∈ (ov.splitOn ':').tail, overrideMatch c := by
      rw [List.splitOn_eq_singleton hno]
      exact fun c hc => absurd hc List.not_mem_nil
    have hlen : short.length < var.length := by
      rw [hshort, List.length_append, List.length_cons]
      omega
    simp only
    rw [mem_updateOverrides hv _ _ _ _ hlen hshort htail]
    refine or_congr_right ⟨And.right, fun h => ⟨?_, h⟩⟩
    by_contra hlt
    rcases eq_or_split (hshort.symm.trans h.2.1) (by omega) with ⟨hs, -⟩ | ⟨x, -, hx⟩
    · exact hlt (hs ▸ le_rfl)
    · rw [hx] at hno
      simp at hno

/-! ### A parsed store -/

/-- The store after the assignments of a parsed file. -/
def parse (overrides : Str) (assignments : List (Str × Str)) : DataSmart :=
  assignments.foldl (fun d e => d.setVar e.1 e.2)
    { dict := .empty, overridedata := .empty, overrides := overrides.splitOn ':' }

/-- What plain assignments leave in a store. -/
structure Parsed (assignments : List (Str × Str)) (d : DataSmart) : Prop where
  flags : ∀ v, d.flags v = { content := (Dict.ofList assignments).get? v }
  registered : ∀ v, v ≠ [] → ∀ e, e ∈ registered d.overridedata v ↔
    e.1 ∈ assignments.map Prod.fst ∧ e.1 = v ++ ':' :: e.2 ∧ OverrideName e.2

theorem setVar_plain {d : DataSmart} {var : Str} (h : setvarMatch var = none) (value : Str) :
    d.setVar var value =
      let d := if ':' ∈ var then d.setvarUpdateOverrides var else d
      { d with dict := d.dict.set var { (d.dict.get? var).getD {} with content := some value } } := by
  rw [setVar, h]

theorem dict_setvarUpdateOverrides (d : DataSmart) (var : Str) :
    (d.setvarUpdateOverrides var).dict = d.dict ∧
      (d.setvarUpdateOverrides var).overrides = d.overrides := by
  unfold setvarUpdateOverrides
  split <;> exact ⟨rfl, rfl⟩

theorem overrides_setVar (d : DataSmart) (var value : Str) :
    (d.setVar var value).overrides = d.overrides := by
  unfold setVar
  split
  · exact (dict_setvarUpdateOverrides _ _).2
  · simp only
    split
    · exact (dict_setvarUpdateOverrides d var).2
    · rfl

theorem Parsed.setVar {assignments : List (Str × Str)} {d : DataSmart}
    (h : Parsed assignments d) {var : Str} (hvar : setvarMatch var = none) (value : Str) :
    Parsed (assignments ++ [(var, value)]) (d.setVar var value) := by
  have hofList : ∀ v, (Dict.ofList (assignments ++ [(var, value)])).get? v =
      if v = var then some value else (Dict.ofList assignments).get? v := fun v => by
    rw [Dict.ofList, Dict.assign_append, Dict.assign_cons, Dict.assign_nil, Dict.get?_set]
    rfl
  have hdict : (if ':' ∈ var then d.setvarUpdateOverrides var else d).dict = d.dict := by
    split
    · exact (dict_setvarUpdateOverrides d var).1
    · rfl
  rw [setVar_plain hvar]
  constructor
  · intro v
    have hflags : (d.dict.get? v).getD {} = _ := h.flags v
    simp only [DataSmart.flags, hdict, Dict.get?_set, hofList]
    by_cases hv : v = var
    · subst hv
      rw [if_pos rfl, if_pos rfl, Option.getD_some, hflags]
    · rw [if_neg hv, if_neg hv, hflags]
  · intro v hv e
    rw [List.map_append, List.mem_append, List.map_singleton, List.mem_singleton, or_and_right,
      ← h.registered v hv e]
    by_cases hcolon : ':' ∈ var
    · simp only [if_pos hcolon]
      rw [mem_setvarUpdateOverrides hv hcolon]
      refine or_congr_right ⟨?_, ?_⟩
      · rintro ⟨he, hsplit, hname⟩
        exact ⟨he, he ▸ hsplit, hname⟩
      · rintro ⟨he, hsplit, hname⟩
        exact ⟨he, he ▸ hsplit, hname⟩
    · simp only [if_neg hcolon]
      refine ⟨.inl, ?_⟩
      rintro (hm | ⟨he, hsplit, -⟩)
      · exact hm
      · rw [← he, hsplit] at hcolon
        simp at hcolon

theorem parsed_parse {overrides : Str} {assignments : List (Str × Str)}
    (h : ∀ e ∈ assignments, setvarMatch e.1 = none) :
    Parsed assignments (parse overrides assignments) := by
  induction assignments using List.reverseRecOn with
  | nil =>
    refine ⟨fun v => rfl, fun v hv e => ?_⟩
    simp [parse, DataSmart.registered]
  | append_singleton assignments e ih =>
    rw [parse, List.foldl_concat]
    exact (ih fun f hf => h f (List.mem_append_left _ hf)).setVar (h e (by simp)) e.2

theorem overrides_parse (overrides : Str) (assignments : List (Str × Str)) :
    (parse overrides assignments).overrides = overrides.splitOn ':' := by
  induction assignments using List.reverseRecOn with
  | nil => rfl
  | append_singleton assignments e ih =>
    rw [parse, List.foldl_concat]
    exact (overrides_setVar _ e.1 e.2).trans ih

/-! ### The table of active overrides -/

theorem not_colon_of_overrides {overrides : Str} {assignments : List (Str × Str)} {o : Str}
    (h : o ∈ (parse overrides assignments).overrides) : ':' ∉ o := by
  rw [overrides_parse] at h
  exact not_mem_of_mem_splitOn h

/-- A definition of an override of the variable, all of whose parts are in `OVERRIDES`. -/
structure ActiveOverride (assignments : List (Str × Str)) (d : DataSmart) (v o : Str) : Prop where
  assigned : v ++ ':' :: o ∈ assignments.map Prod.fst
  name : OverrideName o
  active : d.isActive o

theorem isActive_append {d : DataSmart} {o p : Str} :
    d.isActive (o ++ ':' :: p) ↔ d.isActive o ∧ d.isActive p := by
  simp only [isActive, splitOn_append_colon, List.all_append, Bool.and_eq_true]

theorem isActive_single {d : DataSmart} {o : Str} (ho : ':' ∉ o) :
    d.isActive o ↔ o ∈ d.overrides := by
  rw [isActive, List.splitOn_eq_singleton ho]
  simp

theorem mem_activeOverrides {d : DataSmart} (hd : ∀ o ∈ d.overrides, ':' ∉ o) {v : Str}
    {l : List (Str × Str)} (hl : ∀ e ∈ l, e.1 = v ++ ':' :: e.2) {o r : Str} :
    (d.activeOverrides l).get? o = some r ↔ (r, o) ∈ l ∧ d.isActive o := by
  induction l using List.reverseRecOn with
  | nil => simp [activeOverrides]
  | append_singleton l e ih =>
    have ih := ih fun f hf => hl f (List.mem_append_left _ hf)
    have hstep : d.activeOverrides (l ++ [e]) =
        if d.isActive e.2 then (d.activeOverrides l).set e.2 e.1 else d.activeOverrides l := by
      rw [activeOverrides, List.foldl_concat]
      by_cases hcolon : ':' ∈ e.2
      · rw [if_neg fun h => hd _ h hcolon, if_pos hcolon]
        rfl
      · simp only [isActive_single hcolon, if_neg hcolon]
        rfl
    rw [hstep, List.mem_append, List.mem_singleton]
    by_cases hactive : d.isActive e.2
    · rw [if_pos hactive, Dict.get?_set]
      by_cases ho : o = e.2
      · subst ho
        rw [if_pos rfl, Option.some.injEq]
        constructor
        · rintro rfl
          exact ⟨.inr rfl, hactive⟩
        · rintro ⟨hm | hm, -⟩
          · rw [hl e (by simp)]
            exact (hl (r, e.2) (List.mem_append_left _ hm)).symm
          · rw [← hm]
      · rw [if_neg ho, ih]
        refine and_congr_left fun _ => ⟨.inl, ?_⟩
        rintro (hm | hm)
        · exact hm
        · exact absurd (congrArg Prod.snd hm) ho
    · rw [if_neg hactive, ih]
      refine ⟨fun h => ⟨.inl h.1, h.2⟩, fun h => ⟨h.1.resolve_right fun he => ?_, h.2⟩⟩
      rw [← he] at hactive
      exact hactive h.2

/-- The loop's start for a variable. -/
def table (d : DataSmart) (v : Str) : Resolution :=
  { active := d.activeOverrides (registered d.overridedata v) }

theorem selected_run (overrides : Str) (assignments : List (Str × Str)) (v : Str) :
    ∃ t, (table (parse overrides assignments) v).run (parse overrides assignments).overrides
      ((table (parse overrides assignments) v).size + 1) = some t ∧
    (parse overrides assignments).selected v = t.found := by
  obtain ⟨t, ht⟩ := Resolution.run_ends (parse overrides assignments).overrides
    ((table (parse overrides assignments) v).size + 1) _ (Nat.lt_succ_self _)
  refine ⟨t, ht, ?_⟩
  unfold selected
  cases hget : (parse overrides assignments).overridedata.get? v with
  | none =>
    have hempty : (table (parse overrides assignments) v).active = .empty := by
      rw [table, registered, hget]
      rfl
    have hnone : ¬ t.found.isSome := by
      rw [Resolution.run_found (fun o => not_colon_of_overrides) _ _ _ ht]
      rintro (hf | ⟨k, hk, -⟩)
      · cases hf
      · rw [hempty] at hk
        exact absurd hk List.not_mem_nil
    exact (Option.not_isSome_iff_eq_none.1 hnone).symm
  | some l =>
    have htable : table (parse overrides assignments) v =
        { active := (parse overrides assignments).activeOverrides l } := by
      rw [table, registered, hget]
      rfl
    rw [htable] at ht
    simp only [ht, Option.bind_some]

section parsed
variable {overrides : Str} {assignments : List (Str × Str)}
  (h : ∀ e ∈ assignments, setvarMatch e.1 = none) {v : Str} (hv : v ≠ [])
include h hv

theorem table_active {o r : Str} :
    (table (parse overrides assignments) v).active.get? o = some r ↔
      r = v ++ ':' :: o ∧ ActiveOverride assignments (parse overrides assignments) v o := by
  have hparsed : Parsed assignments (parse overrides assignments) := parsed_parse h
  have hreg := hparsed.registered v hv
  rw [table, mem_activeOverrides (fun o => not_colon_of_overrides) fun e he => ((hreg e).1 he).2.1,
    hreg]
  constructor
  · rintro ⟨⟨hassigned, hr, hname⟩, hactive⟩
    have hr : r = v ++ ':' :: o := hr
    subst hr
    exact ⟨rfl, hassigned, hname, hactive⟩
  · rintro ⟨rfl, hassigned, hname, hactive⟩
    exact ⟨⟨hassigned, rfl, hname⟩, hactive⟩

theorem selected_active {r : Str} (hr : (parse overrides assignments).selected v = some r) :
    ∃ o, r = v ++ ':' :: o ∧ ActiveOverride assignments (parse overrides assignments) v o := by
  obtain ⟨t, ht, hfound⟩ := selected_run overrides assignments v
  have hstart : Resolution.All (fun r => ∃ o, r = v ++ ':' :: o ∧
      ActiveOverride assignments (parse overrides assignments) v o)
      (table (parse overrides assignments) v) := by
    refine ⟨fun r hr => (nomatch hr), fun o r ho => ⟨o, (table_active h hv).1 ho⟩⟩
  exact (Resolution.all_run _ _ _ ht hstart).1 r (hfound ▸ hr)

theorem selected_isSome : ((parse overrides assignments).selected v).isSome ↔
    ∃ o, ActiveOverride assignments (parse overrides assignments) v o ∧
      Resolution.Survives (parse overrides assignments).overrides o := by
  obtain ⟨t, ht, hfound⟩ := selected_run overrides assignments v
  rw [hfound, Resolution.run_found (fun o => not_colon_of_overrides) _ _ _ ht]
  constructor
  · rintro (hf | ⟨k, hk, hs⟩)
    · cases hf
    · obtain ⟨r, hr⟩ := Dict.mem_iff_get?_isSome.1 hk
      exact ⟨k, ((table_active h hv).1 hr).2, hs⟩
  · rintro ⟨o, ho, hs⟩
    exact .inr ⟨o, Dict.mem_of_get? ((table_active h hv).2 ⟨rfl, ho⟩), hs⟩

theorem selected_single
    (hsingle : ∀ o, ActiveOverride assignments (parse overrides assignments) v o → ':' ∉ o)
    {r : Str} (hr : (parse overrides assignments).selected v = some r) :
    ∃ o, r = v ++ ':' :: o ∧ ActiveOverride assignments (parse overrides assignments) v o ∧
      ∀ p, ActiveOverride assignments (parse overrides assignments) v p →
        (parse overrides assignments).overrides.idxOf p ≤
          (parse overrides assignments).overrides.idxOf o := by
  obtain ⟨t, ht, hfound⟩ := selected_run overrides assignments v
  have hkeys : ∀ k ∈ (table (parse overrides assignments) v).active, ':' ∉ k := by
    intro k hk
    obtain ⟨r, hr⟩ := Dict.mem_iff_get?_isSome.1 hk
    exact hsingle k ((table_active h hv).1 hr).2
  obtain ⟨o, ho, -, hlast⟩ := Resolution.run_single hkeys rfl ht (hfound ▸ hr)
  obtain ⟨hr, hactive⟩ := (table_active h hv).1 ho
  refine ⟨o, hr, hactive, fun p hp => hlast p ?_ ?_⟩
  · exact Dict.mem_of_get? ((table_active h hv).2 ⟨rfl, hp⟩)
  · exact (isActive_single (hsingle p hp)).1 hp.active

end parsed

/-! ### The definition that is read -/

/-- The variable's value is that of the definition, which no other one overrides. -/
inductive Reads (d : DataSmart) : Str → Str → Prop
  | own {v : Str} : d.selected v = none → Reads d v v
  | overridden {v m n : Str} : d.selected v = some m → Reads d m n → Reads d v n

theorem Reads.unique {d : DataSmart} {v n m : Str} (hn : Reads d v n) (hm : Reads d v m) :
    n = m := by
  induction hn with
  | own hsel =>
    cases hm with
    | own _ => rfl
    | overridden hsel' _ =>
      rw [hsel] at hsel'
      cases hsel'
  | overridden hsel _ ih =>
    cases hm with
    | own hsel' =>
      rw [hsel] at hsel'
      cases hsel'
    | overridden hsel' hrest =>
      rw [hsel, Option.some.injEq] at hsel'
      exact ih (hsel' ▸ hrest)

section parsed
variable {overrides : Str} {assignments : List (Str × Str)}
  (h : ∀ e ∈ assignments, setvarMatch e.1 = none)
include h

omit h in
theorem ActiveOverride.trans {v o p : Str}
    (ho : ActiveOverride assignments (parse overrides assignments) v o)
    (hp : ActiveOverride assignments (parse overrides assignments) (v ++ ':' :: o) p) :
    ActiveOverride assignments (parse overrides assignments) v (o ++ ':' :: p) := by
  refine ⟨by simpa using hp.assigned, ?_, isActive_append.2 ⟨ho.active, hp.active⟩⟩
  intro c hc
  rw [splitOn_append_colon, List.mem_append] at hc
  exact hc.elim (ho.name c) (hp.name c)

/-- A definition other than the variable itself is one of an active override. -/
theorem Reads.active {v n : Str} (hr : Reads (parse overrides assignments) v n) (hv : v ≠ []) :
    n = v ∨ ∃ o, n = v ++ ':' :: o ∧
      ActiveOverride assignments (parse overrides assignments) v o := by
  induction hr with
  | own _ => exact .inl rfl
  | overridden hsel _ ih =>
    right
    obtain ⟨o, rfl, ho⟩ := selected_active h hv hsel
    rcases ih (by simp) with rfl | ⟨p, rfl, hp⟩
    · exact ⟨o, rfl, ho⟩
    · exact ⟨o ++ ':' :: p, by simp, ho.trans hp⟩

/-- The names get longer, so the definitions read for one another come to an end. -/
theorem reads_exists {v : Str} (hv : v ≠ []) : ∃ n, Reads (parse overrides assignments) v n := by
  have hbound : ∀ m ∈ assignments.map Prod.fst, m.length ≤ (assignments.map Prod.fst).flatten.length :=
    fun m hm => (List.sublist_flatten_of_mem hm).length_le
  induction hk : (assignments.map Prod.fst).flatten.length - v.length using Nat.strong_induction_on
    generalizing v with
  | _ k ih =>
    cases hsel : (parse overrides assignments).selected v with
    | none => exact ⟨v, .own hsel⟩
    | some m =>
      obtain ⟨o, rfl, ho⟩ := selected_active h hv hsel
      have hlen := hbound _ ho.assigned
      rw [List.length_append, List.length_cons] at hlen
      have hlt : (assignments.map Prod.fst).flatten.length - (v ++ ':' :: o).length < k := by
        rw [← hk, List.length_append, List.length_cons]
        omega
      obtain ⟨n, hn⟩ := ih _ hlt (by simp) rfl
      exact ⟨n, .overridden hsel hn⟩

/-- A read of a store without other keywords has the value of the definition that is read. -/
theorem getVarFlag_reads {E : Expansion} : ∀ (n : ℕ) {v : Str}, v ≠ [] →
    ∀ {expand retparser : Bool}, (expand || retparser) = true →
    ∀ {t : Option Str} {p : Option VariableParse},
    (parse overrides assignments).getVarFlag E n v expand retparser = .ok (t, p) →
    ∃ m, Reads (parse overrides assignments) v m ∧ p.bind (·.removes) = none ∧
      (expand = false → t = (Dict.ofList assignments).get? m) ∧
      (expand = true → ((Dict.ofList assignments).get? m).elim (t = none) fun c =>
        ∃ x, t = some x ∧ E.text (some v) c = .ok x)
  | 0, _, _, _, _, _, _, _, hget => nomatch hget
  | n + 1, v, hv, expand, retparser, hb, t, p, hget => by
    have hflags : (parse overrides assignments).flags v =
        { content := (Dict.ofList assignments).get? v } := (parsed_parse h).flags v
    have hremoves : (parse overrides assignments).activeRemoves v = [] := by
      rw [activeRemoves, hflags]
      rfl
    have hraw : ∀ value, (parse overrides assignments).rawValue v value =
        value.or ((Dict.ofList assignments).get? v) := by
      intro value
      rw [rawValue, addPrepends, addAppends, ownValue, hflags]
      simp
    obtain ⟨value, carried, parser, q, hvalue, hparse, rfl, ht, hq⟩ := getVarFlag_ok hb hget
    obtain ⟨m, hm, hcarried, hcontent⟩ : ∃ m, Reads (parse overrides assignments) v m ∧
        carried = [] ∧
        (parse overrides assignments).rawValue v value = (Dict.ofList assignments).get? m := by
      rcases hvalue with ⟨hsel, rfl, rfl⟩ | ⟨name, sub, hsel, hsub, hcarried⟩
      · exact ⟨v, .own hsel, rfl, by rw [hraw, Option.none_or]⟩
      · obtain ⟨o, rfl, ho⟩ := selected_active h hv hsel
        have hname : v ++ ':' :: o ≠ [] := by simp
        obtain ⟨m, hm, hnone, hval, -⟩ := getVarFlag_reads n hname rfl hsub
        have hassigned : m ∈ assignments.map Prod.fst := by
          rcases hm.active h hname with rfl | ⟨p, rfl, hp⟩
          · exact ho.assigned
          · exact hp.assigned
        obtain ⟨c, hc⟩ := Dict.mem_iff_get?_isSome.1 (Dict.mem_ofList.2 hassigned)
        refine ⟨m, .overridden hsel hm, by rw [hcarried, hnone]; rfl, ?_⟩
        rw [hraw, hval rfl, hc, Option.some_or]
    have hparser : q = parser := by
      rcases hq with ⟨hq, -⟩ | ⟨-, hne, -⟩
      · exact hq
      · rw [hcarried, hremoves] at hne
        exact absurd rfl hne
    subst hparser
    rw [hcontent] at hparse
    obtain ⟨hnone, hq⟩ := expandWithRefs_ok hparse
    refine ⟨m, hm, hnone, fun he => ?_, fun he => ?_⟩
    · rw [ht, he, hcontent]
      rfl
    · rw [ht, he]
      exact hq

/-- Where no expansion fails, enough rounds give a value. -/
theorem getVarFlag_returns {E : Expansion} (hE : ∀ name s, ∃ t, E.text name s = .ok t)
    {v n : Str} (hr : Reads (parse overrides assignments) v n) (hv : v ≠ []) :
    ∃ fuel, ∀ expand retparser, ∃ r,
      (parse overrides assignments).getVarFlag E fuel v expand retparser = .ok r := by
  have hread : ∀ (v : Str) value (expand retparser : Bool), ∃ r,
      readValue E (parse overrides assignments) v expand retparser value [] = .ok r := by
    intro v value expand retparser
    have hremoves : (parse overrides assignments).activeRemoves v = [] := by
      rw [activeRemoves, (parsed_parse h).flags v]
      rfl
    have hparse : ∀ value, ∃ parser, expandWithRefs E v value = .ok parser := by
      intro value
      cases value with
      | none => exact ⟨_, rfl⟩
      | some s =>
        obtain ⟨t, ht⟩ := hE (some v) s
        exact ⟨{ value := some t }, by simp [expandWithRefs, ht, bind, Except.bind, pure, Except.pure]⟩
    obtain ⟨parser, hparser⟩ := hparse ((parse overrides assignments).rawValue v value)
    simp only [readValue, hremoves, hparser, bind, Except.bind, List.append_nil, if_true, ite_self]
    split <;> exact ⟨_, rfl⟩
  induction hr with
  | own hsel =>
    refine ⟨1, fun expand retparser => ?_⟩
    simp only [getVarFlag, hsel]
    exact hread _ none expand retparser
  | @overridden v m n hsel _ ih =>
    obtain ⟨o, rfl, -⟩ := selected_active h hv hsel
    have hname : v ++ ':' :: o ≠ [] := by simp
    obtain ⟨fuel, hfuel⟩ := ih hname
    refine ⟨fuel + 1, fun expand retparser => ?_⟩
    obtain ⟨⟨value, sub⟩, hsub⟩ := hfuel false true
    obtain ⟨m, -, hnone, -⟩ := getVarFlag_reads h fuel hname rfl hsub
    simp only [getVarFlag, hsel, bind, Except.bind, hsub, hnone, Option.getD_none]
    exact hread _ value expand retparser

end parsed

/-! ### The selected definition -/

/-- An active override definition of the variable is read, if there is one, and among definitions
with one override the one that stands last in `OVERRIDES`. -/
structure SelectsActive (assignments : List (Str × Str)) (d : DataSmart) (v : Str) : Prop where
  /-- The resolution loop ends. -/
  ends : ∃ fuel t, (table d v).run d.overrides fuel = some t
  active : (∃ o, ActiveOverride assignments d v o) →
    ∃ o, ActiveOverride assignments d v o ∧ Reads d v (v ++ ':' :: o)
  last : (∃ o, ActiveOverride assignments d v o) →
    (∀ o, ActiveOverride assignments d v o → ':' ∉ o) →
    ∃ o, ActiveOverride assignments d v o ∧ Reads d v (v ++ ':' :: o) ∧
      ∀ p, ActiveOverride assignments d v p →
        d.overrides.reverse.idxOf o ≤ d.overrides.reverse.idxOf p
  /-- What `getVar` returns is the expanded value of the definition that is read. -/
  value : ∀ n, Reads d v n → ∀ (E : Expansion) fuel t p,
    d.getVarFlag E fuel v true false = .ok (t, p) →
    ((Dict.ofList assignments).get? n).elim (t = none) fun c =>
      ∃ x, t = some x ∧ E.text (some v) c = .ok x
  returns : ∀ E : Expansion, (∀ name s, ∃ t, E.text name s = .ok t) →
    ∃ fuel r, d.getVarFlag E fuel v true false = .ok r

/-- An active override survives the loop, and the override that stands last in `OVERRIDES` does not
stand before another active one as well. -/
structure OverridesApart (assignments : List (Str × Str)) (d : DataSmart) (v : Str) : Prop where
  survives : (∃ o, ActiveOverride assignments d v o) →
    ∃ o, ActiveOverride assignments d v o ∧ Resolution.Survives d.overrides o
  once : (∀ o, ActiveOverride assignments d v o → ':' ∉ o) →
    ∀ o, ActiveOverride assignments d v o →
      (∀ p, ActiveOverride assignments d v p →
        d.overrides.reverse.idxOf o ≤ d.overrides.reverse.idxOf p) →
      ∀ p, ActiveOverride assignments d v p → d.overrides.idxOf p ≤ d.overrides.idxOf o

section selects
variable {overrides : Str} {assignments : List (Str × Str)}
  (h : ∀ e ∈ assignments, setvarMatch e.1 = none) {v : Str} (hv : v ≠ [])
include h hv

omit hv in
/-- With one part in each active override, the definition that is selected is the one read. -/
theorem reads_single
    (hsingle : ∀ o, ActiveOverride assignments (parse overrides assignments) v o → ':' ∉ o)
    {o : Str} (ho : ActiveOverride assignments (parse overrides assignments) v o)
    (hsel : (parse overrides assignments).selected v = some (v ++ ':' :: o)) :
    Reads (parse overrides assignments) v (v ++ ':' :: o) := by
  refine .overridden hsel (.own ?_)
  by_contra hne
  obtain ⟨r, hr⟩ := Option.ne_none_iff_exists'.1 hne
  obtain ⟨p, rfl, hp⟩ := selected_active h (by simp) hr
  exact hsingle _ (ho.trans hp) (by simp)

theorem SelectsActive.apart (hs : SelectsActive assignments (parse overrides assignments) v) :
    OverridesApart assignments (parse overrides assignments) v := by
  constructor
  · intro hactive
    obtain ⟨o, -, hreads⟩ := hs.active hactive
    rw [← selected_isSome h hv]
    cases hsel : (parse overrides assignments).selected v with
    | some r => rfl
    | none =>
      have he := hreads.unique (.own hsel)
      simp at he
  · intro hsingle o ho hlast
    obtain ⟨p, hp, hreads, hplast⟩ := hs.last ⟨o, ho⟩ hsingle
    have hmem : ∀ q, ActiveOverride assignments (parse overrides assignments) v q →
        q ∈ (parse overrides assignments).overrides.reverse := fun q hq =>
      List.mem_reverse.2 ((isActive_single (hsingle q hq)).1 hq.active)
    obtain rfl : o = p := (List.idxOf_inj (hmem o ho)).1 (le_antisymm (hlast p hp) (hplast o ho))
    cases hsel : (parse overrides assignments).selected v with
    | none =>
      have he := hreads.unique (.own hsel)
      simp at he
    | some r =>
      obtain ⟨q, rfl, hq, hfirst⟩ := selected_single h hv hsingle hsel
      have he := hreads.unique (reads_single h hsingle hq hsel)
      rw [List.append_cancel_left_eq, List.cons.injEq] at he
      rw [he.2]
      exact hfirst

theorem OverridesApart.selects (hs : OverridesApart assignments (parse overrides assignments) v) :
    SelectsActive assignments (parse overrides assignments) v := by
  constructor
  · obtain ⟨t, ht, -⟩ := selected_run overrides assignments v
    exact ⟨_, t, ht⟩
  · intro hactive
    obtain ⟨n, hn⟩ : ∃ n, Reads (parse overrides assignments) v n := reads_exists h hv
    rcases hn.active h hv with rfl | ⟨o, rfl, ho⟩
    · have hsome := (selected_isSome h hv).2 (hs.survives hactive)
      obtain ⟨r, hr⟩ := Option.isSome_iff_exists.1 hsome
      cases hn with
      | own hsel =>
        rw [hsel] at hr
        cases hr
      | overridden hsel hrest =>
        obtain ⟨o, rfl, ho⟩ := selected_active h hv hsel
        rcases hrest.active h (by simp) with he | ⟨p, he, -⟩ <;> simp at he
    · exact ⟨o, ho, hn⟩
  · intro hactive hsingle
    obtain ⟨o, ho, hlast⟩ : ∃ o, ActiveOverride assignments (parse overrides assignments) v o ∧
        ∀ p, ActiveOverride assignments (parse overrides assignments) v p →
          (parse overrides assignments).overrides.reverse.idxOf o ≤
            (parse overrides assignments).overrides.reverse.idxOf p := by
      obtain ⟨o, ho, hmin⟩ := (measure (parse overrides assignments).overrides.reverse.idxOf).wf.has_min
        {o | ActiveOverride assignments (parse overrides assignments) v o} hactive
      exact ⟨o, ho, fun p hp => not_lt.1 (hmin p hp)⟩
    obtain ⟨r, hr⟩ := Option.isSome_iff_exists.1
      ((selected_isSome h hv).2 (hs.survives hactive))
    obtain ⟨q, rfl, hq, hfirst⟩ := selected_single h hv hsingle hr
    have hmem : ∀ q, ActiveOverride assignments (parse overrides assignments) v q →
        q ∈ (parse overrides assignments).overrides := fun q hq =>
      (isActive_single (hsingle q hq)).1 hq.active
    obtain rfl : o = q := (List.idxOf_inj (hmem o ho)).1
      (le_antisymm (hfirst o ho) (hs.once hsingle o ho hlast q hq))
    exact ⟨o, ho, reads_single h hsingle ho hr, hlast⟩
  · intro n hn E fuel t p hget
    obtain ⟨m, hm, -, -, hvalue⟩ := getVarFlag_reads h fuel hv rfl hget
    rw [hn.unique hm]
    exact hvalue rfl
  · intro E hE
    obtain ⟨n, hn⟩ : ∃ n, Reads (parse overrides assignments) v n := reads_exists h hv
    obtain ⟨fuel, hfuel⟩ := getVarFlag_returns h hE hn hv
    exact ⟨fuel, hfuel true false⟩

end selects

/-- Exactly then an active override is read whenever there is one, and the last one of single
overrides. -/
theorem selects_active_iff {overrides : Str} {assignments : List (Str × Str)}
    (h : ∀ e ∈ assignments, setvarMatch e.1 = none) {v : Str} (hv : v ≠ []) :
    SelectsActive assignments (parse overrides assignments) v ↔
      OverridesApart assignments (parse overrides assignments) v :=
  ⟨fun hs => hs.apart h hv, fun hs => hs.selects h hv⟩

namespace Sample

/-- A variable with its own value and one override definition. -/
def overridden (o : String) : List (Str × Str) :=
  [("V".toList, "own".toList), ("V:".toList ++ o.toList, "overridden".toList)]

theorem eq_of_active {o : String} {overrides p : Str}
    (h : ActiveOverride (overridden o) (parse overrides (overridden o)) "V".toList p) :
    p = o.toList := by
  have hassigned := h.assigned
  simpa [overridden] using hassigned

end Sample

theorem override_selected :
    SelectsActive (Sample.overridden "x") (parse "x:y".toList (Sample.overridden "x"))
      "V".toList := by
  refine (selects_active_iff (by decide) (by decide)).2 ⟨fun ⟨o, ho⟩ => ⟨o, ho, .here ?_⟩, ?_⟩
  · rw [Sample.eq_of_active ho]
    decide
  · intro _ o ho _ p hp
    rw [Sample.eq_of_active ho, Sample.eq_of_active hp]

/-- Taking the part `a` off the override `x:ab:a` also cuts the part `ab`, and nothing is found. -/
theorem override_lost :
    ¬ SelectsActive (Sample.overridden "x:ab:a")
      (parse "x:ab:a".toList (Sample.overridden "x:ab:a")) "V".toList := by
  intro h
  have hactive : ActiveOverride (Sample.overridden "x:ab:a")
      (parse "x:ab:a".toList (Sample.overridden "x:ab:a")) "V".toList "x:ab:a".toList :=
    ⟨by decide, by unfold OverrideName; decide, by decide +kernel⟩
  obtain ⟨o, -, hreads⟩ := h.active ⟨_, hactive⟩
  have hnone : (parse "x:ab:a".toList (Sample.overridden "x:ab:a")).selected "V".toList = none := by
    decide +kernel
  have he := hreads.unique (.own hnone)
  simp at he

end DataSmart

end BitBake
end OpenBmc
