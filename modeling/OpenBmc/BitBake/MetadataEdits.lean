import OpenBmc.BitBake.MetadataItems

/-!
# Metadata edits touch only what they edit

`edit_metadata` gathers the value of an assignment line by line. It gathers what is written, and
every line ends up where it belongs, when every assignment of the file is closed and continued as it
has to be (`WellWritten`). The lines of an assignment that is never closed are lost; a line of a
value that does not end in a backslash loses its last character; a first line that ends as if it
closed a longer assignment ends it.
-/

namespace OpenBmc
namespace BitBake
open Py

theorem singleton_suffix_iff {c : Char} {s : Str} : [c] <:+ s ↔ s.getLast? = some c := by
  rw [List.getLast?_eq_some_iff]
  exact ⟨fun ⟨t, h⟩ => ⟨t, h.symm⟩, fun ⟨t, h⟩ => ⟨t, h.symm⟩⟩

/-! ### Openings -/

structure Opening.Valid (o : Opening) : Prop where
  named : o.inVar ≠ []
  varEnd : ∃ c, o.varEnd = [c] ∧ c ≠ '\\'

theorem matchOperator_quote {s : Str} {c : Char} (h : matchOperator s = some c) :
    c = '"' ∨ c = '\'' := by
  unfold matchOperator at h
  split at h
  · split at h
    · split_ifs at h with hc
      · simp only [Option.some.injEq] at h
        exact h ▸ hc
    · cases h
  · cases h

/-- Without overrides, the first group is the name. -/
theorem matchVar_some {line var group : Str} {c : Char}
    (h : matchVar false line var = some (group, c)) :
    group = (if isFuncName var then funcName var else var) ∧
      (isFuncName var = false → c = '"' ∨ c = '\'') := by
  unfold matchVar at h
  generalize hn : (if isFuncName var then funcName var else var) = name at h ⊢
  dsimp only at h
  by_cases hp : name.isPrefixOf line
  · rw [if_pos hp] at h
    obtain ⟨n, hmem, h⟩ := List.exists_of_findSome?_eq_some h
    obtain ⟨c', hc', he⟩ := Option.map_eq_some_iff.1 h
    simp only [Prod.mk.injEq] at he
    obtain ⟨rfl, rfl⟩ := he
    have h0 : n = 0 := by simpa using hmem
    refine ⟨by simp [h0], fun hv => ?_⟩
    rw [hv, if_neg Bool.false_ne_true] at hc'
    exact matchOperator_quote hc'
  · rw [if_neg hp] at h
    cases h

theorem valid_of_findOpening {vars : List Str} (hv : ∀ v ∈ vars, PlainName v) {l : Str} {o : Opening}
    (h : findOpening false vars l = some o) : o.Valid := by
  obtain ⟨v, hmem, hv'⟩ := List.exists_of_findSome?_eq_some h
  obtain ⟨⟨group, c⟩, hm, rfl⟩ := Option.map_eq_some_iff.1 hv'
  obtain ⟨hg, hc⟩ := matchVar_some hm
  cases hf : isFuncName v with
  | true => exact ⟨by simp, '}', rfl, by decide⟩
  | false =>
    refine ⟨?_, c, rfl, ?_⟩
    · have hp := (hv v hmem).1
      rw [hf] at hp hg
      exact hg ▸ hp
    · rcases hc hf with rfl | rfl <;> decide

/-! ### What is gathered -/

/-- What the first line has of the value. -/
def Opening.firstValue (o : Opening) : Str :=
  if isFuncName o.inVar then rstrip o.rest else dropContinuation (rstrip o.rest)

/-- The first line ends as if it closed the assignment. -/
def Opening.SeemsClosed (o : Opening) : Prop := o.varEnd <:+ o.firstValue

namespace Setting

/-- What the loop adds to `full_value` for one more line. -/
def gathered (s : Setting) (l : Str) : Str :=
  if s.isFunc then '\n' :: rstrip l else (rstrip l).dropLast

/-- What a line says of the value. -/
def said (s : Setting) (l : Str) : Str :=
  if s.isFunc then '\n' :: rstrip l else dropContinuation (rstrip l)

/-- `full_value`, as the loop gathers it. -/
def fullValue (s : Setting) : Str := s.opening.firstValue ++ s.more.flatMap s.gathered

theorem text_eq (s : Setting) : s.text = s.opening.firstValue ++ s.more.flatMap s.said := by
  have h : s.said = if s.isFunc then (fun l => '\n' :: rstrip l)
      else fun l => dropContinuation (rstrip l) := by
    funext l
    unfold said
    split <;> rfl
  rw [h, text, Opening.firstValue]
  show _ = (if s.isFunc then _ else _) ++ _
  split <;> rfl

theorem text_add (s : Setting) (l : Str) : (s.add l).text = s.text ++ s.said l := by
  rw [text_eq, text_eq]
  show s.opening.firstValue ++ (s.more ++ [l]).flatMap s.said = _
  simp

theorem fullValue_add (s : Setting) (l : Str) : (s.add l).fullValue = s.fullValue ++ s.gathered l := by
  show s.opening.firstValue ++ (s.more ++ [l]).flatMap s.gathered = _
  simp [fullValue]

theorem fullValue_of_isFunc {s : Setting} (h : s.isFunc) : s.fullValue = s.text := by
  have hg : s.gathered = s.said := by
    funext l
    rw [gathered, said, if_pos h, if_pos h]
  rw [text_eq, fullValue, hg]

theorem lastPiece_add (s : Setting) (l : Str) : (s.add l).lastPiece = rstrip l := by
  show rstrip ((s.more ++ [l]).getLast?.getD _) = _
  simp

/-- What the callback is told when a later line closes the assignment. -/
def toldValue (s : Setting) : Str := if s.isFunc then s.text.dropLast else s.fullValue

/-- The lines of the value are continued: none seems to end it but the last, and those between the
first and the last end in a backslash. -/
structure Continued (s : Setting) : Prop where
  first : s.more ≠ [] → ¬ s.opening.SeemsClosed
  middle : s.isFunc = false →
    ∀ l ∈ s.more.dropLast, rstrip l = [] ∨ ['\\'] <:+ rstrip l

end Setting

/-- Every assignment is closed, and continued up to its end. -/
structure MetaFile.WellWritten (f : MetaFile) : Prop where
  closed : f.tail = []
  continued : ∀ s, .setting s ∈ f.items → s.Continued

/-! ### Values -/

theorem dropContinuation_of_quote {p : Str} {c : Char} (hc : c ≠ '\\') (h : [c] <:+ p) :
    dropContinuation p = p := by
  rw [dropContinuation, if_neg]
  intro hs
  have h₁ := singleton_suffix_iff.1 h
  have h₂ := singleton_suffix_iff.1 (List.isSuffixOf_iff_suffix.1 hs)
  rw [h₁] at h₂
  exact hc (by simpa using h₂)

theorem length_dropLast_le_dropContinuation (p : Str) :
    p.dropLast.length ≤ (dropContinuation p).length := by
  unfold dropContinuation
  split
  · exact le_rfl
  · simp

theorem dropLast_eq_dropContinuation_iff {p : Str} :
    p.dropLast = dropContinuation p ↔ p = [] ∨ ['\\'] <:+ p := by
  unfold dropContinuation
  split
  · next h => exact ⟨fun _ => .inr (List.isSuffixOf_iff_suffix.1 h), fun _ => rfl⟩
  · next h =>
    have h' : ¬ ['\\'] <:+ p := fun hs => h (List.isSuffixOf_iff_suffix.2 hs)
    simp only [h', or_false]
    constructor
    · intro he
      have hl := congrArg List.length he
      rw [List.length_dropLast] at hl
      exact List.length_eq_zero_iff.1 (by omega)
    · rintro rfl
      rfl

/-- Two ways to read lines, one of which never reads less, read the same of all together only if
they do of each. -/
theorem flatMap_eq_iff {α β : Type} {f g : α → List β} : ∀ {l : List α},
    (∀ x ∈ l, (f x).length ≤ (g x).length) → (l.flatMap f = l.flatMap g ↔ ∀ x ∈ l, f x = g x)
  | [], _ => by simp
  | x :: l, h => by
    have hle : ∀ l : List α, (∀ x ∈ l, (f x).length ≤ (g x).length) →
        (l.flatMap f).length ≤ (l.flatMap g).length := by
      intro l hl
      simp only [List.length_flatMap]
      exact List.sum_le_sum hl
    have hx := h x (by simp)
    have hl : ∀ y ∈ l, (f y).length ≤ (g y).length := fun y hy => h y (by simp [hy])
    simp only [List.flatMap_cons, List.forall_mem_cons]
    constructor
    · intro he
      have hlen := congrArg List.length he
      rw [List.length_append, List.length_append] at hlen
      have := hle l hl
      obtain ⟨h₁, h₂⟩ := List.append_inj he (by omega)
      exact ⟨h₁, (flatMap_eq_iff hl).1 h₂⟩
    · rintro ⟨h₁, h₂⟩
      rw [h₁, (flatMap_eq_iff hl).2 h₂]

namespace Setting
variable {s : Setting} {l : Str}

theorem closed_suffix (h : s.closed) : s.opening.varEnd <:+ s.lastPiece := by
  rw [closed, Bool.and_eq_true] at h
  exact List.isSuffixOf_iff_suffix.1 h.1

/-- The value of an assignment in one line. -/
theorem one_line (hv : s.opening.Valid) (hm : s.more = []) (h : s.closed) :
    s.opening.SeemsClosed ∧ s.value = s.opening.firstValue.dropLast := by
  obtain ⟨c, hc, hne⟩ := hv.varEnd
  have hs := closed_suffix h
  rw [lastPiece, hm] at hs
  refine ⟨?_, by rw [value, text_eq, hm]; simp⟩
  rw [Opening.SeemsClosed, Opening.firstValue]
  split
  · exact hs
  · rw [dropContinuation_of_quote hne (hc ▸ hs)]
    exact hs

/-- The value of an assignment that a later line closes. -/
theorem value_add (hv : s.opening.Valid) (h : (s.add l).closed) (hf : s.isFunc = false) :
    (s.add l).value = s.text ++ (rstrip l).dropLast := by
  obtain ⟨c, hc, hne⟩ := hv.varEnd
  have hs := closed_suffix h
  rw [lastPiece_add] at hs
  have hs' : [c] <:+ rstrip l := hc ▸ hs
  have hnil : rstrip l ≠ [] := by
    rintro hn
    rw [hn] at hs'
    simp at hs'
  rw [value, text_add, said, if_neg (by simp [hf]), dropContinuation_of_quote hne hs',
    List.dropLast_append_of_ne_nil hnil]

theorem toldValue_eq_iff (hv : s.opening.Valid) (h : (s.add l).closed) :
    (s.add l).toldValue = (s.add l).value ↔
      (s.isFunc = false → ∀ x ∈ s.more, rstrip x = [] ∨ ['\\'] <:+ rstrip x) := by
  cases hf : s.isFunc with
  | true =>
    have : (s.add l).toldValue = (s.add l).value := if_pos hf
    simp [this]
  | false =>
    have ht : (s.add l).toldValue = (s.add l).fullValue := if_neg (by show ¬ s.isFunc = true; simp [hf])
    have hg : s.gathered = fun x => (rstrip x).dropLast := by
      funext x; rw [gathered, if_neg (by simp [hf])]
    have hsd : s.said = fun x => dropContinuation (rstrip x) := by
      funext x; rw [said, if_neg (by simp [hf])]
    rw [ht, value_add hv h hf, fullValue_add, text_eq, fullValue, gathered, if_neg (by simp [hf]),
      List.append_left_inj, List.append_right_inj, hg, hsd, flatMap_eq_iff fun x _ =>
        length_dropLast_le_dropContinuation (rstrip x)]
    simp only [dropLast_eq_dropContinuation_iff, forall_const]

/-- An assignment that a later line closes is longer than what its first line seems to close. -/
theorem length_firstValue_lt (hv : s.opening.Valid) (h : s.closed) (hm : s.more ≠ [])
    (hs : s.opening.SeemsClosed) : s.opening.firstValue.dropLast.length < s.value.length := by
  obtain ⟨c, hc, hne⟩ := hv.varEnd
  have hfirst : s.opening.firstValue ≠ [] := by
    intro hn
    rw [Opening.SeemsClosed, hn, hc] at hs
    simp at hs
  obtain ⟨init, l, hl⟩ := (List.eq_nil_or_concat s.more).resolve_left hm
  have hsaid : s.said l ≠ [] := by
    rw [said]
    split
    · simp
    · have hlast : [c] <:+ rstrip l := by
        have := closed_suffix h
        rw [lastPiece, hl, hc] at this
        simpa using this
      rw [dropContinuation_of_quote hne hlast]
      rintro hn
      rw [hn] at hlast
      simp at hlast
  have h₁ := List.length_pos_of_ne_nil hfirst
  have h₂ := List.length_pos_of_ne_nil hsaid
  rw [value, text_eq, hl, List.length_dropLast, List.length_dropLast]
  simp only [List.concat_eq_append, List.flatMap_append, List.length_append, List.flatMap_cons,
    List.flatMap_nil, List.append_nil]
  omega

end Setting

/-! ### The loop -/

/-- What an edit in progress has of the loop's state. -/
def EditState.view {σ : Type} (st : EditState σ) : Edited σ :=
  ⟨st.updated, st.newlines, st.checkspc, st.env⟩

/-- The loop is behind the last line of the open assignment `s`. -/
structure InSetting {σ : Type} (s : Setting) (st : EditState σ) : Prop where
  valid : s.opening.Valid
  open_first : ¬ s.opening.SeemsClosed
  inVar : st.inVar = some s.name
  varEnd : st.varEnd = s.opening.varEnd
  varsetStart : st.varsetStart = s.opening.varsetStart
  varlines : st.varlines = s.lines
  fullValue : st.fullValue = s.fullValue

section Steps
variable {σ : Type} {varfunc : VarFunc σ} {vars : List Str} {st : EditState σ} {l : Str}

theorem finishVar_spec (hk : KeepsLines varfunc) (name : Str) (st : EditState σ) :
    (finishVar varfunc name st).view =
        st.view.put varfunc name st.varsetStart st.fullValue st.varlines ∧
      (finishVar varfunc name st).inVar = none := by
  have hn := hk name st.fullValue (strip (st.varsetStart.drop name.length)) st.newlines st.env
  rcases hr : varfunc name st.fullValue (strip (st.varsetStart.drop name.length)) st.newlines st.env
    with ⟨a, newlines, env⟩
  rw [hr] at hn
  have hn' : newlines = st.newlines := hn
  subst hn'
  simp only [finishVar, handleVarEnd, Edited.put, EditState.view, hr]
  cases a.replacement name st.varsetStart (strip (st.varsetStart.drop name.length)) st.fullValue with
  | some ls => exact ⟨rfl, rfl⟩
  | none => simp

theorem plainLine_spec (st : EditState σ) (l : Str) :
    (plainLine st l).view = st.view.line l ∧ (plainLine st l).inVar = st.inVar := by
  unfold plainLine Edited.line EditState.view
  cases hc : st.checkspc with
  | false => simp
  | true =>
    simp only [if_true, true_and]
    split <;> exact ⟨rfl, rfl⟩

theorem editStep_outside (hst : st.inVar = none) (l : Str) :
    editStep varfunc false vars st l = stepOutside varfunc false vars st l := by
  rw [editStep, hst]

variable (varfunc) in
theorem editStep_line (hst : st.inVar = none) (ho : findOpening false vars l = none) :
    (editStep varfunc false vars st l).view = st.view.line l ∧
      (editStep varfunc false vars st l).inVar = none := by
  rw [editStep_outside hst, stepOutside, ho]
  obtain ⟨h₁, h₂⟩ := plainLine_spec st l
  exact ⟨h₁, h₂.trans hst⟩

theorem openVar_value (o : Opening) :
    (if !isFuncName o.inVar && ['\\'].isSuffixOf (rstrip o.rest) then (rstrip o.rest).dropLast
      else rstrip o.rest) = o.firstValue := by
  rw [Opening.firstValue, dropContinuation]
  cases isFuncName o.inVar <;> simp

/-- The first line of an assignment that it seems to close. -/
theorem editStep_setting (hk : KeepsLines varfunc) (hst : st.inVar = none) {o : Opening}
    (ho : findOpening false vars l = some o) (hs : o.SeemsClosed) :
    (editStep varfunc false vars st l).view =
        st.view.put varfunc o.inVar o.varsetStart o.firstValue.dropLast [l] ∧
      (editStep varfunc false vars st l).inVar = none := by
  rw [editStep_outside hst, stepOutside, ho]
  show (openVar varfunc st l o).view = _ ∧ (openVar varfunc st l o).inVar = none
  unfold openVar
  dsimp only
  rw [openVar_value, if_pos (List.isSuffixOf_iff_suffix.2 hs)]
  exact finishVar_spec hk _ _

variable (varfunc) in
/-- The first line of an assignment that is left open. -/
theorem editStep_open (hst : st.inVar = none) {o : Opening} (hv : o.Valid)
    (ho : findOpening false vars l = some o) (hs : ¬ o.SeemsClosed) :
    InSetting ⟨o, l, []⟩ (editStep varfunc false vars st l) ∧
      (editStep varfunc false vars st l).view = st.view := by
  rw [editStep_outside hst, stepOutside, ho]
  show InSetting _ (openVar varfunc st l o) ∧ (openVar varfunc st l o).view = st.view
  have hs' : ¬ o.varEnd.isSuffixOf o.firstValue := fun h => hs (List.isSuffixOf_iff_suffix.1 h)
  unfold openVar
  dsimp only
  rw [openVar_value, if_neg hs']
  exact ⟨⟨hv, hs, rfl, rfl, rfl, rfl, by simp [Setting.fullValue]⟩, rfl⟩

theorem editStep_inVar {s : Setting} (h : InSetting s st) :
    editStep varfunc false vars st l = stepInVar varfunc s.name st l := by
  have hne : s.name ≠ [] := h.valid.named
  rw [editStep, h.inVar]
  cases hn : s.name with
  | nil => exact absurd hn hne
  | cons c cs => rfl

/-- `full_value` behind one more line. -/
theorem InSetting.fullValue_more {s : Setting} (h : InSetting s st) (l : Str) :
    (st.fullValue ++ if isFuncName s.name then '\n' :: rstrip l else (rstrip l).dropLast) =
      (s.add l).fullValue := by
  rw [h.fullValue, Setting.fullValue_add]
  rfl

variable (vars) in
/-- A line that closes an assignment. -/
theorem editStep_close (hk : KeepsLines varfunc) {s : Setting} (h : InSetting s st)
    (hc : (s.add l).closed) :
    (editStep varfunc false vars st l).view = st.view.put varfunc s.name s.opening.varsetStart
        (s.add l).toldValue (s.add l).lines ∧
      (editStep varfunc false vars st l).inVar = none := by
  have hend : st.varEnd.isSuffixOf (rstrip l) := by
    rw [h.varEnd]
    exact List.isSuffixOf_iff_suffix.2 (Setting.lastPiece_add s l ▸ Setting.closed_suffix hc)
  rw [editStep_inVar h, stepInVar]
  dsimp only
  rw [if_pos hend, h.fullValue_more]
  have hlines : st.varlines ++ [l] = (s.add l).lines := by rw [h.varlines]; rfl
  cases hf : isFuncName s.name with
  | true =>
    have hf' : (s.add l).isFunc := hf
    have hcount : ¬ (s.add l).fullValue.count '{' ≥ (s.add l).fullValue.count '}' := by
      rw [Setting.closed, hf', Bool.and_eq_true] at hc
      rw [Setting.fullValue_of_isFunc hf']
      simpa using hc.2
    have htold : (s.add l).toldValue = (s.add l).fullValue.dropLast := by
      rw [Setting.toldValue, if_pos hf', Setting.fullValue_of_isFunc hf']
    rw [if_pos rfl, if_neg hcount, htold, ← hlines, ← h.varsetStart]
    exact finishVar_spec hk _ _
  | false =>
    have htold : (s.add l).toldValue = (s.add l).fullValue :=
      if_neg (by show ¬ isFuncName s.name = true; simp [hf])
    rw [if_neg Bool.false_ne_true, htold, ← hlines, ← h.varsetStart]
    exact finishVar_spec hk _ _

variable (varfunc) (vars) in
/-- A line of an assignment that leaves it open. -/
theorem editStep_more {s : Setting} (h : InSetting s st) (hc : ¬ (s.add l).closed) :
    InSetting (s.add l) (editStep varfunc false vars st l) ∧
      (editStep varfunc false vars st l).view = st.view := by
  have hlines : st.varlines ++ [l] = (s.add l).lines := by rw [h.varlines]; rfl
  rw [editStep_inVar h, stepInVar]
  dsimp only
  rw [h.fullValue_more, hlines]
  split
  · next hend =>
    have hsuf : (s.add l).opening.varEnd.isSuffixOf (s.add l).lastPiece := by
      rw [Setting.lastPiece_add]
      exact h.varEnd ▸ hend
    rw [Setting.closed, hsuf, Bool.true_and] at hc
    have hf : (s.add l).isFunc := by
      by_contra hf
      exact hc (by simp [hf])
    rw [hf, Bool.not_true, Bool.false_or, decide_eq_true_eq, not_lt] at hc
    rw [if_pos (show isFuncName s.name = true from hf),
      if_pos (by rw [Setting.fullValue_of_isFunc hf]; exact hc)]
    exact ⟨⟨h.valid, h.open_first, h.inVar, h.varEnd, h.varsetStart, rfl, rfl⟩, rfl⟩
  · exact ⟨⟨h.valid, h.open_first, h.inVar, h.varEnd, h.varsetStart, rfl, rfl⟩, rfl⟩

end Steps

/-! ### Well-written files -/

theorem Setting.continued_add {s : Setting} {l : Str} : (s.add l).Continued ↔
    ¬ s.opening.SeemsClosed ∧
      (s.isFunc = false → ∀ x ∈ s.more, rstrip x = [] ∨ ['\\'] <:+ rstrip x) := by
  have hmore : (s.add l).more.dropLast = s.more := List.dropLast_concat
  constructor
  · intro h
    exact ⟨h.first (by simp [Setting.add]), fun hf => hmore ▸ h.middle hf⟩
  · rintro ⟨h₁, h₂⟩
    exact ⟨fun _ => h₁, fun hf => hmore.symm ▸ h₂ hf⟩

theorem continued_one_line (o : Opening) (l : Str) : (⟨o, l, []⟩ : Setting).Continued :=
  ⟨fun h => absurd rfl h, fun _ x hx => by simp at hx⟩

theorem MetaFile.wellWritten_cons {i : Item} {f : MetaFile} :
    (f.cons i).WellWritten ↔ (∀ s, i = .setting s → s.Continued) ∧ f.WellWritten := by
  constructor
  · intro h
    exact ⟨fun s hs => h.continued s (hs ▸ List.mem_cons_self),
      h.closed, fun s hs => h.continued s (List.mem_cons_of_mem _ hs)⟩
  · rintro ⟨hi, hf⟩
    refine ⟨hf.closed, fun s hs => ?_⟩
    rcases List.mem_cons.1 hs with h | h
    · exact hi s h.symm
    · exact hf.continued s h

/-- An open assignment is closed by a later line, or is the tail. -/
theorem readFrom_some (opens : Str → Option Opening) : ∀ (ls : List Str) (s : Setting),
    (∃ t ts, readFrom opens (some s) ls = ⟨[], t :: ts⟩) ∨
      ∃ s' f, readFrom opens (some s) ls = MetaFile.cons (.setting s') f ∧ s'.closed ∧
        s'.opening = s.opening ∧ s'.more ≠ []
  | [], s => .inl ⟨s.first, s.more, rfl⟩
  | l :: ls, s => by
    by_cases hc : (s.add l).closed
    · exact .inr ⟨_, _, readFrom_close hc, hc, rfl, by simp [Setting.add]⟩
    · rw [readFrom_more hc]
      exact readFrom_some opens ls (s.add l)

/-- The loop is outside all assignments, or in `s`. -/
def Behind {σ : Type} : Option Setting → EditState σ → Prop
  | none, st => st.inVar = none
  | some s, st => InSetting s st

section Run
variable {σ : Type} {varfunc : VarFunc σ} {vars : List Str}

/-- The loop edits the items of a well-written file. -/
theorem run_edit (hk : KeepsLines varfunc) (hv : ∀ v ∈ vars, PlainName v) :
    ∀ (ls : List Str) (p : Option Setting) (st : EditState σ), Behind p st →
      (readFrom (findOpening false vars) p ls).WellWritten →
      (ls.foldl (editStep varfunc false vars) st).view =
        (readFrom (findOpening false vars) p ls).items.foldl (Edited.item varfunc) st.view
  | [], none, _, _, _ => rfl
  | [], some s, _, _, hw => absurd hw.closed (List.cons_ne_nil _ _)
  | l :: ls, none, st, hp, hw => by
    rw [List.foldl_cons]
    cases ho : findOpening false vars l with
    | none =>
      obtain ⟨hview, hout⟩ := editStep_line varfunc hp ho
      rw [readFrom_line ho] at hw ⊢
      rw [run_edit hk hv ls none _ hout (MetaFile.wellWritten_cons.1 hw).2, hview]
      rfl
    | some o =>
      have hvalid := valid_of_findOpening hv ho
      by_cases hc : (⟨o, l, []⟩ : Setting).closed
      · obtain ⟨hs, hval⟩ := Setting.one_line hvalid rfl hc
        obtain ⟨hview, hout⟩ := editStep_setting hk hp ho hs
        rw [readFrom_setting ho hc] at hw ⊢
        rw [run_edit hk hv ls none _ hout (MetaFile.wellWritten_cons.1 hw).2, hview, ← hval]
        rfl
      · rw [readFrom_open ho hc] at hw ⊢
        have hs : ¬ o.SeemsClosed := by
          rcases readFrom_some (findOpening false vars) ls ⟨o, l, []⟩ with
            ⟨t, ts, he⟩ | ⟨s', f, he, -, ho', hm⟩
          · rw [he] at hw
            exact absurd hw.closed (List.cons_ne_nil _ _)
          · rw [he] at hw
            have hopen : s'.opening = o := ho'
            exact hopen ▸ ((MetaFile.wellWritten_cons.1 hw).1 s' rfl).first hm
        obtain ⟨hin, hview⟩ := editStep_open varfunc hp hvalid ho hs
        rw [run_edit hk hv ls (some ⟨o, l, []⟩) _ hin hw, hview]
  | l :: ls, some s, st, hp, hw => by
    rw [List.foldl_cons]
    by_cases hc : (s.add l).closed
    · obtain ⟨hview, hout⟩ := editStep_close vars hk hp hc
      rw [readFrom_close hc] at hw ⊢
      obtain ⟨hcont, hrest⟩ := MetaFile.wellWritten_cons.1 hw
      have htold := (Setting.toldValue_eq_iff hp.valid hc).2
        (Setting.continued_add.1 (hcont _ rfl)).2
      rw [run_edit hk hv ls none _ hout hrest, hview, htold]
      rfl
    · obtain ⟨hin, hview⟩ := editStep_more varfunc vars hp hc
      rw [readFrom_more hc] at hw ⊢
      rw [run_edit hk hv ls (some (s.add l)) _ hin hw, hview]

/-- What `edit_metadata` does to a well-written file. -/
theorem editMetadata_eq (hk : KeepsLines varfunc) (hv : ∀ v ∈ vars, PlainName v) {lines : List Str}
    (hw : (readMetaFile vars lines).WellWritten) (s : σ) :
    editMetadata varfunc lines vars false s =
      ((((readMetaFile vars lines).edit varfunc s).updated,
        ((readMetaFile vars lines).edit varfunc s).newlines),
        ((readMetaFile vars lines).edit varfunc s).env) := by
  have h : (lines.foldl (editStep varfunc false vars) (startEdit s)).view =
      (readMetaFile vars lines).edit varfunc s := run_edit hk hv lines none (startEdit s) rfl hw
  rw [← h]
  rfl

end Run

/-! ### Calls -/

section Calls
variable {σ : Type} {varfunc : VarFunc σ} {vars : List Str}

theorem Edited.line_env (e : Edited σ) (l : Str) : (e.line l).env = e.env := by
  unfold Edited.line
  split <;> rfl

theorem keepsLines_traced (hk : KeepsLines varfunc) : KeepsLines (traced varfunc) :=
  fun name value op newlines s => hk name value op newlines s.1

variable (varfunc) in
theorem put_traced_log (e : Edited (σ × List Call)) (name start value : Str) (ls : List Str) :
    (e.put (traced varfunc) name start value ls).env.2 =
      e.env.2 ++ [(name, value, strip (start.drop name.length))] := by
  unfold Edited.put traced
  dsimp only
  split <;> rfl

theorem edit_log (items : List Item) : ∀ e : Edited (σ × List Call),
    (items.foldl (Edited.item (traced varfunc)) e).env.2 = e.env.2 ++ (⟨items, []⟩ : MetaFile).calls := by
  induction items with
  | nil => intro e; simp [MetaFile.calls]
  | cons i items ih =>
    intro e
    rw [List.foldl_cons, ih]
    cases i with
    | line l =>
      show (e.line l).env.2 ++ _ = _
      rw [Edited.line_env]
      rfl
    | setting s =>
      show (e.put _ _ _ _ _).env.2 ++ _ = _
      rw [put_traced_log, List.append_assoc]
      rfl

theorem log_of_put {st st' : EditState (σ × List Call)} {name start value : Str} {ls : List Str}
    (h : st'.view = st.view.put (traced varfunc) name start value ls) :
    st'.env.2 = st.env.2 ++ [(name, value, strip (start.drop name.length))] := by
  have hlog := put_traced_log varfunc st.view name start value ls
  rw [← h] at hlog
  exact hlog

/-! What the callback writes down is only added to. -/

theorem finishVar_log (hk : KeepsLines varfunc) (name : Str) {st st' : EditState (σ × List Call)}
    (he : st'.env = st.env) : st.env.2 <+: (finishVar (traced varfunc) name st').env.2 := by
  have hlog := log_of_put (finishVar_spec (keepsLines_traced hk) name st').1
  rw [he] at hlog
  exact ⟨_, hlog.symm⟩

theorem editStep_log (hk : KeepsLines varfunc) (st : EditState (σ × List Call)) (l : Str) :
    st.env.2 <+: (editStep (traced varfunc) false vars st l).env.2 := by
  unfold editStep
  split
  · unfold stepInVar
    dsimp only
    split_ifs
    · exact List.prefix_rfl
    · exact finishVar_log hk _ rfl
    · exact finishVar_log hk _ rfl
    · exact List.prefix_rfl
    · exact List.prefix_rfl
  · unfold stepOutside
    split
    · unfold openVar
      dsimp only
      split_ifs
      · exact finishVar_log hk _ rfl
      · exact List.prefix_rfl
      · exact finishVar_log hk _ rfl
      · exact List.prefix_rfl
    · unfold plainLine
      split_ifs <;> exact List.prefix_rfl

variable (vars) in
theorem run_log (hk : KeepsLines varfunc) (ls : List Str) : ∀ st : EditState (σ × List Call),
    st.env.2 <+: (ls.foldl (editStep (traced varfunc) false vars) st).env.2 := by
  induction ls with
  | nil => exact fun st => List.prefix_rfl
  | cons l ls ih => exact fun st => (editStep_log hk st l).trans (ih _)

/-- A call with what the first line seems to close is not the one the file makes. -/
theorem not_seemsClosed_of_log (hk : KeepsLines varfunc) {o : Opening} (hv : o.Valid) {l : Str}
    {ls : List Str} {opens : Str → Option Opening} {st : EditState (σ × List Call)}
    {log : List Call} {op : Str}
    (hst : st.env.2 = log ++ [(o.inVar, o.firstValue.dropLast, op)])
    (hlog : (ls.foldl (editStep (traced varfunc) false vars) st).env.2 =
      log ++ (readFrom opens (some ⟨o, l, []⟩) ls).calls) : ¬ o.SeemsClosed := by
  intro hs
  have hpre := run_log vars hk ls st
  rw [hlog, hst, List.prefix_append_right_inj] at hpre
  rcases readFrom_some opens ls ⟨o, l, []⟩ with ⟨t, ts, he⟩ | ⟨s', f, he, hc, ho, hm⟩
  · rw [he] at hpre
    simp [MetaFile.calls] at hpre
  · rw [he] at hpre
    obtain ⟨rest, hr⟩ := hpre
    simp only [MetaFile.calls, MetaFile.cons, List.filterMap_cons, List.cons_append,
      List.cons.injEq, Prod.mk.injEq] at hr
    have hopen : s'.opening = o := ho
    have hlt := Setting.length_firstValue_lt (hopen ▸ hv) hc hm (hopen ▸ hs)
    rw [hopen, hr.1.2.1] at hlt
    exact lt_irrefl _ hlt

/-- The loop that makes the calls the file says, and ends with the lines the file has, read a
well-written file. -/
theorem wellWritten_of_run (hk : KeepsLines varfunc) (hv : ∀ v ∈ vars, PlainName v) :
    ∀ (ls : List Str) (p : Option Setting) (st : EditState (σ × List Call)), Behind p st →
      (ls.foldl (editStep (traced varfunc) false vars) st).env.2 =
        st.env.2 ++ (readFrom (findOpening false vars) p ls).calls →
      (ls.foldl (editStep (traced varfunc) false vars) st).newlines =
        ((readFrom (findOpening false vars) p ls).items.foldl (Edited.item (traced varfunc))
          st.view).newlines ++ (readFrom (findOpening false vars) p ls).tail →
      (readFrom (findOpening false vars) p ls).WellWritten
  | [], none, _, _, _, _ => ⟨rfl, fun s hs => by cases hs⟩
  | [], some s, st, _, _, hn => by
    have hne : s.lines ≠ [] := List.cons_ne_nil _ _
    exact absurd (List.append_right_eq_self.1 hn.symm) hne
  | l :: ls, none, st, hp, hlog, hn => by
    rw [List.foldl_cons] at hlog hn
    cases ho : findOpening false vars l with
    | none =>
      obtain ⟨hview, hout⟩ := editStep_line (traced varfunc) hp ho
      have henv : (editStep (traced varfunc) false vars st l).env = st.env := by
        have := congrArg Edited.env hview
        rw [Edited.line_env] at this
        exact this
      rw [readFrom_line ho] at hlog hn ⊢
      rw [← henv] at hlog
      refine MetaFile.wellWritten_cons.2 ⟨fun s hs => (by cases hs), ?_⟩
      refine wellWritten_of_run hk hv ls none _ hout hlog ?_
      rw [hview]
      exact hn
    | some o =>
      have hvalid := valid_of_findOpening hv ho
      by_cases hc : (⟨o, l, []⟩ : Setting).closed
      · obtain ⟨hs, hval⟩ := Setting.one_line hvalid rfl hc
        obtain ⟨hview, hout⟩ := editStep_setting (keepsLines_traced hk) hp ho hs
        rw [readFrom_setting ho hc] at hlog hn ⊢
        refine MetaFile.wellWritten_cons.2 ⟨fun s hs => ?_, ?_⟩
        · cases hs
          exact continued_one_line o l
        · refine wellWritten_of_run hk hv ls none _ hout ?_ ?_
          · rw [hlog, log_of_put hview, List.append_assoc, ← hval]
            rfl
          · rw [hview, ← hval]
            exact hn
      · rw [readFrom_open ho hc] at hlog hn ⊢
        by_cases hs : o.SeemsClosed
        · -- the loop has made a call that the file does not make
          obtain ⟨hview, -⟩ := editStep_setting (keepsLines_traced hk) hp ho hs
          exact absurd hs (not_seemsClosed_of_log hk hvalid (log_of_put hview) hlog)
        · obtain ⟨hin, hview⟩ := editStep_open (traced varfunc) hp hvalid ho hs
          have henv : (editStep (traced varfunc) false vars st l).env = st.env :=
            congrArg Edited.env hview
          rw [← henv] at hlog
          refine wellWritten_of_run hk hv ls (some ⟨o, l, []⟩) _ hin hlog ?_
          rw [hview]
          exact hn
  | l :: ls, some s, st, hp, hlog, hn => by
    rw [List.foldl_cons] at hlog hn
    by_cases hc : (s.add l).closed
    · obtain ⟨hview, hout⟩ := editStep_close vars (keepsLines_traced hk) hp hc
      rw [readFrom_close hc] at hlog hn ⊢
      have htold : (s.add l).toldValue = (s.add l).value := by
        have hpre := run_log vars hk ls (editStep (traced varfunc) false vars st l)
        rw [hlog, log_of_put hview, List.prefix_append_right_inj] at hpre
        obtain ⟨t, ht⟩ := hpre
        simp only [MetaFile.calls, MetaFile.cons, List.filterMap_cons, List.cons_append,
          List.cons.injEq, Prod.mk.injEq] at ht
        exact ht.1.2.1
      refine MetaFile.wellWritten_cons.2 ⟨fun s' hs => ?_, ?_⟩
      · cases hs
        exact Setting.continued_add.2
          ⟨hp.open_first, (Setting.toldValue_eq_iff hp.valid hc).1 htold⟩
      · refine wellWritten_of_run hk hv ls none _ hout ?_ ?_
        · rw [hlog, log_of_put hview, List.append_assoc, htold]
          rfl
        · rw [hview, htold]
          exact hn
    · obtain ⟨hin, hview⟩ := editStep_more (traced varfunc) vars hp hc
      rw [readFrom_more hc] at hlog hn ⊢
      have henv : (editStep (traced varfunc) false vars st l).env = st.env := congrArg Edited.env hview
      rw [← henv] at hlog
      refine wellWritten_of_run hk hv ls (some (s.add l)) _ hin hlog ?_
      rw [hview]
      exact hn

end Calls

/-! ### The callback without its log -/

section Untrace
variable {σ : Type} {varfunc : VarFunc σ} {vars : List Str}

def EditState.untrace (st : EditState (σ × List Call)) : EditState σ :=
  ⟨st.updated, st.varsetStart, st.varlines, st.newlines, st.inVar, st.fullValue, st.varEnd,
    st.checkspc, st.env.1⟩

def Edited.untrace (e : Edited (σ × List Call)) : Edited σ :=
  ⟨e.updated, e.newlines, e.afterChange, e.env.1⟩

theorem finishVar_untrace (name : Str) (st : EditState (σ × List Call)) :
    (finishVar (traced varfunc) name st).untrace = finishVar varfunc name st.untrace := by
  unfold finishVar handleVarEnd traced EditState.untrace
  dsimp only
  rcases varfunc name st.fullValue (strip (st.varsetStart.drop name.length)) st.newlines st.env.1
    with ⟨a, newlines, env⟩
  dsimp only
  cases a.replacement name st.varsetStart (strip (st.varsetStart.drop name.length)) st.fullValue with
  | some ls => rfl
  | none => by_cases h : st.newlines = newlines <;> simp [h]

theorem editStep_untrace (st : EditState (σ × List Call)) (l : Str) :
    (editStep (traced varfunc) false vars st l).untrace = editStep varfunc false vars st.untrace l := by
  have hin : ∀ name, (stepInVar (traced varfunc) name st l).untrace =
      stepInVar varfunc name st.untrace l := by
    intro name
    unfold stepInVar
    dsimp only [EditState.untrace]
    split_ifs
    · rfl
    · exact finishVar_untrace _ _
    · exact finishVar_untrace _ _
    · rfl
    · rfl
  have hout : (stepOutside (traced varfunc) false vars st l).untrace =
      stepOutside varfunc false vars st.untrace l := by
    unfold stepOutside
    cases findOpening false vars l with
    | none =>
      show (plainLine st l).untrace = plainLine st.untrace l
      unfold plainLine EditState.untrace
      cases st.checkspc with
      | false => rfl
      | true => by_cases hb : st.newlines.getLast? = some ['\n'] ∧ l = ['\n'] <;> simp [hb]
    | some o =>
      unfold openVar
      dsimp only [EditState.untrace]
      split_ifs
      · exact finishVar_untrace _ _
      · rfl
      · exact finishVar_untrace _ _
      · rfl
  rcases hs : st.inVar with _ | _ | ⟨c, cs⟩
  · rw [editStep, editStep, show st.untrace.inVar = none from hs, hs]
    exact hout
  · rw [editStep, editStep, show st.untrace.inVar = some [] from hs, hs]
    exact hout
  · rw [editStep, editStep, show st.untrace.inVar = some (c :: cs) from hs, hs]
    exact hin _

variable (varfunc) (vars) in
theorem run_untrace (ls : List Str) : ∀ st : EditState (σ × List Call),
    (ls.foldl (editStep (traced varfunc) false vars) st).untrace =
      ls.foldl (editStep varfunc false vars) st.untrace := by
  induction ls with
  | nil => exact fun st => rfl
  | cons l ls ih =>
    intro st
    rw [List.foldl_cons, List.foldl_cons, ih, editStep_untrace]

theorem item_untrace (e : Edited (σ × List Call)) (i : Item) :
    (e.item (traced varfunc) i).untrace = e.untrace.item varfunc i := by
  cases i with
  | line l =>
    show (e.line l).untrace = e.untrace.line l
    unfold Edited.line Edited.untrace
    dsimp only
    split_ifs <;> rfl
  | setting s =>
    show (e.put _ _ _ _ _).untrace = e.untrace.put _ _ _ _ _
    unfold Edited.put traced Edited.untrace
    dsimp only
    split <;> simp_all

variable (varfunc) in
theorem items_untrace (items : List Item) : ∀ e : Edited (σ × List Call),
    (items.foldl (Edited.item (traced varfunc)) e).untrace =
      items.foldl (Edited.item varfunc) e.untrace := by
  induction items with
  | nil => exact fun e => rfl
  | cons i items ih =>
    intro e
    rw [List.foldl_cons, List.foldl_cons, ih, item_untrace]

end Untrace

/-! ### The callback that changes nothing -/

theorem keepsLines_identity : KeepsLines identity := fun _ _ _ _ _ => rfl

theorem items_identity (items : List Item) : ∀ e : Edited Unit, e.afterChange = false →
    items.foldl (Edited.item identity) e =
      { e with newlines := e.newlines ++ items.flatMap Item.lines } := by
  induction items with
  | nil => intro e _; simp
  | cons i items ih =>
    intro e he
    have hi : e.item identity i = { e with newlines := e.newlines ++ i.lines } := by
      cases i with
      | line l =>
        show e.line l = _
        rw [Edited.line, if_neg (by simp [he]), he]
        rfl
      | setting s =>
        simp [Edited.item, Edited.put, identity, Answer.replacement, Answer.changesOp, Item.lines]
    rw [List.foldl_cons, hi, ih]
    · simp
    · exact he

/-- The callback is called for every assignment with its value as written, everything else stays in
its place, and nothing is changed where nothing is asked for, exactly when every assignment of the
file is closed and continued up to its end. -/
theorem edits_only_iff {σ : Type} (varfunc : VarFunc σ) (hk : KeepsLines varfunc) (vars : List Str)
    (hv : ∀ v ∈ vars, PlainName v) (lines : List Str) (s : σ) :
    EditsOnly varfunc vars lines s ↔ (readMetaFile vars lines).WellWritten := by
  constructor
  · intro h
    refine wellWritten_of_run hk hv lines none (startEdit (s, [])) rfl ?_ ?_
    · exact h.calls
    · have hrun := congrArg EditState.newlines
        (run_untrace varfunc vars lines (startEdit (s, [])))
      have hspec := congrArg Edited.newlines (items_untrace varfunc
        (readMetaFile vars lines).items (startEdit (s, [])).view)
      exact hrun.trans (h.frame.trans (congrArg (· ++ _) hspec.symm))
  · intro hw
    refine ⟨?_, ?_, ?_⟩
    · rw [editMetadata_eq (keepsLines_traced hk) hv hw]
      exact edit_log _ _
    · rw [editMetadata_eq hk hv hw, hw.closed, List.append_nil]
    · have hlines := lines_readMetaFile vars lines
      rw [MetaFile.lines, hw.closed, List.append_nil] at hlines
      rw [editMetadata_eq keepsLines_identity hv hw, MetaFile.edit, items_identity _ _ rfl, hlines]
      rfl

/-! ### Files -/

section File
variable {σ : Type} {varfunc : VarFunc σ}

theorem Edited.line_updated (e : Edited σ) (l : Str) : (e.line l).updated = e.updated := by
  unfold Edited.line
  split <;> rfl

theorem Edited.item_updated {e : Edited σ} (i : Item) (h : e.updated = true) :
    (e.item varfunc i).updated = true := by
  cases i with
  | line l => exact (e.line_updated l).trans h
  | setting s =>
    unfold Edited.item Edited.put
    dsimp only
    split
    · rfl
    · exact h

theorem items_updated (items : List Item) : ∀ e : Edited σ, e.updated = true →
    (items.foldl (Edited.item varfunc) e).updated = true := by
  induction items with
  | nil => exact fun e h => h
  | cons i items ih => exact fun e h => ih _ (Edited.item_updated i h)

variable (varfunc) in
/-- As long as nothing is changed, every line is where it was. -/
theorem items_of_not_updated (items : List Item) : ∀ e : Edited σ, e.afterChange = false →
    (items.foldl (Edited.item varfunc) e).updated = false →
    (items.foldl (Edited.item varfunc) e).newlines = e.newlines ++ items.flatMap Item.lines := by
  induction items with
  | nil => intro e _ _; simp
  | cons i items ih =>
    intro e he hu
    have hi : (e.item varfunc i).updated = false := by
      cases hb : (e.item varfunc i).updated with
      | false => rfl
      | true => rw [List.foldl_cons, items_updated items _ hb] at hu; cases hu
    have hstep : (e.item varfunc i).newlines = e.newlines ++ i.lines ∧
        (e.item varfunc i).afterChange = false := by
      cases i with
      | line l =>
        show (e.line l).newlines = _ ∧ (e.line l).afterChange = false
        rw [Edited.line, if_neg (by simp [he])]
        exact ⟨rfl, rfl⟩
      | setting s =>
        unfold Edited.item Edited.put at hi ⊢
        dsimp only at hi ⊢
        split at hi
        · cases hi
        · exact ⟨rfl, he⟩
    rw [List.foldl_cons] at hu ⊢
    rw [ih _ hstep.2 hu, hstep.1, List.flatMap_cons, List.append_assoc]

/-- A well-written file holds the edited lines afterwards, whether it is written or not. -/
theorem editMetadataFile_eq (hk : KeepsLines varfunc) {vars : List Str}
    (hv : ∀ v ∈ vars, PlainName v) {lines : List Str}
    (hw : (readMetaFile vars lines).WellWritten) (s : σ) :
    editMetadataFile varfunc lines vars s =
      (((readMetaFile vars lines).edit varfunc s).newlines,
        ((readMetaFile vars lines).edit varfunc s).updated) := by
  rw [editMetadataFile, editMetadata_eq hk hv hw]
  cases hu : ((readMetaFile vars lines).edit varfunc s).updated with
  | true => rfl
  | false =>
    have hlines := lines_readMetaFile vars lines
    rw [MetaFile.lines, hw.closed, List.append_nil] at hlines
    have hkept := items_of_not_updated varfunc (readMetaFile vars lines).items
      ⟨false, [], false, s⟩ rfl hu
    rw [hlines] at hkept
    exact congrArg (·, false) hkept.symm

end File

theorem plainName_of_isAlphanum {v : Str} (hf : isFuncName v = false) (hne : v ≠ [])
    (h : v.all Char.isAlphanum) : PlainName v := by
  rw [PlainName, hf]
  refine ⟨hne, fun c hc hm => ?_⟩
  have hal := List.all_eq_true.1 h c hc
  have hmem : c ∈ ".^$*+?\x7b\x7d[]\\|()".toList := by simpa [isMeta] using hm
  have hall : (".^$*+?\x7b\x7d[]\\|()".toList).all (fun c => !c.isAlphanum) := by decide
  have := List.all_eq_true.1 hall c hmem
  simp [hal] at this

/-- The assignment is never closed: its line is lost. -/
theorem openAssignment_fails :
    ¬ EditsOnly identity ["A".toList] ["A = \"x\n".toList] () := by
  intro h
  have hid := h.identity
  revert hid
  decide

theorem edits_only_quoted :
    EditsOnly identity ["A".toList] ["A = \"x\"\n".toList, "B\n".toList] () ↔
      (readMetaFile ["A".toList] ["A = \"x\"\n".toList, "B\n".toList]).WellWritten :=
  edits_only_iff identity keepsLines_identity _
    (fun v hv => by
      rw [List.mem_singleton.1 hv]
      exact plainName_of_isAlphanum rfl (by simp) rfl) _ ()

end BitBake
end OpenBmc
