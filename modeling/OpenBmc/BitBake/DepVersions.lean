import OpenBmc.Lib.Dict
import OpenBmc.Py.Int
import OpenBmc.Py.Words

/-!
# Dependency strings

`join_deps` writes names with their constraints, `explode_dep_versions2` and `explode_deps` read them.
The words of a version come one by one, and the reader adds a constraint for each of them
(`appended`): a version of one word comes back as it was, a longer one does not.
-/

namespace OpenBmc
namespace BitBake
namespace DepVersions
open Py

inductive Error
  | versionString (i : Str)
  | typeError

/-! ### The functions -/

def longOperators : List Str := ["<=", "=<", "<<", "==", "!=", ">=", "=>", ">>"]

def shortOperators : List Str := ["<", ">", "="]

/-- The operator that a token begins with, and what is behind it. -/
def splitOperator (i : Str) : Option (Str × Str) :=
  if longOperators.any fun op => op.isPrefixOf i then some (i.take 2, i.drop 2)
  else if shortOperators.any fun op => op.isPrefixOf i then some (i.take 1, i.drop 1)
  else none

/-- The variables of the loop; the name is None until the first one. -/
structure State where
  r : Dict (Option Str) (List Str)
  lastdep : Option Str
  lastcmp : Str
  lastver : Str
  incmp : Bool
  inversion : Bool

namespace State

def init : State := ⟨Dict.empty, none, [], [], false, false⟩

/-- `r[lastdep].append(lastcmp + " " + lastver)`, after a word of a version. -/
def append (s : State) (i : Str) : State :=
  if i = [] then s
  else { s with
    lastver := s.lastver ++ i
    r := s.r.set s.lastdep
      ((s.r.get? s.lastdep).getD [] ++ [s.lastcmp ++ ' ' :: (s.lastver ++ i)]) }

/-- A word of a version, the last one with a bracket behind it. -/
def version (s : State) (i : Str) : State :=
  if i.getLast? = some ')' then
    { s with
      inversion := false
      lastver := if s.lastver ≠ [] ∧ i.dropLast ≠ [] then s.lastver ++ [' '] else s.lastver }.append
        i.dropLast
  else s.append i

def name (s : State) (i : Str) : State :=
  { s with
    lastdep := some i
    lastver := []
    lastcmp := []
    r := if (s.r.get? (some i)).getD [] ≠ [] then s.r else s.r.set (some i) [] }

def word (s : State) (i : Str) : State := if s.inversion then s.version i else s.name i

def token (s : State) (i : Str) : Except Error State :=
  if s.incmp then
    match splitOperator i with
    | none => .error (.versionString i)
    | some (op, rest) =>
      let s := { s with incmp := false, inversion := true, lastcmp := op }
      .ok (if rest = [] then s else s.word rest)
  else .ok (s.word i)

/-- The body of the loop. -/
def step (s : State) (i : Str) : Except Error State :=
  if i.head? = some '(' then
    let s := { s with incmp := true }
    let i := strip (i.drop 1)
    if i = [] then .ok s else s.token i
  else s.token i

end State

/-- `explode_dep_versions2(s, sort=sort)`; None does not compare with a name. -/
def explodeDepVersions2 (s : Str) (sort : Bool) : Except Error (Dict (Option Str) (List Str)) := do
  let l := words (s.filter (· ≠ ','))
  let state ← l.foldlM State.step State.init
  let r := state.r
  if sort then
    if none ∈ r ∧ 1 < r.entries.length then .error .typeError
    else .ok (Dict.ofList (r.entries.insertionSort fun a b => a.1.getD [] ≤ b.1.getD []))
  else .ok r

/-- The loop of `explode_deps`; the flag says that a version is being read. -/
def explodeStep (s : List Str × Bool) (i : Str) : List Str × Bool :=
  let flag := s.2 || i.head? = some '('
  (if flag then s.1 else s.1 ++ [i], flag && i.getLast? ≠ some ')')

def explodeDeps (s : Str) : List Str := ((words s).foldl explodeStep ([], false)).1

/-- `join_deps` of a dictionary of lists. -/
def joinDeps (deps : Dict Str (List Str)) (commasep : Bool) : Str :=
  let result := deps.entries.flatMap fun e =>
    if e.2 ≠ [] then e.2.map fun v => e.1 ++ " (".toList ++ v ++ [')'] else [e.1]
  (if commasep then ", ".toList else [' ']).intercalate result

/-! ### What is joined -/

/-- A character of a name or of a version. -/
def IsPlain (s : Str) : Prop := ',' ∉ s ∧ '(' ∉ s ∧ ')' ∉ s

structure Constraint where
  op : Str
  version : List Str
  op_mem : op ∈ longOperators ++ shortOperators
  ne_nil : version ≠ []
  word : ∀ w ∈ version, IsWord w
  plain : ∀ w ∈ version, IsPlain w

/-- `op version`, the words joined by single spaces. -/
def Constraint.text (c : Constraint) : Str := c.op ++ ' ' :: [' '].intercalate c.version

structure Deps where
  entries : Dict Str (List Constraint)
  word : ∀ n ∈ entries.keys, IsWord n
  plain : ∀ n ∈ entries.keys, IsPlain n

def Deps.texts (m : Deps) : Dict Str (List Str) := m.entries.mapValues fun _ cs => cs.map Constraint.text

/-! ### The tokens of a joined text -/

/-- The words of a version in brackets, behind the operator. -/
def closing : List Str → List Str
  | [] => []
  | [w] => [w ++ [')']]
  | w :: w' :: ws => w :: closing (w' :: ws)

def Constraint.tokens (c : Constraint) : List Str := ('(' :: c.op) :: closing c.version

def itemTokens (n : Str) (cs : List Constraint) : List Str :=
  if cs ≠ [] then cs.flatMap fun c => n :: c.tokens else [n]

def Deps.tokens (m : Deps) : List Str := m.entries.entries.flatMap fun e => itemTokens e.1 e.2

theorem filter_intercalate {α : Type} (p : α → Bool) (sep : List α) (ss : List (List α)) :
    (sep.intercalate ss).filter p = (sep.filter p).intercalate (ss.map (List.filter p)) := by
  induction ss with
  | nil => rfl
  | cons s ss ih =>
    cases ss with
    | nil => simp
    | cons t ss =>
      rw [List.intercalate_cons_cons, List.filter_append, List.filter_append, ih]
      simp [List.intercalate_cons_cons]

theorem operators_word : ∀ op ∈ longOperators ++ shortOperators, IsWord ('(' :: op) ∧ IsPlain op ∧
    op ≠ [] ∧ op.getLast? ≠ some ')' := by
  unfold IsPlain
  decide +kernel

theorem intercalate_closing {ws : List Str} (h : ws ≠ []) :
    [' '].intercalate ws ++ [')'] = [' '].intercalate (closing ws) := by
  induction ws with
  | nil => exact absurd rfl h
  | cons w ws ih =>
    cases ws with
    | nil => simp [closing]
    | cons w' ws =>
      have hne : ∃ x xs, closing (w' :: ws) = x :: xs := by
        cases ws <;> exact ⟨_, _, rfl⟩
      obtain ⟨x, xs, hx⟩ := hne
      have hih := ih (List.cons_ne_nil _ _)
      rw [closing, hx, List.intercalate_cons_cons, List.intercalate_cons_cons, ← hx, ← hih]
      simp

theorem isWord_closing {ws : List Str} (h : ∀ w ∈ ws, IsWord w) : ∀ w ∈ closing ws, IsWord w := by
  induction ws with
  | nil => exact h
  | cons w ws ih =>
    obtain ⟨hw, hws⟩ := List.forall_mem_cons.1 h
    cases ws with
    | nil =>
      intro v hv
      rw [List.mem_singleton.1 hv]
      refine ⟨by simp, fun c hc => ?_⟩
      rcases List.mem_append.1 hc with hc | hc
      · exact hw.2 c hc
      · rw [List.mem_singleton.1 hc]
        decide
    | cons w' ws => exact List.forall_mem_cons.2 ⟨hw, ih hws⟩

theorem flatMap_words {ts : List Str} (h : ∀ t ∈ ts, IsWord t) : ts.flatMap words = ts := by
  induction ts with
  | nil => rfl
  | cons t ts ih =>
    obtain ⟨ht, hts⟩ := List.forall_mem_cons.1 h
    rw [List.flatMap_cons, ht.words, ih hts]
    rfl

/-- One item of the joined text. -/
theorem words_item {n : Str} (hn : IsWord n) (c : Constraint) :
    words (n ++ " (".toList ++ c.text ++ [')']) = n :: c.tokens := by
  have htext : n ++ " (".toList ++ c.text ++ [')'] =
      n ++ ' ' :: (('(' :: c.op) ++ ' ' :: ([' '].intercalate c.version ++ [')'])) := by
    simp [Constraint.text]
  rw [htext, words_append_space, words_append_space, hn.words, (operators_word _ c.op_mem).1.words,
    intercalate_closing c.ne_nil, words_intercalate, flatMap_words (isWord_closing c.word)]
  rfl

theorem not_mem_text (c : Constraint) : ',' ∉ c.text := by
  intro hm
  rcases List.mem_append.1 hm with hm | hm
  · exact (operators_word _ c.op_mem).2.1.1 hm
  · rcases List.mem_cons.1 hm with hm | hm
    · cases hm
    · have hwords : ∀ w ∈ c.version, ',' ∉ w := fun w hw => (c.plain w hw).1
      have hgen : ∀ ws : List Str, (∀ w ∈ ws, ',' ∉ w) → ',' ∉ [' '].intercalate ws := by
        intro ws hws
        cases ws with
        | nil => simp
        | cons w ws =>
          rw [intercalate_cons]
          simp only [List.mem_append, List.mem_flatMap, not_or, not_exists, not_and]
          refine ⟨hws w List.mem_cons_self, fun x hx hc => ?_⟩
          rcases List.mem_cons.1 hc with hc | hc
          · cases hc
          · exact hws x (List.mem_cons_of_mem _ hx) hc
      exact hgen _ hwords hm

/-- What `join_deps` joins for a name. -/
def itemTexts (n : Str) (vs : List Str) : List Str :=
  if vs ≠ [] then vs.map fun v => n ++ " (".toList ++ v ++ [')'] else [n]

namespace Deps
variable (m : Deps)

def itemsOf : List Str := m.texts.entries.flatMap fun e => itemTexts e.1 e.2

theorem joinDeps_texts (commasep : Bool) : joinDeps m.texts commasep =
    (if commasep then ", ".toList else [' ']).intercalate m.itemsOf := rfl

theorem itemsOf_eq : m.itemsOf =
    m.entries.entries.flatMap fun e => itemTexts e.1 (e.2.map Constraint.text) :=
  List.flatMap_map ..

theorem not_mem_items : ∀ s ∈ m.itemsOf, ',' ∉ s := by
  rw [itemsOf_eq]
  intro s hs
  obtain ⟨e, he, hs⟩ := List.mem_flatMap.1 hs
  have hn : ',' ∉ e.1 := (m.plain e.1 (Dict.mem_keys_of_mem_entries he)).1
  unfold itemTexts at hs
  split_ifs at hs with hcs
  · obtain ⟨v, hv, rfl⟩ := List.mem_map.1 hs
    obtain ⟨c, -, rfl⟩ := List.mem_map.1 hv
    simp [hn, not_mem_text c]
  · rw [List.mem_singleton.1 hs]
    exact hn

/-- Without its commas the text is the same for both separators. -/
theorem filter_joinDeps (commasep : Bool) :
    (joinDeps m.texts commasep).filter (· ≠ ',') = [' '].intercalate m.itemsOf := by
  have hitems : m.itemsOf.map (List.filter (· ≠ ',')) = m.itemsOf := by
    refine (List.map_congr_left fun s hs => ?_).trans (List.map_id _)
    refine List.filter_eq_self.2 fun c hc => decide_eq_true ?_
    rintro rfl
    exact m.not_mem_items s hs hc
  rw [joinDeps_texts, filter_intercalate, hitems]
  cases commasep <;> rfl

theorem words_items : words ([' '].intercalate m.itemsOf) = m.tokens := by
  rw [words_intercalate, itemsOf_eq, List.flatMap_assoc]
  refine List.flatMap_congr fun e he => ?_
  have hn := m.word e.1 (Dict.mem_keys_of_mem_entries he)
  unfold itemTexts itemTokens
  by_cases hcs : e.2 = []
  · simp [hcs, hn.words]
  · have hmap : e.2.map Constraint.text ≠ [] := by simpa using hcs
    rw [if_pos hmap, if_pos hcs, List.map_map, List.flatMap_map]
    exact List.flatMap_congr fun c _ => words_item hn c

end Deps

/-! ### Reading the tokens -/

/-- The constraints that the reader adds for the words of a version. -/
def appended (op lastver : Str) : List Str → List Str
  | [] => []
  | [w] => [op ++ ' ' :: ((if lastver ≠ [] then lastver ++ [' '] else lastver) ++ w)]
  | w :: w' :: ws => (op ++ ' ' :: (lastver ++ w)) :: appended op (lastver ++ w) (w' :: ws)

theorem length_appended (op lastver : Str) (ws : List Str) :
    (appended op lastver ws).length = ws.length := by
  induction ws generalizing lastver with
  | nil => rfl
  | cons w ws ih =>
    cases ws with
    | nil => rfl
    | cons w' ws =>
      rw [appended, List.length_cons, ih]
      rfl

namespace State

/-- Between two items. -/
def Idle (s : State) : Prop := s.incmp = false ∧ s.inversion = false

theorem step_word {s : State} {w : Str} (hc : s.incmp = false) (hw : w.head? ≠ some '(') :
    s.step w = .ok (s.word w) := by
  rw [step, if_neg hw, token, if_neg (by simp [hc])]

theorem append_word (s : State) {w : Str} (hw : w ≠ []) : s.append w =
    { s with
      lastver := s.lastver ++ w
      r := s.r.set s.lastdep
        ((s.r.get? s.lastdep).getD [] ++ [s.lastcmp ++ ' ' :: (s.lastver ++ w)]) } := if_neg hw

theorem head?_plain {w : Str} (h : IsPlain w) : w.head? ≠ some '(' := by
  intro hh
  exact h.2.1 (List.mem_of_mem_head? hh)

theorem getLast?_plain {w : Str} (h : IsPlain w) : w.getLast? ≠ some ')' := by
  intro hh
  exact h.2.2 (List.mem_of_getLast? hh)

/-- The words of a version, each with a constraint. -/
theorem run_closing {ws : List Str} (hne : ws ≠ []) (hw : ∀ w ∈ ws, IsWord w)
    (hp : ∀ w ∈ ws, IsPlain w) {s : State} (hc : s.incmp = false) (hv : s.inversion = true) :
    ∃ s', (closing ws).foldlM step s = .ok s' ∧ s'.Idle ∧
      s'.r = s.r.set s.lastdep ((s.r.get? s.lastdep).getD [] ++ appended s.lastcmp s.lastver ws) := by
  induction ws generalizing s with
  | nil => exact absurd rfl hne
  | cons w ws ih =>
    obtain ⟨hw₁, hws⟩ := List.forall_mem_cons.1 hw
    obtain ⟨hp₁, hps⟩ := List.forall_mem_cons.1 hp
    cases ws with
    | nil =>
      have hhead : (w ++ [')']).head? ≠ some '(' := by
        obtain ⟨c, cs, rfl⟩ := List.exists_cons_of_ne_nil hw₁.1
        intro h
        refine head?_plain hp₁ ?_
        rwa [List.cons_append, List.head?_cons] at h
      have hlast : (w ++ [')']).getLast? = some ')' := List.getLast?_concat
      have hstep : s.step (w ++ [')']) = .ok ({ s with
          inversion := false
          lastver := if s.lastver ≠ [] then s.lastver ++ [' '] else s.lastver }.append w) := by
        rw [step_word hc hhead, word, if_pos hv, version, if_pos hlast, List.dropLast_concat]
        simp [hw₁.1]
      refine ⟨_, by rw [closing, List.foldlM_cons, hstep]; rfl, ?_⟩
      rw [append_word _ hw₁.1]
      exact ⟨⟨hc, rfl⟩, rfl⟩
    | cons w' ws =>
      have hstep : s.step w = .ok (s.append w) := by
        rw [step_word hc (head?_plain hp₁), word, if_pos hv, version, if_neg (getLast?_plain hp₁)]
      have happ := s.append_word hw₁.1
      obtain ⟨s', hrun, hidle, hr⟩ := ih (List.cons_ne_nil _ _) hws hps (s := s.append w)
        (by rw [happ]; exact hc) (by rw [happ]; exact hv)
      refine ⟨s', ?_, hidle, ?_⟩
      · rw [closing, List.foldlM_cons, hstep]
        exact hrun
      · rw [hr, happ]
        simp only [Dict.get?_set_self, Option.getD_some, Dict.set_set, appended, List.append_assoc,
          List.singleton_append]

theorem step_name {s : State} {n : Str} (h : s.Idle) (hp : IsPlain n) : s.step n = .ok (s.name n) := by
  rw [step_word h.1 (head?_plain hp), word, if_neg (by simp [h.2])]

theorem splitOperator_op {op : Str} (h : op ∈ longOperators ++ shortOperators) :
    splitOperator op = some (op, []) := by
  have hall : ∀ op ∈ longOperators ++ shortOperators, splitOperator op = some (op, []) := by
    decide +kernel
  exact hall op h

theorem step_operator {s : State} (c : Constraint) : s.step ('(' :: c.op) =
    .ok { s with incmp := false, inversion := true, lastcmp := c.op } := by
  obtain ⟨hword, -, hne, -⟩ := operators_word _ c.op_mem
  have hstrip : strip c.op = c.op :=
    strip_of_not_isSpace fun d hd => by simpa using hword.2 d (List.mem_cons_of_mem _ hd)
  have hhead : ('(' :: c.op).head? = some '(' := rfl
  rw [step, if_pos hhead, List.drop_one, List.tail_cons, hstrip]
  simp only [hne, if_false, token, if_true, splitOperator_op c.op_mem]

/-- A name and a constraint: what the name had stays in front. -/
theorem run_constraint {n : Str} (hn : IsPlain n) (c : Constraint) {s : State} (h : s.Idle) :
    ∃ s', (n :: c.tokens).foldlM step s = .ok s' ∧ s'.Idle ∧
      s'.r = s.r.set (some n) ((s.r.get? (some n)).getD [] ++ appended c.op [] c.version) := by
  obtain ⟨s', hrun, hidle, hr⟩ := run_closing c.ne_nil c.word c.plain
    (s := { s.name n with incmp := false, inversion := true, lastcmp := c.op }) rfl rfl
  refine ⟨s', ?_, hidle, ?_⟩
  · rw [List.foldlM_cons, step_name h hn, Constraint.tokens]
    show List.foldlM step (s.name n) (('(' :: c.op) :: closing c.version) = _
    rw [List.foldlM_cons, step_operator]
    exact hrun
  · rw [hr]
    simp only [name]
    split_ifs with hg
    · rfl
    · rw [not_not] at hg
      rw [Dict.get?_set_self, Dict.set_set, hg]
      rfl

def read (cs : List Constraint) : List Str := cs.flatMap fun c => appended c.op [] c.version

theorem appended_single {c : Constraint} (h : c.version.length = 1) :
    appended c.op [] c.version = [c.text] := by
  obtain ⟨w, hw⟩ := List.length_eq_one_iff.1 h
  rw [Constraint.text, hw]
  simp [appended]

theorem length_le_read (cs : List Constraint) : cs.length ≤ (read cs).length := by
  induction cs with
  | nil => exact Nat.zero_le _
  | cons c cs ih =>
    have hpos : 0 < c.version.length := List.length_pos_iff.2 c.ne_nil
    rw [read, List.flatMap_cons, List.length_append, length_appended, List.length_cons]
    unfold read at ih
    omega

/-- Only versions of one word come back. -/
theorem read_eq_iff {cs : List Constraint} :
    read cs = cs.map Constraint.text ↔ ∀ c ∈ cs, c.version.length = 1 := by
  constructor
  · intro h
    induction cs with
    | nil => simp
    | cons c cs ih =>
      have hcons : appended c.op [] c.version ++ read cs = c.text :: cs.map Constraint.text := h
      have hlen := congrArg List.length hcons
      rw [List.length_append, length_appended, List.length_cons, List.length_map] at hlen
      have hle := length_le_read cs
      have hpos : 0 < c.version.length := List.length_pos_iff.2 c.ne_nil
      have hone : c.version.length = 1 := by omega
      rw [appended_single hone, List.singleton_append, List.cons.injEq] at hcons
      exact List.forall_mem_cons.2 ⟨hone, ih hcons.2⟩
  · intro h
    induction cs with
    | nil => rfl
    | cons c cs ih =>
      obtain ⟨hc, hcs⟩ := List.forall_mem_cons.1 h
      have hread : read (c :: cs) = appended c.op [] c.version ++ read cs := rfl
      rw [hread, appended_single hc, ih hcs]
      rfl

theorem run_constraints {n : Str} (hn : IsPlain n) {cs : List Constraint} (hne : cs ≠ []) {s : State}
    (h : s.Idle) : ∃ s', (cs.flatMap fun c => n :: c.tokens).foldlM step s = .ok s' ∧ s'.Idle ∧
      s'.r = s.r.set (some n) ((s.r.get? (some n)).getD [] ++ read cs) := by
  induction cs generalizing s with
  | nil => exact absurd rfl hne
  | cons c cs ih =>
    obtain ⟨s₁, hrun₁, hidle₁, hr₁⟩ := run_constraint hn c h
    by_cases hcs : cs = []
    · refine ⟨s₁, ?_, hidle₁, ?_⟩
      · simp [hcs, hrun₁]
      · simp [hr₁, hcs, read]
    · obtain ⟨s₂, hrun₂, hidle₂, hr₂⟩ := ih hcs hidle₁
      refine ⟨s₂, ?_, hidle₂, ?_⟩
      · rw [List.flatMap_cons, List.foldlM_append, hrun₁]
        exact hrun₂
      · rw [hr₂, hr₁, Dict.get?_set_self, Dict.set_set, Option.getD_some, List.append_assoc]
        rfl

theorem run_item {n : Str} (hn : IsPlain n) (cs : List Constraint) {s : State} (h : s.Idle)
    (hnew : some n ∉ s.r) :
    ∃ s', (itemTokens n cs).foldlM step s = .ok s' ∧ s'.Idle ∧ s'.r = s.r.set (some n) (read cs) := by
  have hnone : s.r.get? (some n) = none := Dict.get?_eq_none_iff.2 hnew
  unfold itemTokens
  split_ifs with hcs
  · obtain ⟨s', hrun, hidle, hr⟩ := run_constraints hn hcs h
    exact ⟨s', hrun, hidle, by rw [hr, hnone]; rfl⟩
  · rw [not_not] at hcs
    refine ⟨s.name n, ?_, h, ?_⟩
    · rw [List.foldlM_cons, step_name h hn]
      rfl
    · simp [name, hnone, hcs, read]

/-- What is read back for the entries of a dictionary. -/
def readEntries (l : List (Str × List Constraint)) : List (Option Str × List Str) :=
  l.map fun e => (some e.1, read e.2)

theorem run_items {l : List (Str × List Constraint)} (hn : ∀ e ∈ l, IsPlain e.1)
    (hd : (l.map Prod.fst).Nodup) {s : State} (h : s.Idle) (hnew : ∀ e ∈ l, some e.1 ∉ s.r) :
    ∃ s', (l.flatMap fun e => itemTokens e.1 e.2).foldlM step s = .ok s' ∧ s'.Idle ∧
      s'.r = s.r.assign (readEntries l) := by
  induction l generalizing s with
  | nil => exact ⟨s, rfl, h, rfl⟩
  | cons e l ih =>
    obtain ⟨hn₁, hn⟩ := List.forall_mem_cons.1 hn
    obtain ⟨hnew₁, hnew⟩ := List.forall_mem_cons.1 hnew
    rw [List.map_cons, List.nodup_cons] at hd
    obtain ⟨s₁, hrun₁, hidle₁, hr₁⟩ := run_item hn₁ e.2 h hnew₁
    have hnew' : ∀ e' ∈ l, some e'.1 ∉ s₁.r := by
      intro e' he' hm
      rw [hr₁, Dict.mem_set] at hm
      rcases hm with hm | hm
      · refine hd.1 ?_
        rw [← Option.some.inj hm]
        exact List.mem_map_of_mem he'
      · exact hnew e' he' hm
    obtain ⟨s₂, hrun₂, hidle₂, hr₂⟩ := ih hn hd.2 hidle₁ hnew'
    refine ⟨s₂, ?_, hidle₂, ?_⟩
    · rw [List.flatMap_cons, List.foldlM_append, hrun₁]
      exact hrun₂
    · rw [hr₂, hr₁]
      rfl

end State

/-! ### Reading back what was joined -/

namespace Deps
variable (m : Deps)

/-- The dictionary that is read back. -/
def readBack : Dict (Option Str) (List Str) := Dict.ofList (State.readEntries m.entries.entries)

/-- The dictionary that was joined, with the names as the reader has them. -/
def named : Dict (Option Str) (List Str) :=
  Dict.ofList (m.entries.entries.map fun e => (some e.1, e.2.map Constraint.text))

theorem plain_of_mem {e : Str × List Constraint} (he : e ∈ m.entries.entries) : IsPlain e.1 :=
  m.plain e.1 (Dict.mem_keys_of_mem_entries he)

theorem explodeDepVersions2_joinDeps (commasep : Bool) :
    explodeDepVersions2 (joinDeps m.texts commasep) false = .ok m.readBack := by
  obtain ⟨s', hrun, -, hr⟩ := State.run_items (s := State.init) (fun e he => m.plain_of_mem he)
    m.entries.nodup ⟨rfl, rfl⟩ (fun _ _ h => by cases h)
  unfold explodeDepVersions2
  rw [filter_joinDeps, words_items, tokens]
  simp only [hrun, bind, Except.bind, Bool.false_eq_true, if_false, hr]
  rfl

theorem nodup_some {β : Type} (f : List Constraint → β) :
    ((m.entries.entries.map fun e => (some e.1, f e.2)).map Prod.fst).Nodup := by
  have hnodup : (m.entries.entries.map Prod.fst).Nodup := m.entries.nodup
  rw [List.map_map]
  have hmap := List.Nodup.map (Option.some_injective Str) hnodup
  rwa [List.map_map] at hmap

theorem readBack_eq_iff : m.readBack = m.named ↔ ∀ cs ∈ m.entries.values, ∀ c ∈ cs,
    c.version.length = 1 := by
  have hentries : m.readBack = m.named ↔ State.readEntries m.entries.entries =
      m.entries.entries.map fun e => (some e.1, e.2.map Constraint.text) := by
    have hread : m.readBack.entries = State.readEntries m.entries.entries :=
      Dict.entries_ofList (m.nodup_some State.read)
    have hnamed : m.named.entries = m.entries.entries.map fun e => (some e.1, e.2.map Constraint.text) :=
      Dict.entries_ofList (m.nodup_some _)
    rw [← hread, ← hnamed]
    exact ⟨fun h => congrArg Dict.entries h, fun h => Dict.ext h⟩
  rw [hentries, State.readEntries, List.map_eq_map_iff]
  constructor
  · intro h cs hcs
    obtain ⟨e, he, rfl⟩ := List.mem_map.1 hcs
    exact State.read_eq_iff.1 (Prod.mk.inj (h e he)).2
  · intro h e he
    rw [State.read_eq_iff.2 (h e.2 (Dict.mem_values_of_mem_entries he))]

/-! ### The names -/

theorem foldl_closing {ws : List Str} (hne : ws ≠ []) (hp : ∀ w ∈ ws, IsPlain w) (l : List Str) :
    (closing ws).foldl explodeStep (l, true) = (l, false) := by
  induction ws with
  | nil => exact absurd rfl hne
  | cons w ws ih =>
    obtain ⟨hp₁, hps⟩ := List.forall_mem_cons.1 hp
    cases ws with
    | nil => simp [closing, explodeStep]
    | cons w' ws =>
      have hstep : explodeStep (l, true) w = (l, true) := by
        simp [explodeStep, State.getLast?_plain hp₁]
      rw [closing, List.foldl_cons, hstep]
      exact ih (List.cons_ne_nil _ _) hps

theorem foldl_constraint {n : Str} (hn : IsPlain n) (c : Constraint) (l : List Str) :
    (n :: c.tokens).foldl explodeStep (l, false) = (l ++ [n], false) := by
  have hlast : ('(' :: c.op).getLast? ≠ some ')' := by
    obtain ⟨-, -, hne, hlast⟩ := operators_word _ c.op_mem
    rwa [List.getLast?_cons_of_ne_nil hne]
  have hname : explodeStep (l, false) n = (l ++ [n], false) := by
    simp [explodeStep, State.head?_plain hn]
  have hop : explodeStep (l ++ [n], false) ('(' :: c.op) = (l ++ [n], true) := by
    simp [explodeStep, hlast]
  rw [List.foldl_cons, hname, Constraint.tokens, List.foldl_cons, hop,
    foldl_closing c.ne_nil c.plain]

/-- A name is read as often as it was written. -/
theorem foldl_item {n : Str} (hn : IsPlain n) (cs : List Constraint) (l : List Str) :
    (itemTokens n cs).foldl explodeStep (l, false) =
      (l ++ List.replicate (max 1 cs.length) n, false) := by
  unfold itemTokens
  split_ifs with hcs
  · have hlen : 1 ≤ cs.length := List.length_pos_iff.2 hcs
    rw [max_eq_right hlen]
    clear hcs hlen
    induction cs generalizing l with
    | nil => simp
    | cons c cs ih =>
      rw [List.flatMap_cons, List.foldl_append, foldl_constraint hn, ih, List.length_cons,
        List.replicate_succ, List.append_assoc, List.singleton_append]
  · rw [not_not] at hcs
    simp [hcs, explodeStep, State.head?_plain hn]

theorem explodeDeps_joinDeps : explodeDeps (joinDeps m.texts false) =
    m.entries.entries.flatMap fun e => List.replicate (max 1 e.2.length) e.1 := by
  have hfold : ∀ (es : List (Str × List Constraint)), (∀ e ∈ es, IsPlain e.1) → ∀ l : List Str,
      (es.flatMap fun e => itemTokens e.1 e.2).foldl explodeStep (l, false) =
        (l ++ es.flatMap fun e => List.replicate (max 1 e.2.length) e.1, false) := by
    intro es hes
    induction es with
    | nil => simp
    | cons e es ih =>
      obtain ⟨he, hes⟩ := List.forall_mem_cons.1 hes
      intro l
      rw [List.flatMap_cons, List.foldl_append, foldl_item he, ih hes, List.flatMap_cons,
        List.append_assoc]
  have htokens : words (joinDeps m.texts false) = m.tokens := m.words_items
  rw [explodeDeps, htokens, tokens, hfold _ fun e he => m.plain_of_mem he]
  rfl

theorem mem_explodeDeps (n : Str) : n ∈ explodeDeps (joinDeps m.texts false) ↔ n ∈ m.entries.keys := by
  rw [explodeDeps_joinDeps, List.mem_flatMap]
  constructor
  · rintro ⟨e, he, hn⟩
    rw [(List.mem_replicate.1 hn).2]
    exact Dict.mem_keys_of_mem_entries he
  · intro hn
    obtain ⟨e, he, rfl⟩ := List.mem_map.1 hn
    exact ⟨e, he, List.mem_replicate.2 ⟨by omega, rfl⟩⟩

/-- Both readers give back what was joined, the first for both separators. -/
def RoundTrips : Prop :=
  (∀ commasep, explodeDepVersions2 (joinDeps m.texts commasep) false = .ok m.named) ∧
    ∀ n, n ∈ explodeDeps (joinDeps m.texts false) ↔ n ∈ m.entries.keys

theorem single_of_roundTrips (h : m.RoundTrips) :
    ∀ cs ∈ m.entries.values, ∀ c ∈ cs, c.version.length = 1 :=
  m.readBack_eq_iff.1
    (Except.ok.inj ((m.explodeDepVersions2_joinDeps true).symm.trans (h.1 true)))

theorem roundTrips_iff_single : m.RoundTrips ↔
    ∀ cs ∈ m.entries.values, ∀ c ∈ cs, c.version.length = 1 := by
  refine ⟨m.single_of_roundTrips, fun h => ⟨fun commasep => ?_, m.mem_explodeDeps⟩⟩
  rw [explodeDepVersions2_joinDeps, m.readBack_eq_iff.2 h]

end Deps

/-! ### A version of two words -/

namespace Sample

def version : List Str := ["1".toList, "2".toList]

theorem op_mem : "=".toList ∈ longOperators ++ shortOperators := by decide +kernel

theorem version_ne_nil : version ≠ [] := List.cons_ne_nil _ _

theorem version_word : ∀ w ∈ version, IsWord w := by decide +kernel

theorem version_plain : ∀ w ∈ version, IsPlain w := by
  unfold IsPlain
  decide +kernel

def constraint : Constraint := ⟨"=".toList, version, op_mem, version_ne_nil, version_word, version_plain⟩

def entries : Dict Str (List Constraint) := Dict.empty.set "a".toList [constraint]

theorem entries_word : ∀ n ∈ entries.keys, IsWord n := by decide +kernel

theorem entries_plain : ∀ n ∈ entries.keys, IsPlain n := by
  unfold IsPlain
  decide +kernel

/-- `a (= 1 2)`. -/
def deps : Deps := ⟨entries, entries_word, entries_plain⟩

end Sample

theorem two_words_fail : ¬ Sample.deps.RoundTrips := by
  intro h
  have hone := Sample.deps.single_of_roundTrips h [Sample.constraint] List.mem_cons_self
    Sample.constraint List.mem_cons_self
  cases hone

end DepVersions
end BitBake
end OpenBmc
