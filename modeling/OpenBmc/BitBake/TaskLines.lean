import OpenBmc.BitBake.DataSmart
import OpenBmc.Py.Words

/-!
# The `addtask` and `deltask` lines

`feeder` cuts an `addtask` line apart with two nested splits, at the texts ` before ` and ` after `,
and puts the pieces of one kind behind each other. `namesIn` says what the words of the line
declare. `feeder_addtask` has the two agree for a line whose keywords stand between spaces of their
own and in which no two pieces that are joined run into one word.
-/

namespace OpenBmc
namespace BitBake
namespace TaskLines
open Py

/-- `before` or `after`. -/
inductive Clause
  | before
  | after
deriving DecidableEq

namespace Clause

def word : Clause → Str
  | before => "before".toList
  | after => "after".toList

def other : Clause → Clause
  | before => after
  | after => before

theorem isWord_word (k : Clause) : IsWord k.word := by cases k <;> decide

theorem word_injective : Function.Injective word := by
  intro a b h
  cases a <;> cases b
  · rfl
  · exact absurd h (by decide)
  · exact absurd h (by decide)
  · rfl

theorem eq_or_eq_other (k c : Clause) : c = k ∨ c = k.other := by cases k <;> cases c <;> decide

theorem other_ne (k : Clause) : k.other ≠ k := by cases k <;> decide

theorem other_other (k : Clause) : k.other.other = k := by cases k <;> rfl

def ofWord (w : Str) : Option Clause :=
  if w = word before then some before else if w = word after then some after else none

theorem ofWord_word (k : Clause) : ofWord k.word = some k := by cases k <;> decide

theorem ofWord_eq_none {w : Str} : ofWord w = none ↔ ∀ k : Clause, w ≠ k.word := by
  unfold ofWord
  constructor
  · intro h k hk
    rw [hk] at h
    cases k
    · exact absurd h (by decide)
    · exact absurd h (by decide)
  · intro h
    rw [if_neg (h before), if_neg (h after)]

end Clause

/-- The `AddTaskNode` and `DelTaskNode` statements, with the texts they keep. -/
inductive Statement
  | addTask (tasks before after : Str)
  | delTask (tasks : Str)
deriving DecidableEq

structure ParseError where
  msg : Str
  filename : Str
deriving DecidableEq

/-- `__setvar_keyword__`. -/
def setvarKeyword : List Str := [Keyword.append.text, Keyword.prepend.text, Keyword.remove.text]

def hasKeyword (te : Str) : Bool := setvarKeyword.any fun keyword => contains (keyword ++ ['_']) te

def keywordError (fn te : Str) : ParseError where
  msg := "Task name '".toList ++ te ++
    "' contains a keyword which is not recommended/supported.\nPlease rename the task not to include the keyword.\n".toList ++
    ['\n'].intercalate setvarKeyword
  filename := fn

def isFuncChar (c : Char) : Bool := c.isAlphanum || c ∈ "_.-+\x7b\x7d$:".toList

/-- `__func_start_regexp__`, on a line that starts with neither `python` nor `fakeroot`. -/
def isFuncStart (s : Str) : Bool :=
  let rest := s.dropWhile isFuncChar
  rest.filter (fun c => !isSpace c) = "()\x7b".toList && rest.getLast? = some '\x7b'

/-- `m.group(1)` of `addtask\s+([^#\n]+)`, or of the same with `deltask`. -/
def taskExpression (keyword s : Str) : Option Str :=
  let rest := s.drop keyword.length
  let blanks := rest.takeWhile isSpace
  let text := (rest.dropWhile isSpace).takeWhile fun c => c ≠ '#' && c ≠ '\n'
  if !keyword.isPrefixOf s || blanks = [] then none
  -- `\s+` gives back its last blank when nothing else is left for the group.
  else if text = [] then blanks.tail.getLast?.map fun c => [c]
  else some text

/-- The loop over the pieces of `m.group(1)` between the keywords of the other kind. -/
def clauseText (kind : Clause) (text : Str) : Str :=
  (splitSub (spaced kind.other.word) text).foldl
    (fun acc exp =>
      let exp2 := splitSub (spaced kind.word) exp
      if 1 < exp2.length then acc ++ [' '].intercalate exp2.tail else acc) []

def tasksText (text : Str) : Str :=
  let exp := (splitSub (spaced Clause.before.word) text).headD []
  (splitSub (spaced Clause.after.word) exp).headD []

/-- `feeder` on one whole line outside of functions; a line of another kind adds none of these
statements. -/
def feeder (fn : Str) (statements : List Statement) (s : Str) :
    Except ParseError (List Statement) :=
  if isFuncStart s then pure statements
  else if let some text := taskExpression "addtask".toList s then
    if let some te := (words s).find? hasKeyword then throw (keywordError fn te)
    else pure (statements ++
      [.addTask (tasksText text) (clauseText .before text) (clauseText .after text)])
  else if let some task := taskExpression "deltask".toList s then
    pure (statements ++ [.delTask task])
  else pure statements

/-! ### What a line declares -/

/-- The words of a line behind the keyword `k`, or (`none`) before any keyword. -/
def namesIn (k : Option Clause) : Option Clause → List Str → List Str
  | _, [] => []
  | current, w :: ws =>
    if let some c := Clause.ofWord w then namesIn k (some c) ws
    else if current = k then w :: namesIn k current ws
    else namesIn k current ws

/-- No word of the text is a keyword. -/
def Plain (s : Str) : Prop := ∀ k : Clause, k.word ∉ words s

/-- The names of an `addtask` line, cut apart: the tasks, then the clauses. -/
structure Layout where
  tasks : Str
  clauses : List (Clause × Str)

namespace Layout

def render (clauses : List (Clause × Str)) : Str := clauses.flatMap fun c => spaced c.1.word ++ c.2

def text (l : Layout) : Str := l.tasks ++ render l.clauses

/-- The texts of the clauses of a kind, those that follow each other together. -/
def runs (kind : Clause) : List Str → List (Clause × Str) → List (List Str)
  | acc, [] => [acc]
  | acc, (k, body) :: clauses =>
    if k = kind then runs kind (acc ++ [body]) clauses else acc :: runs kind [] clauses

def bodies (kind : Clause) (clauses : List (Clause × Str)) : List Str :=
  (clauses.filter fun c => c.1 = kind).map Prod.snd

/-- `y` put behind `x` continues no word of it. -/
def Parted (x y : Str) : Prop := x.getLast?.any isSpace ∨ y.head?.any isSpace

/-- The texts that `feeder` puts behind each other for a kind of clauses do not run together. -/
def Apart (kind : Clause) (clauses : List (Clause × Str)) : Prop :=
  (((runs kind [] clauses).map [' '].intercalate).filter (· ≠ [])).IsChain Parted

/-- The layout can be read back: the keywords stand where it says, and nowhere else, and no names
run together. -/
structure WellSpaced (l : Layout) : Prop where
  tasks : Plain l.tasks
  clauses : ∀ c ∈ l.clauses, Plain c.2
  apart : ∀ kind, Apart kind l.clauses

/-! ### The words of a layout -/

theorem words_append_spaced (x : Str) (k : Clause) (body : Str) :
    words (x ++ (spaced k.word ++ body)) = words x ++ k.word :: words body := by
  have hcons : spaced k.word ++ body = ' ' :: (k.word ++ ' ' :: body) := by simp [spaced]
  rw [hcons, words_append_space, words_append_space, k.isWord_word.words]
  rfl

theorem render_cons (c : Clause × Str) (clauses : List (Clause × Str)) :
    render (c :: clauses) = spaced c.1.word ++ (c.2 ++ render clauses) := by
  rw [render, List.flatMap_cons, List.append_assoc]
  rfl

theorem render_append (a b : List (Clause × Str)) : render (a ++ b) = render a ++ render b :=
  List.flatMap_append

theorem words_append_render (x : Str) (clauses : List (Clause × Str)) :
    words (x ++ render clauses) = words x ++ clauses.flatMap fun c => c.1.word :: words c.2 := by
  induction clauses generalizing x with
  | nil => simp [render]
  | cons c clauses ih =>
    rw [render_cons, words_append_spaced, ih, List.flatMap_cons]
    rfl

theorem namesIn_append {k current : Option Clause} {a : List Str}
    (ha : ∀ w ∈ a, ∀ c : Clause, w ≠ c.word) (b : List Str) :
    namesIn k current (a ++ b) = (if current = k then a else []) ++ namesIn k current b := by
  induction a with
  | nil => simp
  | cons w a ih =>
    have hw : Clause.ofWord w = none := Clause.ofWord_eq_none.2 (ha w (List.mem_cons_self ..))
    have ih := ih fun v hv => ha v (List.mem_cons_of_mem _ hv)
    rw [List.cons_append, namesIn, hw]
    by_cases hk : current = k
    · subst hk
      rw [if_pos rfl] at ih ⊢
      simp only [if_true, List.cons_append]
      rw [ih]
    · rw [if_neg hk] at ih ⊢
      simp only [hk, if_false]
      exact ih

theorem ne_word_of_plain {s : Str} (h : Plain s) : ∀ w ∈ words s, ∀ c : Clause, w ≠ c.word := by
  rintro w hw c rfl
  exact h c hw

theorem namesIn_clauses {k current : Option Clause} {clauses : List (Clause × Str)}
    (hc : ∀ c ∈ clauses, Plain c.2) :
    namesIn k current (clauses.flatMap fun c => c.1.word :: words c.2) =
      (clauses.filter fun c => some c.1 = k).flatMap fun c => words c.2 := by
  induction clauses generalizing current with
  | nil => rfl
  | cons c clauses ih =>
    have hplain := hc c (List.mem_cons_self ..)
    have ih := @ih (some c.1) fun d hd => hc d (List.mem_cons_of_mem _ hd)
    rw [List.flatMap_cons, List.cons_append, namesIn, Clause.ofWord_word]
    show namesIn k (some c.1) _ = _
    rw [namesIn_append (ne_word_of_plain hplain), ih]
    by_cases hk : some c.1 = k
    · rw [if_pos hk, List.filter_cons_of_pos (by simpa using hk), List.flatMap_cons]
    · rw [if_neg hk, List.filter_cons_of_neg (by simpa using hk)]
      rfl

theorem namesIn_tasks {l : Layout} (hl : l.WellSpaced) :
    namesIn none none (words l.text) = words l.tasks := by
  rw [text, words_append_render, namesIn_append (ne_word_of_plain hl.tasks), namesIn_clauses hl.clauses]
  simp

theorem namesIn_kind {l : Layout} (hl : l.WellSpaced) (kind : Clause) :
    namesIn (some kind) none (words l.text) = (bodies kind l.clauses).flatMap words := by
  rw [text, words_append_render, namesIn_append (ne_word_of_plain hl.tasks), namesIn_clauses hl.clauses, bodies,
    List.flatMap_map]
  simp

/-! ### The two splits -/

/-- Clauses of one kind come back when the text is split at their keyword. -/
theorem splitSub_bodies {kind : Clause} {t : Str} {acc : List Str} (ht : Plain t)
    (hacc : ∀ b ∈ acc, Plain b) :
    splitSub (spaced kind.word) (t ++ render (acc.map fun b => (kind, b))) = t :: acc := by
  induction acc generalizing t with
  | nil => simpa [render] using splitSub_spaced_last kind.isWord_word (ht kind)
  | cons b acc ih =>
    rw [List.map_cons, render_cons, splitSub_spaced kind.isWord_word (ht kind),
      ih (hacc b (List.mem_cons_self ..)) fun d hd => hacc d (List.mem_cons_of_mem _ hd)]

theorem other_not_mem_words {kind : Clause} {t : Str} {acc : List Str} (ht : Plain t)
    (hacc : ∀ b ∈ acc, Plain b) :
    kind.other.word ∉ words (t ++ render (acc.map fun b => (kind, b))) := by
  rw [words_append_render, List.mem_append, List.mem_flatMap]
  rintro (h | ⟨c, hc, h⟩)
  · exact ht _ h
  · obtain ⟨b, hb, rfl⟩ := List.mem_map.1 hc
    rcases List.mem_cons.1 h with h | h
    · exact kind.other_ne (Clause.word_injective h)
    · exact hacc b hb _ h

theorem plain_append {acc : List Str} {body : Str} (hacc : ∀ b ∈ acc, Plain b) (hbody : Plain body) :
    ∀ b ∈ acc ++ [body], Plain b := by
  intro b hb
  rcases List.mem_append.1 hb with hb | hb
  · exact hacc b hb
  · rw [List.mem_singleton.1 hb]
    exact hbody

theorem render_snoc (kind : Clause) (acc : List Str) (body : Str) :
    render ((acc ++ [body]).map fun b => (kind, b)) =
      render (acc.map fun b => (kind, b)) ++ (spaced kind.word ++ body) := by
  rw [List.map_append, render_append, List.map_singleton, render_cons,
    show render [] = [] from rfl, List.append_nil]

/-- What `feeder` finds in the pieces between the keywords of the other kind. -/
theorem splitSub_runs {kind : Clause} {t : Str} {acc : List Str} {clauses : List (Clause × Str)}
    (ht : Plain t) (hacc : ∀ b ∈ acc, Plain b) (hc : ∀ c ∈ clauses, Plain c.2) :
    (splitSub (spaced kind.other.word)
      (t ++ render (acc.map fun b => (kind, b)) ++ render clauses)).map
        (fun exp => (splitSub (spaced kind.word) exp).tail) = runs kind acc clauses := by
  induction clauses generalizing t acc with
  | nil =>
    have hlast := splitSub_spaced_last kind.other.isWord_word (other_not_mem_words ht hacc)
    rw [show render [] = [] from rfl, List.append_nil, hlast, List.map_singleton,
      splitSub_bodies ht hacc]
    rfl
  | cons c clauses ih =>
    have hbody := hc c (List.mem_cons_self ..)
    have hrest : ∀ d ∈ clauses, Plain d.2 := fun d hd => hc d (List.mem_cons_of_mem _ hd)
    obtain ⟨k, body⟩ := c
    rcases kind.eq_or_eq_other k with rfl | rfl
    · have ih := ih ht (plain_append hacc hbody) hrest
      rw [render_snoc] at ih
      rw [render_cons, runs, if_pos rfl, ← ih]
      simp only [List.append_assoc]
    · have ih := @ih body [] hbody (by simp) hrest
      rw [List.map_nil, show render [] = [] from rfl, List.append_nil] at ih
      rw [render_cons, splitSub_spaced kind.other.isWord_word (other_not_mem_words ht hacc),
        List.map_cons, ih, splitSub_bodies ht hacc, runs, if_neg kind.other_ne]
      rfl

theorem clauseText_eq (kind : Clause) (text : Str) :
    clauseText kind text = ((splitSub (spaced kind.other.word) text).map
      (fun exp => (splitSub (spaced kind.word) exp).tail)).flatMap [' '].intercalate := by
  suffices hfold : ∀ (l : List Str) (acc : Str),
      l.foldl (fun acc exp =>
        let exp2 := splitSub (spaced kind.word) exp
        if 1 < exp2.length then acc ++ [' '].intercalate exp2.tail else acc) acc =
      acc ++ (l.map (fun exp => (splitSub (spaced kind.word) exp).tail)).flatMap
        [' '].intercalate from
    hfold _ []
  intro l
  induction l with
  | nil => simp
  | cons exp l ih =>
    intro acc
    rw [List.foldl_cons, ih, List.map_cons, List.flatMap_cons]
    by_cases hlen : 1 < (splitSub (spaced kind.word) exp).length
    · simp only [hlen, if_true, List.append_assoc]
    · have htail : (splitSub (spaced kind.word) exp).tail = [] := by
        rw [← List.length_eq_zero_iff, List.length_tail]
        omega
      simp only [hlen, if_false, htail]
      rfl

/-! ### The joined pieces -/

theorem words_append_of_parted {x y : Str} (h : Parted x y) : words (x ++ y) = words x ++ words y := by
  rcases h with h | h
  · obtain ⟨c, hc, hspace⟩ := (Option.any_eq_true ..).1 h
    obtain ⟨z, rfl⟩ := List.getLast?_eq_some_iff.1 hc
    rw [List.append_assoc, List.singleton_append, words_append_cons hspace, words_append_cons hspace,
      words_nil, List.append_nil]
  · obtain ⟨c, hc, hspace⟩ := (Option.any_eq_true ..).1 h
    obtain ⟨z, rfl⟩ := List.head?_eq_some_iff.1 hc
    have hy : words (c :: z) = words z := words_append_cons hspace [] z
    rw [words_append_cons hspace, hy]

theorem words_flatten {l : List Str} (hne : ∀ x ∈ l, x ≠ []) (h : l.IsChain Parted) :
    words l.flatten = l.flatMap words := by
  induction l with
  | nil => rfl
  | cons x l ih =>
    have ih := ih (fun y hy => hne y (List.mem_cons_of_mem _ hy)) h.tail
    rw [List.flatten_cons, List.flatMap_cons, ← ih]
    cases l with
    | nil => simp [words_nil]
    | cons y l =>
      refine words_append_of_parted ?_
      have hy : y ≠ [] := hne y (by simp)
      have hhead : (y ++ l.flatten).head? = y.head? := by
        obtain ⟨c, z, rfl⟩ := List.exists_cons_of_ne_nil hy
        rfl
      rw [List.flatten_cons, Parted, hhead]
      exact (List.isChain_cons_cons.1 h).1

theorem words_intercalate (l : List Str) : words ([' '].intercalate l) = l.flatMap words := by
  induction l with
  | nil => rfl
  | cons x l ih =>
    cases l with
    | nil => simp [List.intercalate]
    | cons y l =>
      rw [List.flatMap_cons, ← ih, List.intercalate_cons_cons, List.append_assoc,
        List.singleton_append, words_append_space]

theorem flatten_runs (kind : Clause) (acc : List Str) (clauses : List (Clause × Str)) :
    (runs kind acc clauses).flatten = acc ++ bodies kind clauses := by
  induction clauses generalizing acc with
  | nil => simp [runs, bodies]
  | cons c clauses ih =>
    rw [runs, bodies, List.filter_cons]
    by_cases hk : c.1 = kind
    · rw [if_pos hk, if_pos (by simpa using hk), ih, List.map_cons, List.append_assoc]
      rfl
    · rw [if_neg hk, if_neg (by simpa using hk), List.flatten_cons, ih]
      rfl

theorem flatMap_filter_ne_nil {l : List Str} {f : Str → List Str} (hf : f [] = []) :
    (l.filter (· ≠ [])).flatMap f = l.flatMap f := by
  induction l with
  | nil => rfl
  | cons x l ih =>
    by_cases hx : x = []
    · rw [List.filter_cons_of_neg (by simpa using hx), List.flatMap_cons, ih, hx, hf]
      rfl
    · rw [List.filter_cons_of_pos (by simpa using hx), List.flatMap_cons, List.flatMap_cons, ih]

theorem words_clauseText {l : Layout} (hl : l.WellSpaced) (kind : Clause) :
    words (clauseText kind l.text) = (bodies kind l.clauses).flatMap words := by
  have hsplit := @splitSub_runs kind l.tasks [] l.clauses hl.tasks (by simp) hl.clauses
  rw [List.map_nil, show render [] = [] from rfl, List.append_nil] at hsplit
  rw [clauseText_eq, text, hsplit]
  have hflat : (runs kind [] l.clauses).flatMap [' '].intercalate =
      (((runs kind [] l.clauses).map [' '].intercalate).filter (· ≠ [])).flatten := by
    rw [List.flatMap_def, List.flatten_filter_ne_nil]
  rw [hflat, words_flatten _ (hl.apart kind), flatMap_filter_ne_nil words_nil, List.flatMap_map]
  · simp only [words_intercalate]
    rw [← List.nil_append (bodies kind l.clauses), ← flatten_runs, ← List.flatMap_id,
      List.flatMap_assoc]
    rfl
  · intro x hx
    simpa using (List.mem_filter.1 hx).2

/-- The first piece begins with the tasks. -/
theorem splitSub_first {kind : Clause} {t : Str} {acc : List Str} {clauses : List (Clause × Str)}
    (ht : Plain t) (hacc : ∀ b ∈ acc, Plain b) (hc : ∀ c ∈ clauses, Plain c.2) :
    ∃ exp, (splitSub (spaced kind.other.word)
        (t ++ render (acc.map fun b => (kind, b)) ++ render clauses)).head? = some exp ∧
      (splitSub (spaced kind.word) exp).head? = some t := by
  induction clauses generalizing acc with
  | nil =>
    refine ⟨t ++ render (acc.map fun b => (kind, b)), ?_, ?_⟩
    · rw [show render [] = [] from rfl, List.append_nil,
        splitSub_spaced_last kind.other.isWord_word (other_not_mem_words ht hacc)]
      rfl
    · rw [splitSub_bodies ht hacc]
      rfl
  | cons c clauses ih =>
    have hbody := hc c (List.mem_cons_self ..)
    have hrest : ∀ d ∈ clauses, Plain d.2 := fun d hd => hc d (List.mem_cons_of_mem _ hd)
    obtain ⟨k, body⟩ := c
    rcases kind.eq_or_eq_other k with rfl | rfl
    · have ih := ih (plain_append hacc hbody) hrest
      rw [render_snoc] at ih
      rw [render_cons]
      simpa only [List.append_assoc] using ih
    · refine ⟨t ++ render (acc.map fun b => (kind, b)), ?_, ?_⟩
      · rw [render_cons, splitSub_spaced kind.other.isWord_word (other_not_mem_words ht hacc)]
        rfl
      · rw [splitSub_bodies ht hacc]
        rfl

theorem tasksText_eq {l : Layout} (hl : l.WellSpaced) : tasksText l.text = l.tasks := by
  obtain ⟨exp, hexp, hhead⟩ :=
    @splitSub_first .after l.tasks [] l.clauses hl.tasks (by simp) hl.clauses
  rw [List.map_nil, show render [] = [] from rfl, List.append_nil] at hexp
  rw [tasksText, text, List.headD_eq_head?_getD, List.headD_eq_head?_getD]
  show ((splitSub (spaced Clause.after.word) ((splitSub (spaced Clause.after.other.word)
    (l.tasks ++ render l.clauses)).head?.getD [])).head?).getD [] = l.tasks
  rw [hexp, Option.getD_some, hhead, Option.getD_some]

end Layout

theorem prefix_of_taskExpression {keyword s text : Str} (h : taskExpression keyword s = some text) :
    keyword <+: s := by
  by_contra hp
  have hfalse : keyword.isPrefixOf s = false := by
    rw [Bool.eq_false_iff]
    exact fun hk => hp (List.isPrefixOf_iff_prefix.1 hk)
  rw [taskExpression, hfalse] at h
  exact absurd h (by simp)

theorem taskExpression_addtask_of_deltask {s text : Str}
    (h : taskExpression "deltask".toList s = some text) :
    taskExpression "addtask".toList s = none := by
  cases hadd : taskExpression "addtask".toList s with
  | none => rfl
  | some text' =>
    obtain ⟨x, hx⟩ := prefix_of_taskExpression hadd
    obtain ⟨y, hy⟩ := prefix_of_taskExpression h
    exact absurd (List.cons.inj (hx.trans hy.symm)).1 (by decide)

/-- The statement of an `addtask` line has the names that the line declares. -/
theorem feeder_addtask {s text : Str} {l : Layout} (fn : Str) (hfunc : isFuncStart s = false)
    (htext : taskExpression "addtask".toList s = some text)
    (hkeyword : ∀ te ∈ words s, hasKeyword te = false) (hl : l.WellSpaced) (hlayout : l.text = text) :
    ∃ tasks before after,
      (∀ statements, feeder fn statements s = .ok (statements ++ [.addTask tasks before after])) ∧
      words tasks = namesIn none none (words text) ∧
      words before = namesIn (some .before) none (words text) ∧
      words after = namesIn (some .after) none (words text) := by
  have hfind : (words s).find? hasKeyword = none :=
    List.find?_eq_none.2 fun te hte => by rw [hkeyword te hte]; decide
  subst hlayout
  refine ⟨_, _, _, fun statements => ?_, (congrArg words (Layout.tasksText_eq hl)).trans (Layout.namesIn_tasks hl).symm,
    (Layout.words_clauseText hl _).trans (Layout.namesIn_kind hl _).symm,
    (Layout.words_clauseText hl _).trans (Layout.namesIn_kind hl _).symm⟩
  rw [feeder, hfunc, htext, hfind]
  rfl

theorem feeder_deltask {s task : Str} (fn : Str) (statements : List Statement)
    (hfunc : isFuncStart s = false) (htask : taskExpression "deltask".toList s = some task) :
    feeder fn statements s = .ok (statements ++ [.delTask task]) := by
  rw [feeder, hfunc, taskExpression_addtask_of_deltask htask, htask]
  rfl

end TaskLines
end BitBake
end OpenBmc
