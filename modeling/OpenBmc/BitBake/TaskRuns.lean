import OpenBmc.BitBake.TaskGraph
import OpenBmc.Lib.Dag

/-!
# The declared graph

`Declared` has the tasks and their dependencies be what the lines so far declare: a task exists when
it was added after its last `deltask`, and a dependency when a line names it and neither of its ends
was deleted since. Each line that `Meets` its condition keeps `Declared`. `followChain_spec` is the
search of `tasksbetween` in an acyclic graph.
-/

namespace OpenBmc
namespace BitBake
namespace TaskLines
open Py

/-! ### Declarations -/

/-- A line, by the names of tasks in it. -/
inductive Declaration
  | add (tasks before after : List Str)
  | delete (tasks : List Str)
deriving DecidableEq

def declaration (s : Str) : Option Declaration :=
  if let some text := taskExpression "addtask".toList s then
    some (.add ((namesIn none none (words text)).map ensureTaskPrefix)
      ((namesIn (some .before) none (words text)).map ensureTaskPrefix)
      ((namesIn (some .after) none (words text)).map ensureTaskPrefix))
  else
    (taskExpression "deltask".toList s).map fun task => .delete ((words task).map ensureTaskPrefix)

namespace Declaration

def Adds (e : Declaration) (t : Str) : Prop := ∃ tasks before after, e = add tasks before after ∧ t ∈ tasks

def Deletes (e : Declaration) (t : Str) : Prop := ∃ tasks, e = delete tasks ∧ t ∈ tasks

/-- `u` is named after `t`'s `after`, or `t` after `u`'s `before`. -/
def Names (e : Declaration) (u t : Str) : Prop :=
  ∃ tasks before after, e = add tasks before after ∧
    (t ∈ tasks ∧ u ∈ after ∨ u ∈ tasks ∧ t ∈ before)

end Declaration

open Declaration

/-- `t` was added after its last `deltask`. -/
def Exists (es : List Declaration) (t : Str) : Prop :=
  ∃ pre e post, es = pre ++ e :: post ∧ e.Adds t ∧ ∀ e' ∈ post, ¬ e'.Deletes t

/-- A line after the last `deltask` of `u` and of `t` makes `u` a parent of `t`. -/
def Parent (es : List Declaration) (u t : Str) : Prop :=
  ∃ pre e post, es = pre ++ e :: post ∧ e.Names u t ∧ ∀ e' ∈ post, ¬ e'.Deletes u ∧ ¬ e'.Deletes t

/-- What holds at some element, and of all behind it, in a list that is one longer. -/
theorem snoc_iff {α : Type} {es : List α} {e : α} {p q : α → Prop} :
    (∃ pre a post, es ++ [e] = pre ++ a :: post ∧ p a ∧ ∀ b ∈ post, q b) ↔
      p e ∨ q e ∧ ∃ pre a post, es = pre ++ a :: post ∧ p a ∧ ∀ b ∈ post, q b := by
  constructor
  · rintro ⟨pre, a, post, heq, ha, hpost⟩
    rcases List.eq_nil_or_concat post with rfl | ⟨post, b, rfl⟩
    · obtain ⟨-, h⟩ := List.append_inj' heq rfl
      rw [(List.cons.inj h).1]
      exact .inl ha
    · rw [List.concat_eq_append, ← List.cons_append, ← List.append_assoc] at heq
      obtain ⟨h, h'⟩ := List.append_inj' heq rfl
      rw [(List.cons.inj h').1]
      exact .inr ⟨hpost b (by simp), pre, a, post, h, ha, fun c hc => hpost c (by simp [hc])⟩
  · rintro (h | ⟨he, pre, a, post, rfl, ha, hpost⟩)
    · exact ⟨es, e, [], rfl, h, by simp⟩
    · refine ⟨pre, a, post ++ [e], by simp, ha, fun b hb => ?_⟩
      rcases List.mem_append.1 hb with hb | hb
      · exact hpost b hb
      · rw [List.mem_singleton.1 hb]
        exact he

theorem exists_snoc {es : List Declaration} {e : Declaration} {t : Str} :
    Exists (es ++ [e]) t ↔ e.Adds t ∨ ¬ e.Deletes t ∧ Exists es t := snoc_iff

theorem parent_snoc {es : List Declaration} {e : Declaration} {u t : Str} :
    Parent (es ++ [e]) u t ↔ e.Names u t ∨ (¬ e.Deletes u ∧ ¬ e.Deletes t) ∧ Parent es u t := snoc_iff

/-- The tasks are those that the lines declare. -/
structure Declared (es : List Declaration) (d : Tasks) : Prop where
  wellFormed : d.WellFormed
  bbtasks : ∀ t, t ∈ d.bbtasks ↔ Exists es t
  existing : ∀ t u, u ∈ d.existing t ↔ Parent es u t

theorem declared_empty : Declared [] Tasks.empty where
  wellFormed := Tasks.wellFormed_empty
  bbtasks t := by
    refine ⟨fun h => absurd h List.not_mem_nil, ?_⟩
    rintro ⟨pre, e, post, h, -⟩
    exact absurd h.symm (by simp)
  existing t u := by
    refine ⟨fun h => absurd h List.not_mem_nil, ?_⟩
    rintro ⟨pre, e, post, h, -⟩
    exact absurd h.symm (by simp)

theorem Declared.add {es : List Declaration} {d d' : Tasks} {tasks before after : List Str}
    (h : Declared es d) (hd : Added tasks before after d d') :
    Declared (es ++ [.add (tasks.map ensureTaskPrefix) (before.map ensureTaskPrefix)
      (after.map ensureTaskPrefix)]) d' where
  wellFormed := hd.wellFormed h.wellFormed
  bbtasks t := by
    rw [hd.bbtasks, h.bbtasks, exists_snoc]
    simp [Adds, Deletes, or_comm]
  existing t u := by
    rw [hd.existing, h.existing, parent_snoc]
    simp [Names, Deletes, or_comm]

/-- No task outside of `__BBTASKS` waits for one that is deleted here, unless it is deleted too. -/
def NoneWaits (tasks : List Str) (d : Tasks) : Prop :=
  ∀ u ∈ tasks, ∀ t, t ∉ d.bbtasks → t ∉ tasks → u ∉ d.existing t

theorem Declared.delete {es : List Declaration} {d d' : Tasks} {tasks : List Str}
    (h : Declared es d) (hd : Deleted tasks d d') (hw : NoneWaits (tasks.map ensureTaskPrefix) d) :
    Declared (es ++ [.delete (tasks.map ensureTaskPrefix)]) d' where
  wellFormed := hd.wellFormed
  bbtasks t := by
    rw [hd.bbtasks, h.bbtasks, exists_snoc]
    simp [Adds, Deletes, and_comm]
  existing t u := by
    have hiff : u ∈ d'.existing t ↔ u ∈ d.existing t ∧ u ∉ tasks.map ensureTaskPrefix ∧
        t ∉ tasks.map ensureTaskPrefix := by
      rw [hd.existing]
      constructor
      · rintro ⟨hu, ht, himp⟩
        refine ⟨hu, fun hmem => ?_, ht⟩
        by_cases hbb : t ∈ d.bbtasks
        · exact himp hbb hmem
        · exact hw u hmem t hbb ht hu
      · rintro ⟨hu, hmem, ht⟩
        exact ⟨hu, ht, fun _ => hmem⟩
    rw [hiff, h.existing, parent_snoc]
    simp [Names, Deletes, and_comm]

/-! ### The tasks between two tasks -/

open Relation

/-- `a` is a parent of `b`, both of them existing. -/
def TaskEdge (d : Tasks) (a b : Str) : Prop :=
  a ∈ d.bbtasks ∧ b ∈ d.bbtasks ∧ a ∈ d.existing b

/-- `a` is on some path of dependencies from `s` to `e`. -/
def OnPath (d : Tasks) (s e a : Str) : Prop :=
  ReflTransGen (TaskEdge d) s a ∧ ReflTransGen (TaskEdge d) a e

/-- The tasks with `p` have been put into `outtasks`. -/
structure Collected (p : Str → Prop) (out out' : List Str) : Prop where
  mem : ∀ x, x ∈ out' ↔ x ∈ out ∨ p x
  nodup : out.Nodup → out'.Nodup

theorem Collected.congr {p q : Str → Prop} {out out' : List Str} (h : Collected p out out')
    (hpq : ∀ x, p x ↔ q x) : Collected q out out' where
  mem x := by rw [h.mem, hpq]
  nodup := h.nodup

theorem collected_none (out : List Str) : Collected (fun _ => False) out out :=
  ⟨fun x => by rw [or_false], fun h => h⟩

theorem collected_foldl_appendNew (chain out : List Str) :
    Collected (· ∈ chain) out (chain.foldl appendNew out) := by
  induction chain generalizing out with
  | nil => exact (collected_none out).congr fun x => by simp
  | cons c chain ih =>
    have h := ih (appendNew out c)
    refine ⟨fun x => ?_, fun hn => h.nodup ?_⟩
    · rw [List.foldl_cons, h.mem, appendNew, List.mem_cons]
      split
      · rename_i hmem
        constructor
        · rintro (h | h)
          · exact .inl h
          · exact .inr (.inr h)
        · rintro (h | rfl | h)
          · exact .inl h
          · exact .inl hmem
          · exact .inr h
      · rw [List.mem_append, List.mem_singleton, or_assoc]
    · rw [appendNew]
      split
      · exact hn
      · exact nodup_append_singleton hn ‹_›

theorem foldlM_collected {l : List Str} {f : List Str → Str → Except Failure (List Str)}
    {p : Str → Str → Prop}
    (h : ∀ a ∈ l, ∀ out, ∃ out', f out a = .ok out' ∧ Collected (p a) out out') (out : List Str) :
    ∃ out', l.foldlM f out = .ok out' ∧ Collected (fun x => ∃ a ∈ l, p a x) out out' := by
  induction l generalizing out with
  | nil => exact ⟨out, rfl, (collected_none out).congr fun x => by simp⟩
  | cons a l ih =>
    obtain ⟨mid, hmid, hc⟩ := h a (List.mem_cons_self ..) out
    obtain ⟨out', hout', hc'⟩ := ih (fun b hb => h b (List.mem_cons_of_mem _ hb)) mid
    refine ⟨out', ?_, fun x => ?_, fun hn => hc'.nodup (hc.nodup hn)⟩
    · rw [List.foldlM_cons, hmid]
      exact hout'
    · rw [hc'.mem, hc.mem, or_assoc]
      simp

/-- What one call of `follow_chain` adds: where `endtask` is reached, the chain and what lies
between. -/
def ChainFinds (d : Tasks) (tasks chain : List Str) (endtask task x : Str) : Prop :=
  (∃ other ∈ tasks, other ≠ endtask) ∧ ReflTransGen (TaskEdge d) task endtask ∧
    (x ∈ chain ∨ OnPath d task endtask x)

section Chain
variable {d : Tasks} {tasks : List Str} {endtask : Str}

/-- At `endtask` the chain ends, and all of it is kept. -/
theorem chainFinds_endtask (hac : Dag.Acyclic (TaskEdge d) tasks.toFinset) {chain : List Str}
    {x : Str} : ChainFinds d tasks chain endtask endtask x ↔
      ∃ other ∈ tasks, other ≠ endtask ∧ x ∈ chain ++ [endtask] := by
  rw [List.mem_append, List.mem_singleton]
  constructor
  · rintro ⟨⟨other, hother, hne⟩, -, hx⟩
    refine ⟨other, hother, hne, hx.imp id ?_⟩
    rintro ⟨hto, hback⟩
    rcases reflTransGen_iff_eq_or_transGen.1 hto with h | h
    · exact h
    · exact absurd (h.trans_left hback) (hac.irrefl _)
  · rintro ⟨other, hother, hne, hx⟩
    refine ⟨⟨other, hother, hne⟩, .refl, hx.imp id ?_⟩
    rintro rfl
    exact ⟨.refl, .refl⟩

/-- Before `endtask` the search goes on from the tasks that depend on this one. -/
theorem chainFinds_step {chain : List Str} {task x : Str} (hne : task ≠ endtask) : ChainFinds d tasks chain endtask task x ↔
      ∃ other, TaskEdge d task other ∧ ChainFinds d tasks (chain ++ [task]) endtask other x := by
  constructor
  · rintro ⟨hsome, hreach, hx⟩
    have hnext : x ∈ chain ++ [task] ∨
        ∃ other, TaskEdge d task other ∧ OnPath d other endtask x := by
      rcases hx with hx | ⟨hto, hback⟩
      · exact .inl (List.mem_append_left _ hx)
      · rcases hto.cases_head with rfl | ⟨other, hedge, hto⟩
        · exact .inl (List.mem_append_right _ (List.mem_singleton_self _))
        · exact .inr ⟨other, hedge, hto, hback⟩
    rcases hnext with hx | ⟨other, hedge, hto, hback⟩
    · rcases hreach.cases_head with h | ⟨other, hedge, hreach⟩
      · exact absurd h hne
      · exact ⟨other, hedge, hsome, hreach, .inl hx⟩
    · exact ⟨other, hedge, hsome, hto.trans hback, .inr ⟨hto, hback⟩⟩
  · rintro ⟨other, hedge, hsome, hreach, hx⟩
    refine ⟨hsome, .head hedge hreach, ?_⟩
    rcases hx with hx | ⟨hto, hback⟩
    · rcases List.mem_append.1 hx with hx | hx
      · exact .inl hx
      · rw [List.mem_singleton.1 hx]
        exact .inr ⟨.refl, .head hedge hreach⟩
    · exact .inr ⟨.head hedge hto, hback⟩

theorem followChain_spec (hac : Dag.Acyclic (TaskEdge d) tasks.toFinset)
    (htasks : ∀ t, t ∈ tasks ↔ t ∈ d.bbtasks) (hd : d.WellFormed) {fuel : ℕ} {task : Str}
    {chain : List Str} (hfuel : Dag.rank (TaskEdge d) tasks.toFinset task < fuel)
    (htask : task ∈ tasks) (hchain : ∀ c ∈ chain, TransGen (TaskEdge d) c task) (out : List Str) :
    ∃ out', followChain d tasks endtask fuel task chain out = .ok out' ∧
      Collected (ChainFinds d tasks chain endtask task) out out' := by
  induction fuel generalizing task chain out with
  | zero => omega
  | succ fuel ih =>
    have hnotin : task ∉ chain := fun h => hac.irrefl task (hchain task h)
    rw [followChain, if_neg hnotin]
    by_cases hend : task = endtask
    · subst hend
      have hbody : ∀ other ∈ tasks, ∀ out, ∃ out',
          (if other = task then pure out
            else pure ((chain ++ [task]).foldl appendNew out) : Except Failure (List Str)) = .ok out' ∧
          Collected (fun x => other ≠ task ∧ x ∈ chain ++ [task]) out out' := by
        intro other _ out
        split
        · exact ⟨out, rfl, (collected_none out).congr fun x => by simp [*]⟩
        · exact ⟨_, rfl, (collected_foldl_appendNew _ out).congr fun x => by simp [*]⟩
      simp only [if_true]
      obtain ⟨out', hout', hc⟩ := foldlM_collected hbody out
      exact ⟨out', hout', hc.congr fun x => (chainFinds_endtask hac).symm⟩
    · simp only [if_neg hend]
      refine (foldlM_collected (p := fun other x => TaskEdge d task other ∧
        ChainFinds d tasks (chain ++ [task]) endtask other x) ?_ out).imp fun out' h =>
          ⟨h.1, h.2.congr fun x => ?_⟩
      · intro other hother out
        obtain ⟨deps, hdeps⟩ := Option.isSome_iff_exists.1
          (hd.deps_isSome other ((htasks other).1 hother))
        have hexisting : d.existing other = deps := by rw [Tasks.existing, hdeps, Option.getD_some]
        have hedge : TaskEdge d task other ↔ task ∈ deps := by
          rw [TaskEdge, hexisting, ← htasks, ← htasks]
          exact ⟨fun h => h.2.2, fun h => ⟨htask, hother, h⟩⟩
        by_cases hself : other = task
        · rw [if_pos hself]
          refine ⟨out, rfl, (collected_none out).congr fun x => ⟨False.elim, ?_⟩⟩
          rintro ⟨h, -⟩
          rw [hself] at h
          exact hac.irrefl task (.single h)
        · rw [if_neg hself, hdeps]
          by_cases hmem : task ∈ deps
          · have h := hedge.2 hmem
            have hchain' : ∀ c ∈ chain ++ [task], TransGen (TaskEdge d) c other := by
              intro c hc
              rcases List.mem_append.1 hc with hc | hc
              · exact (hchain c hc).tail h
              · rw [List.mem_singleton.1 hc]
                exact .single h
            obtain ⟨out', hout', hc⟩ := @ih other (chain ++ [task])
              ((hac.rank_lt h).trans_le (Nat.lt_succ_iff.1 hfuel)) hother hchain' out
            refine ⟨out', ?_, hc.congr fun x => ?_⟩
            · simp only [if_pos hmem]
              exact hout'
            · simp [h]
          · refine ⟨out, ?_, (collected_none out).congr fun x => ⟨False.elim, ?_⟩⟩
            · simp only [if_neg hmem]
              rfl
            · rintro ⟨h, -⟩
              exact hmem (hedge.1 h)
      · rw [chainFinds_step hend]
        constructor
        · rintro ⟨other, -, h⟩
          exact ⟨other, h⟩
        · rintro ⟨other, h⟩
          exact ⟨other, (htasks other).2 h.1.2.1, h⟩

theorem tasksbetween_spec {keys : List Str} (hkeys : ∀ t, d.task t = true → t ∈ keys)
    (hd : d.WellFormed) (hac : ∀ t, ¬ TransGen (TaskEdge d) t t) {s : Str} (hs : s ∈ d.bbtasks)
    (e : Str) : ∃ out, tasksbetween d keys s e = .ok out ∧ out.Nodup ∧
      ∀ x, x ∈ out ↔ (∃ other ∈ d.bbtasks, other ≠ e) ∧ OnPath d s e x := by
  have htasks : ∀ t, t ∈ keys.filter d.task ↔ t ∈ d.bbtasks := by
    intro t
    rw [List.mem_filter, ← hd.task_iff]
    exact ⟨And.right, fun h => ⟨hkeys t h, h⟩⟩
  have hacyclic : Dag.Acyclic (TaskEdge d) (keys.filter d.task).toFinset := by
    refine ⟨fun a b h => ?_, fun a b h => ?_, hac⟩
    · exact List.mem_toFinset.2 ((htasks a).2 h.1)
    · exact List.mem_toFinset.2 ((htasks b).2 h.2.1)
  have hfuel : Dag.rank (TaskEdge d) (keys.filter d.task).toFinset s <
      (keys.filter d.task).length + 1 :=
    Nat.lt_succ_iff.2 (Dag.rank_le_card.trans (List.toFinset_card_le _))
  obtain ⟨out, hout, hc⟩ := @followChain_spec d _ e hacyclic htasks hd _ s [] hfuel
    ((htasks s).2 hs) (fun c hc => absurd hc List.not_mem_nil) []
  refine ⟨out, hout, hc.nodup List.nodup_nil, fun x => ?_⟩
  rw [hc.mem, ChainFinds]
  simp only [List.not_mem_nil, false_or, htasks]
  exact and_congr_right fun _ => ⟨And.right, fun h => ⟨h.1.trans h.2, h⟩⟩

end Chain

/-! ### Runs -/

/-- What a line has to meet, in the state that the lines before it leave. -/
inductive LineMeets (d : Tasks) (s : Str) : Prop
  | add (l : Layout) (hfunc : isFuncStart s = false)
      (htext : taskExpression "addtask".toList s = some l.text)
      (hkeyword : ∀ te ∈ words s, hasKeyword te = false) (hl : l.WellSpaced) : LineMeets d s
  | delete (task : Str) (hfunc : isFuncStart s = false)
      (htask : taskExpression "deltask".toList s = some task)
      (hplain : ¬ contains "$\x7b".toList task)
      (hwaits : NoneWaits ((words task).map ensureTaskPrefix) d) : LineMeets d s

section Runs
variable {expand : Tasks → Str → Str} {fn : Str}

theorem evalLines_ok {lines : List Str} {d : Tasks} : evalLines expand fn lines = .ok d ↔
    ∃ statements, lines.foldlM (feeder fn) [] = .ok statements ∧
      statements.foldl (Statement.eval expand) Tasks.empty = d := by
  cases hfed : lines.foldlM (feeder fn) [] with
  | error err =>
    rw [evalLines, hfed]
    constructor
    · intro h
      cases h
    · rintro ⟨statements, h, -⟩
      cases h
  | ok statements =>
    rw [evalLines, hfed]
    constructor
    · intro h
      exact ⟨statements, rfl, Except.ok.inj h⟩
    · rintro ⟨statements', h, rfl⟩
      cases h
      rfl

theorem evalLines_snoc {lines : List Str} {d : Tasks} {s : Str} {st : Statement}
    (h : evalLines expand fn lines = .ok d)
    (hst : ∀ statements, feeder fn statements s = .ok (statements ++ [st])) :
    evalLines expand fn (lines ++ [s]) = .ok (st.eval expand d) := by
  obtain ⟨statements, hfed, rfl⟩ := evalLines_ok.1 h
  refine evalLines_ok.2 ⟨statements ++ [st], ?_, ?_⟩
  · rw [List.foldlM_append, hfed]
    show List.foldlM (feeder fn) statements [s] = _
    rw [List.foldlM_cons, hst]
    rfl
  · rw [List.foldl_append]
    rfl

theorem mapM_declaration_snoc {lines : List Str} {s : Str} {es : List Declaration} {e : Declaration}
    (h : lines.mapM declaration = some es) (he : declaration s = some e) :
    (lines ++ [s]).mapM declaration = some (es ++ [e]) := by
  rw [List.mapM_append, h, List.mapM_cons, he]
  rfl

/-- One line more. -/
theorem declared_snoc {lines : List Str} {s : Str} {d : Tasks} {es : List Declaration}
    (hexpand : ∀ d s, ¬ contains "$\x7b".toList s → expand d s = s)
    (hes : lines.mapM declaration = some es) (heval : evalLines expand fn lines = .ok d)
    (h : Declared es d) (hs : LineMeets d s) :
    ∃ es d, (lines ++ [s]).mapM declaration = some es ∧
      evalLines expand fn (lines ++ [s]) = .ok d ∧ Declared es d := by
  cases hs with
  | add l hfunc htext hkeyword hl =>
    obtain ⟨tasks, before, after, hst, htasks, hbefore, hafter⟩ :=
      feeder_addtask fn hfunc htext hkeyword hl rfl
    have hdecl : declaration s = some (.add ((words tasks).map ensureTaskPrefix)
        ((words before).map ensureTaskPrefix) ((words after).map ensureTaskPrefix)) := by
      rw [declaration, htext, htasks, hbefore, hafter]
    exact ⟨_, _, mapM_declaration_snoc hes hdecl, evalLines_snoc heval hst,
      h.add (foldl_addtask _ before after d)⟩
  | delete task hfunc htask hplain hwaits =>
    have hdecl : declaration s = some (.delete ((words task).map ensureTaskPrefix)) := by
      rw [declaration, taskExpression_addtask_of_deltask htask, htask]
      rfl
    have hst := evalLines_snoc heval fun statements => feeder_deltask fn statements hfunc htask
    refine ⟨_, _, mapM_declaration_snoc hes hdecl, hst, h.delete ?_ hwaits⟩
    rw [Statement.eval, hexpand d task hplain]
    exact foldl_deltask _ h.wellFormed

theorem lines_declared (hexpand : ∀ d s, ¬ contains "$\x7b".toList s → expand d s = s)
    {lines : List Str} (h : ∀ pre s post, lines = pre ++ s :: post →
      ∀ d, evalLines expand fn pre = .ok d → LineMeets d s) :
    ∃ es d, lines.mapM declaration = some es ∧ evalLines expand fn lines = .ok d ∧
      Declared es d := by
  induction lines using List.reverseRecOn with
  | nil => exact ⟨[], Tasks.empty, rfl, rfl, declared_empty⟩
  | append_singleton lines s ih =>
    obtain ⟨es, d, hes, heval, hd⟩ := ih fun pre s' post heq =>
      h pre s' (post ++ [s]) (by rw [heq, List.append_assoc, List.cons_append])
    exact declared_snoc hexpand hes heval hd (h lines s [] rfl d heval)

end Runs

/-- `a` is a declared parent of `b`, both of them existing. -/
def DeclaredEdge (es : List Declaration) (a b : Str) : Prop := Exists es a ∧ Exists es b ∧ Parent es a b

theorem Declared.taskEdge {es : List Declaration} {d : Tasks} (h : Declared es d) :
    TaskEdge d = DeclaredEdge es := by
  funext a b
  rw [TaskEdge, DeclaredEdge, h.bbtasks, h.bbtasks, h.existing]

/-- The lines build the graph they declare, and `tasksbetween` finds in it, once each, the tasks on
the paths from `s` to `e`, when some task other than `e` exists. -/
theorem lines_build_graph {expand : Tasks → Str → Str}
    (hexpand : ∀ d s, ¬ contains "$\x7b".toList s → expand d s = s) (fn : Str) {lines : List Str}
    (h : ∀ pre s post, lines = pre ++ s :: post →
      ∀ d, evalLines expand fn pre = .ok d → LineMeets d s) :
    ∃ es d, lines.mapM declaration = some es ∧ evalLines expand fn lines = .ok d ∧
      (∀ t, t ∈ d.bbtasks ↔ Exists es t) ∧
      (∀ t u, t ∈ d.bbtasks → u ∈ d.bbtasks → (u ∈ d.existing t ↔ Parent es u t)) ∧
      ∀ keys, (∀ t, d.task t = true → t ∈ keys) → (∀ t, ¬ TransGen (DeclaredEdge es) t t) →
        ∀ s e, Exists es s → Exists es e → ∃ out, tasksbetween d keys s e = .ok out ∧ out.Nodup ∧
          ((∀ x, x ∈ out ↔ ReflTransGen (DeclaredEdge es) s x ∧ ReflTransGen (DeclaredEdge es) x e) ↔
            ∃ other, Exists es other ∧ other ≠ e) := by
  obtain ⟨es, d, hes, heval, hd⟩ := lines_declared hexpand h
  refine ⟨es, d, hes, heval, hd.bbtasks, fun t u _ _ => hd.existing t u, ?_⟩
  intro keys hkeys hac s e hs _
  rw [← hd.taskEdge] at hac ⊢
  obtain ⟨out, hout, hnodup, hmem⟩ :=
    tasksbetween_spec hkeys hd.wellFormed hac ((hd.bbtasks s).2 hs) e
  refine ⟨out, hout, hnodup, ?_⟩
  have hsome : (∃ other ∈ d.bbtasks, other ≠ e) ↔ ∃ other, Exists es other ∧ other ≠ e :=
    exists_congr fun other => by rw [hd.bbtasks]
  constructor
  · intro hall
    by_contra hnone
    have hse : s = e := by
      by_contra hne
      exact hnone ⟨s, hs, hne⟩
    have hin : s ∈ out := (hall s).2 (hse ▸ ⟨.refl, .refl⟩)
    exact hnone (hsome.1 ((hmem s).1 hin).1)
  · intro hother x
    rw [hmem]
    exact and_iff_right (hsome.2 hother)

theorem lines_build_graph_pair :
    ∃ es d, ["addtask b after a".toList, "addtask a".toList].mapM declaration = some es ∧
      evalLines (fun _ s => s) [] ["addtask b after a".toList, "addtask a".toList] = .ok d ∧
      (∀ t, t ∈ d.bbtasks ↔ Exists es t) ∧
      (∀ t u, t ∈ d.bbtasks → u ∈ d.bbtasks → (u ∈ d.existing t ↔ Parent es u t)) ∧
      ∀ keys, (∀ t, d.task t = true → t ∈ keys) → (∀ t, ¬ TransGen (DeclaredEdge es) t t) →
        ∀ s e, Exists es s → Exists es e → ∃ out, tasksbetween d keys s e = .ok out ∧ out.Nodup ∧
          ((∀ x, x ∈ out ↔ ReflTransGen (DeclaredEdge es) s x ∧ ReflTransGen (DeclaredEdge es) x e) ↔
            ∃ other, Exists es other ∧ other ≠ e) := by
  have hb (d : Tasks) : LineMeets d "addtask b after a".toList := by
    refine .add ⟨"b".toList, [(.after, "a".toList)]⟩ (by decide) (by decide) (by decide) ⟨?_, ?_, ?_⟩
    · intro k
      cases k <;> decide
    · intro c hc k
      rw [List.mem_singleton.1 hc]
      cases k <;> decide
    · intro kind
      cases kind
      · exact List.isChain_nil
      · exact List.isChain_singleton _
  have ha (d : Tasks) : LineMeets d "addtask a".toList := by
    refine .add ⟨"a".toList, []⟩ (by decide) (by decide) (by decide) ⟨?_, ?_, ?_⟩
    · intro k
      cases k <;> decide
    · intro c hc
      exact absurd hc List.not_mem_nil
    · intro kind
      exact List.isChain_nil
  refine lines_build_graph (fun _ _ _ => rfl) [] fun pre s post heq d _ => ?_
  have hmem : s ∈ ["addtask b after a".toList, "addtask a".toList] := by
    rw [heq]
    exact List.mem_append_right _ (List.mem_cons_self ..)
  rcases List.mem_cons.1 hmem with rfl | hmem
  · exact hb d
  · rw [List.mem_singleton.1 hmem]
    exact ha d

/-- `a` and `c` are joined to one name, `ac`, where the `after` clauses on both sides of a `before`
clause are put together. -/
theorem addtask_joins_names :
    ∃ es d, ["addtask a".toList, "addtask t after a before b after c".toList].mapM declaration =
        some es ∧
      evalLines (fun _ s => s) [] ["addtask a".toList, "addtask t after a before b after c".toList] =
        .ok d ∧
      "do_t".toList ∈ d.bbtasks ∧ "do_a".toList ∈ d.bbtasks ∧
      Parent es "do_a".toList "do_t".toList ∧ "do_a".toList ∉ d.existing "do_t".toList ∧
      d.existing "do_t".toList = ["do_ac".toList] := by
  refine ⟨[.add ["do_a".toList] [] [],
    .add ["do_t".toList] ["do_b".toList] ["do_a".toList, "do_c".toList]], _, by decide, rfl,
    by decide, by decide, ?_, by decide, by decide⟩
  exact ⟨[_], _, [], rfl, ⟨_, _, _, rfl, .inl ⟨by decide, by decide⟩⟩, by simp⟩

end TaskLines
end BitBake
end OpenBmc
