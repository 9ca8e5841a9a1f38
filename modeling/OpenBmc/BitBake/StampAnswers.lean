import OpenBmc.BitBake.Stamps

/-!
# The answers of `check_stamp_task`

A call answers by `Says`, whatever its cache holds, as long as the cache holds recursive answers
(`check_spec`). So calls that share a cache answer as with an empty one. The recursive answer is that
the task is current, with the stamps of the time 0 taken for missing (`stamp_checks`).
-/

namespace OpenBmc
namespace BitBake
namespace Stamps
open Py Names Relation RunTasks

variable {q : RunTasks} {fs : Files} {tid dep : Tid} {t1 : Int} {recurse : Bool}

/-! ### Times -/

theorem truth_iff {t : Option Int} : truth t = true ↔ ∃ a, t.filter (· ≠ 0) = some a := by
  cases t with
  | none => simp [truth]
  | some a => simp [truth, Option.filter_some]

theorem getD_of_filter {t : Option Int} {a : Int} (h : t.filter (· ≠ 0) = some a) : t.getD 0 = a := by
  rw [Option.filter_eq_some_iff] at h
  rw [h.1, Option.getD_some]

/-- What the code asks before it skips a dependency, with the true times. -/
theorem superseded_iff {t2 t3 : Option Int} :
    (truth t3 = true ∧ ¬ truth t2 = true ∨ truth t3 = true ∧ t2.getD 0 < t3.getD 0) ↔
      ∃ b, t3.filter (· ≠ 0) = some b ∧ ∀ a, t2.filter (· ≠ 0) = some a → a < b := by
  constructor
  · rintro (⟨h3, h2⟩ | ⟨h3, hlt⟩)
    · obtain ⟨b, hb⟩ := truth_iff.1 h3
      exact ⟨b, hb, fun a ha => absurd (truth_iff.2 ⟨a, ha⟩) h2⟩
    · obtain ⟨b, hb⟩ := truth_iff.1 h3
      refine ⟨b, hb, fun a ha => ?_⟩
      rwa [getD_of_filter ha, getD_of_filter hb] at hlt
  · rintro ⟨b, hb, hlt⟩
    by_cases h2 : truth t2 = true
    · obtain ⟨a, ha⟩ := truth_iff.1 h2
      refine .inr ⟨truth_iff.2 ⟨b, hb⟩, ?_⟩
      rw [getD_of_filter ha, getD_of_filter hb]
      exact hlt a ha
    · exact .inl ⟨truth_iff.2 ⟨b, hb⟩, h2⟩

/-! ### One dependency -/

/-- Current, with the stamps of the time 0 taken for missing. -/
abbrev Cur (q : RunTasks) (fs : Files) : Tid → Prop := q.Current fs (dropZero fs)

/-- The cache holds recursive answers. -/
def Holds (q : RunTasks) (fs : Files) (cache : Cache) : Prop :=
  ∀ tid b, cache.get? tid = some b → (b = true ↔ Cur q fs tid)

/-- A call that answers by `P` and keeps the cache right. -/
def Answers (q : RunTasks) (fs : Files) (P : Prop) (r : Option (Bool × Cache)) : Prop :=
  ∃ b cache, r = some (b, cache) ∧ Holds q fs cache ∧ (b = true ↔ P)

theorem Holds.set {cache : Cache} (h : Holds q fs cache) {b : Bool} (hb : b = true ↔ Cur q fs tid) :
    Holds q fs (cache.set tid b) := by
  intro t b' hget
  rw [Dict.get?_set] at hget
  split at hget
  case isTrue heq =>
    rw [heq, ← Option.some.inj hget]
    exact hb
  case isFalse => exact h t b' hget

/-- The dependency is not in the way. -/
def DepOk (q : RunTasks) (fs : Files) (tid : Tid) (t1 : Int) (recurse : Bool) (dep : Tid) : Prop :=
  q.Counts (dropZero fs) tid dep →
    (∃ t2, dropZero fs (q.stamp dep) = some t2 ∧ t2 ≤ t1) ∧ (recurse = true → Cur q fs dep)

theorem checkDep_spec {check : Tid → Cache → Option (Bool × Cache)} {cache : Cache}
    (hdep : dep ∈ q.depends tid) (hcache : Holds q fs cache)
    (hcheck : ∀ cache, Holds q fs cache → Answers q fs (Cur q fs dep) (check dep cache)) :
    Answers q fs (DepOk q fs tid t1 recurse dep)
      (q.checkDep fs check (split tid).2.1 t1 recurse (true, cache) dep) := by
  have hskip : ¬ q.Counts (dropZero fs) tid dep →
      Answers q fs (DepOk q fs tid t1 recurse dep) (some (true, cache)) := fun hnot =>
    ⟨true, cache, rfl, hcache, iff_of_true rfl fun hcounts => absurd hcounts hnot⟩
  show Answers q fs _ (if true = false then _ else
    if truth (fs (q.setsceneStamp dep)) ∧ ¬ truth (fs (q.stamp dep)) then _
    else if truth (fs (q.setsceneStamp dep)) ∧
      (fs (q.stamp dep)).getD 0 < (fs (q.setsceneStamp dep)).getD 0 then _
    else if (split tid).2.1 ≠ (split dep).2.1 then _
    else if ¬ truth (fs (q.stamp dep)) then _
    else if t1 < (fs (q.stamp dep)).getD 0 then _ else if recurse = false then _ else _)
  rw [if_neg (by decide)]
  by_cases hfirst : truth (fs (q.setsceneStamp dep)) ∧ ¬ truth (fs (q.stamp dep))
  · rw [if_pos hfirst]
    exact hskip fun hcounts => hcounts.superseded (superseded_iff.1 (.inl hfirst))
  rw [if_neg hfirst]
  by_cases hsecond : truth (fs (q.setsceneStamp dep)) ∧
      (fs (q.stamp dep)).getD 0 < (fs (q.setsceneStamp dep)).getD 0
  · rw [if_pos hsecond]
    exact hskip fun hcounts => hcounts.superseded (superseded_iff.1 (.inr hsecond))
  rw [if_neg hsecond]
  by_cases hrecipe : (split tid).2.1 ≠ (split dep).2.1
  · rw [if_pos hrecipe]
    exact hskip fun hcounts => hrecipe hcounts.recipe
  rw [if_neg hrecipe]
  have hcounts : q.Counts (dropZero fs) tid dep := by
    refine ⟨hdep, not_not.1 hrecipe, fun hsup => ?_⟩
    rcases superseded_iff.2 hsup with h | h
    exacts [hfirst h, hsecond h]
  by_cases hmissing : ¬ truth (fs (q.stamp dep)) = true
  · rw [if_pos hmissing]
    refine ⟨false, cache, rfl, hcache, iff_of_false (by decide) fun hok => ?_⟩
    obtain ⟨⟨t2, ht2, -⟩, -⟩ := hok hcounts
    exact hmissing (truth_iff.2 ⟨t2, ht2⟩)
  rw [if_neg hmissing]
  obtain ⟨t2, ht2⟩ := truth_iff.1 (not_not.1 hmissing)
  rw [getD_of_filter ht2]
  by_cases hnewer : t1 < t2
  · rw [if_pos hnewer]
    refine ⟨false, cache, rfl, hcache, iff_of_false (by decide) fun hok => ?_⟩
    obtain ⟨⟨t2', ht2', hle⟩, -⟩ := hok hcounts
    obtain rfl := Option.some.inj (ht2'.symm.trans ht2)
    exact absurd hnewer (not_lt.2 hle)
  rw [if_neg hnewer]
  have hok : DepOk q fs tid t1 recurse dep ↔ (recurse = true → Cur q fs dep) :=
    ⟨fun hok => (hok hcounts).2, fun hcur _ => ⟨⟨t2, ht2, not_lt.1 hnewer⟩, hcur⟩⟩
  rw [hok]
  cases recurse with
  | false => exact ⟨true, cache, rfl, hcache, iff_of_true rfl fun h => absurd h (by decide)⟩
  | true =>
    rw [if_neg (by decide)]
    have hcur : (true = true → Cur q fs dep) ↔ Cur q fs dep := ⟨fun h => h rfl, fun h _ => h⟩
    rw [hcur]
    cases hget : cache.get? dep with
    | some b => exact ⟨b, cache, by simp, hcache, hcache dep b hget⟩
    | none =>
      obtain ⟨b, cache', heq, hcache', hb⟩ := hcheck cache hcache
      exact ⟨b, cache'.set dep b, by simp [heq], hcache'.set hb, hb⟩

theorem foldlM_checkDep {check : Tid → Cache → Option (Bool × Cache)} {l : List Tid} {b : Bool}
    {cache : Cache} (hl : ∀ dep ∈ l, dep ∈ q.depends tid) (hcache : Holds q fs cache)
    (hcheck : ∀ dep ∈ l, ∀ cache, Holds q fs cache → Answers q fs (Cur q fs dep) (check dep cache)) :
    Answers q fs (b = true ∧ ∀ dep ∈ l, DepOk q fs tid t1 recurse dep)
      (l.foldlM (q.checkDep fs check (split tid).2.1 t1 recurse) (b, cache)) := by
  induction l generalizing b cache with
  | nil => exact ⟨b, cache, rfl, hcache, by simp⟩
  | cons dep l ih =>
    have hrest := fun d hd => hl d (List.mem_cons_of_mem dep hd)
    have hcheck' := fun d hd => hcheck d (List.mem_cons_of_mem dep hd)
    rw [List.foldlM_cons]
    cases b with
    | false =>
      obtain ⟨b, cache', heq, hcache', hb⟩ := ih (b := false) hrest hcache hcheck'
      refine ⟨b, cache', heq, hcache', ?_⟩
      rw [hb]
      simp
    | true =>
      obtain ⟨b, cache', heq, hcache', hb⟩ := @checkDep_spec q fs tid dep t1 recurse check cache
        (hl dep (List.mem_cons_self ..)) hcache (hcheck dep (List.mem_cons_self ..))
      obtain ⟨b', cache'', heq', hcache'', hb'⟩ := ih (b := b) hrest hcache' hcheck'
      refine ⟨b', cache'', by rw [heq]; exact heq', hcache'', ?_⟩
      rw [hb', hb, List.forall_mem_cons]
      simp

/-! ### One call -/

/-- What the code answers for a task of its own name. -/
def Says (q : RunTasks) (fs : Files) (tid : Tid) (recurse : Bool) : Prop :=
  ∃ t1, fs (q.stamp tid) = some t1 ∧ ¬ q.Nostamp tid ∧
    ("_setscene".toList <:+ (split tid).2.2.1 ∨ ∀ dep ∈ q.depends tid, DepOk q fs tid t1 recurse dep)

theorem says_recurse_iff : Says q fs tid true ↔ Cur q fs tid := by
  constructor
  · rintro ⟨t1, hstamp, hnostamp, hname | hdeps⟩
    · exact .setscene hstamp hnostamp hname
    · exact .task hstamp hnostamp (fun dep hdep => (hdeps dep hdep.depends hdep).1)
        fun dep hdep => (hdeps dep hdep.depends hdep).2 rfl
  · intro h
    cases h with
    | setscene hstamp hnostamp hname => exact ⟨_, hstamp, hnostamp, .inl hname⟩
    | task hstamp hnostamp hnewer hcurrent =>
      exact ⟨_, hstamp, hnostamp, .inr fun dep _ hdep => ⟨hnewer dep hdep, fun _ => hcurrent dep hdep⟩⟩

/-- The tasks below a task, counted. -/
noncomputable def depth (q : RunTasks) : Tid → ℕ :=
  Dag.rank (fun t u => t ∈ q.tids ∧ u ∈ q.depends t) q.tids.toFinset

theorem edges_acyclic (q : RunTasks) :
    Dag.Acyclic (fun t u => t ∈ q.tids ∧ u ∈ q.depends t) q.tids.toFinset where
  left_mem _ _ h := List.mem_toFinset.2 h.1
  right_mem t u h := List.mem_toFinset.2 (q.closed t h.1 u h.2)
  irrefl := q.acyclic

theorem depth_lt (h : tid ∈ q.tids) (hdep : dep ∈ q.depends tid) : depth q dep < depth q tid :=
  (edges_acyclic q).rank_lt ⟨h, hdep⟩

theorem depth_le (q : RunTasks) (tid : Tid) : depth q tid ≤ q.tids.length :=
  Dag.rank_le_card.trans (List.toFinset_card_le _)

/-- A call for a task answers by `Says`, whatever the cache. -/
theorem checkStampTask_spec {fuel : ℕ} {taskname : Option Str} {cache : Cache} (htid : tid ∈ q.tids)
    (hfuel : depth q tid < fuel) (hname : taskname.getD (split tid).2.2.1 = (split tid).2.2.1)
    (hcache : Holds q fs cache) :
    Answers q fs (Says q fs tid recurse) (q.checkStampTask fs fuel tid taskname recurse cache) := by
  induction fuel generalizing tid taskname recurse cache with
  | zero => omega
  | succ fuel ih =>
    rw [checkStampTask]
    dsimp only
    rw [hname]
    cases hstamp : fs (q.stampfile (split tid).2.2.1 (split tid).2.2.2) with
    | none =>
      refine ⟨false, cache, rfl, hcache, iff_of_false (by decide) ?_⟩
      rintro ⟨t1, ht1, -⟩
      exact Option.some_ne_none t1 (ht1.symm.trans hstamp)
    | some t1 =>
      have hreads : Says q fs tid recurse ↔ ¬ q.Nostamp tid ∧
          ("_setscene".toList <:+ (split tid).2.2.1 ∨
            ∀ dep ∈ q.depends tid, DepOk q fs tid t1 recurse dep) := by
        refine ⟨?_, fun h => ⟨t1, hstamp, h⟩⟩
        rintro ⟨t1', ht1', h⟩
        rwa [← Option.some.inj (ht1'.symm.trans hstamp)]
      dsimp only
      by_cases hnostamp : (split tid).2.2.1 ∈ q.nostamp (split tid).2.2.2
      · rw [if_pos hnostamp]
        exact ⟨false, cache, rfl, hcache, iff_of_false (by decide) fun h => (hreads.1 h).1 hnostamp⟩
      · rw [if_neg hnostamp]
        by_cases hvariant : "_setscene".toList <:+ (split tid).2.2.1
        · rw [if_pos hvariant]
          exact ⟨true, cache, rfl, hcache, iff_of_true rfl (hreads.2 ⟨hnostamp, .inl hvariant⟩)⟩
        · rw [if_neg hvariant]
          have hcheck : ∀ dep ∈ q.depends tid, ∀ cache, Holds q fs cache → Answers q fs (Cur q fs dep)
              (q.checkStampTask fs fuel dep none true cache) := by
            intro dep hdep cache hcache
            have hlt := depth_lt htid hdep
            have hspec := @ih dep true none cache (q.closed tid htid dep hdep) (by omega) rfl hcache
            rwa [says_recurse_iff] at hspec
          obtain ⟨b, cache', heq, hcache', hb⟩ := @foldlM_checkDep q fs tid t1 recurse
            (fun dep => q.checkStampTask fs fuel dep none true) (q.depends tid) true cache
            (fun dep hdep => hdep) hcache hcheck
          have hanswer : b = true ↔ Says q fs tid recurse := by
            rw [hb, hreads, and_iff_right rfl,
              and_iff_right (show ¬ q.Nostamp tid from hnostamp), or_iff_right hvariant]
          rw [heq]
          refine ⟨b, _, rfl, ?_, hanswer⟩
          cases recurse with
          | false => exact hcache'
          | true => exact hcache'.set (hanswer.trans says_recurse_iff)

/-- A call for a setscene variant looks at its stamp only. -/
theorem checkStampTask_setscene {fuel : ℕ} {cache : Cache} (hcache : Holds q fs cache) :
    Answers q fs ((∃ t1, fs (q.setsceneStamp tid) = some t1) ∧
        (split tid).2.2.1 ++ "_setscene".toList ∉ q.nostamp (split tid).2.2.2)
      (q.checkStampTask fs (fuel + 1) tid (some ((split tid).2.2.1 ++ "_setscene".toList)) recurse
        cache) := by
  rw [checkStampTask]
  dsimp only
  rw [Option.getD_some]
  cases hstamp : fs (q.stampfile ((split tid).2.2.1 ++ "_setscene".toList) (split tid).2.2.2) with
  | none =>
    refine ⟨false, cache, rfl, hcache, iff_of_false (by decide) ?_⟩
    rintro ⟨⟨t1, ht1⟩, -⟩
    exact Option.some_ne_none t1 (ht1.symm.trans hstamp)
  | some t1 =>
    dsimp only
    by_cases hnostamp : (split tid).2.2.1 ++ "_setscene".toList ∈ q.nostamp (split tid).2.2.2
    · rw [if_pos hnostamp]
      exact ⟨false, cache, rfl, hcache, iff_of_false (by decide) fun h => h.2 hnostamp⟩
    · rw [if_neg hnostamp, if_pos (List.suffix_append _ _)]
      exact ⟨true, cache, rfl, hcache, iff_of_true rfl ⟨⟨t1, hstamp⟩, hnostamp⟩⟩

/-! ### The calls that share a cache -/

/-- The answer to a question. -/
def QuerySays (q : RunTasks) (fs : Files) (query : Query) : Prop :=
  if query.setscene then (∃ t1, fs (q.setsceneStamp query.tid) = some t1) ∧
    (split query.tid).2.2.1 ++ "_setscene".toList ∉ q.nostamp (split query.tid).2.2.2
  else Says q fs query.tid query.recurse

theorem check_spec {query : Query} {cache : Cache} (h : query.tid ∈ q.tids) (hcache : Holds q fs cache) :
    Answers q fs (QuerySays q fs query) (q.check fs query cache) := by
  obtain ⟨tid, setscene, recurse⟩ := query
  cases setscene with
  | false => exact checkStampTask_spec h (Nat.lt_succ_of_le (depth_le q tid)) rfl hcache
  | true => exact checkStampTask_setscene hcache

theorem holds_empty : Holds q fs .empty := fun _ b h => absurd h.symm (Option.some_ne_none b)

theorem answers_spec {queries : List Query} {cache : Cache}
    (h : ∀ query ∈ queries, query.tid ∈ q.tids) (hcache : Holds q fs cache) :
    ∃ l, q.answers fs queries cache = some l ∧
      List.Forall₂ (fun query b => ∃ cache, q.check fs query .empty = some (b, cache)) queries l := by
  induction queries generalizing cache with
  | nil => exact ⟨[], rfl, .nil⟩
  | cons query queries ih =>
    have hquery := h query (List.mem_cons_self ..)
    obtain ⟨b, cache', heq, hcache', hb⟩ := check_spec hquery hcache
    obtain ⟨b', alone, heq', -, hb'⟩ := @check_spec q fs _ _ hquery holds_empty
    obtain ⟨l, hl, hall⟩ := ih (fun query' hmem => h query' (List.mem_cons_of_mem _ hmem)) hcache'
    have hsame : b' = b := Bool.eq_iff_iff.2 (hb'.trans hb.symm)
    refine ⟨b :: l, ?_, .cons ⟨alone, by rw [← hsame]; exact heq'⟩ hall⟩
    rw [RunTasks.answers, heq]
    show (q.answers fs queries cache').map (b :: ·) = _
    rw [hl]
    rfl

/-- Every answer is that of an empty cache. The recursive ones say that the task is current exactly
where it makes no difference whether the stamps of dependencies with the time 0 are there. -/
theorem stamp_checks (q : RunTasks) (fs : Files) :
    (∀ queries : List Query, (∀ query ∈ queries, query.tid ∈ q.tids) →
      ∃ l, q.answers fs queries .empty = some l ∧
        List.Forall₂ (fun query b => ∃ cache, q.check fs query .empty = some (b, cache)) queries l) ∧
    ((∀ tid ∈ q.tids, ∃ b cache, q.check fs ⟨tid, false, true⟩ .empty = some (b, cache) ∧
        (b = true ↔ q.Current fs fs tid)) ↔
      ∀ tid ∈ q.tids, (q.Current fs (dropZero fs) tid ↔ q.Current fs fs tid)) := by
  refine ⟨fun queries h => answers_spec h holds_empty, forall_congr' fun tid => forall_congr' fun htid => ?_⟩
  have hquery : (⟨tid, false, true⟩ : Query).tid ∈ q.tids := htid
  obtain ⟨b, cache, heq, -, hb⟩ := @check_spec q fs _ _ hquery holds_empty
  have hcur : b = true ↔ Cur q fs tid := hb.trans says_recurse_iff
  constructor
  · rintro ⟨b', cache', heq', hb'⟩
    rw [heq] at heq'
    obtain ⟨rfl, -⟩ := Prod.mk.inj (Option.some.inj heq')
    exact hcur.symm.trans hb'
  · intro h
    exact ⟨b, cache, heq, hcur.trans h⟩

/-- Without stamps of the time 0 there is no difference. -/
theorem dropZero_eq (h : ∀ f, fs f ≠ some 0) : dropZero fs = fs := by
  funext f
  rw [dropZero]
  cases hf : fs f with
  | none => rfl
  | some a =>
    have hne : a ≠ 0 := fun hzero => h f (hzero ▸ hf)
    rw [Option.filter_some, if_pos (decide_eq_true hne)]

/-! ### A stamp of the time 0 -/

def fetch : Tid := ⟨"a.bb:do_fetch".toList, by decide⟩
def unpack : Tid := ⟨"a.bb:do_unpack".toList, by decide⟩

def afterFetch (tid : Tid) : List Tid := if tid = unpack then [fetch] else []

theorem mem_afterFetch : dep ∈ afterFetch tid ↔ tid = unpack ∧ dep = fetch := by
  rw [afterFetch]
  split
  case isTrue h => simp [h]
  case isFalse h => exact iff_of_false List.not_mem_nil fun hand => h hand.1

theorem afterFetch_closed : ∀ t ∈ [fetch, unpack], ∀ u ∈ afterFetch t, u ∈ [fetch, unpack] := by
  intro t _ u hu
  rw [(mem_afterFetch.1 hu).2]
  exact List.mem_cons_self ..

theorem afterFetch_acyclic (t : Tid) :
    ¬ TransGen (fun t u => t ∈ [fetch, unpack] ∧ u ∈ afterFetch t) t t := by
  intro h
  obtain ⟨u, htu, hut⟩ := TransGen.head'_iff.1 h
  obtain ⟨rfl, rfl⟩ := mem_afterFetch.1 htu.2
  rcases reflTransGen_iff_eq_or_transGen.1 hut with heq | hut
  · exact absurd heq (by decide)
  · obtain ⟨v, hv, -⟩ := TransGen.head'_iff.1 hut
    exact absurd (mem_afterFetch.1 hv.2).1 (by decide)

def oneRecipe : RunTasks where
  tids := [fetch, unpack]
  depends := afterFetch
  stampfile taskname _ := taskname
  nostamp _ := []
  closed := afterFetch_closed
  acyclic := afterFetch_acyclic

def epoch : Files := fun f =>
  if f = "do_fetch".toList then some 0 else if f = "do_unpack".toList then some 5 else none

theorem counts_oneRecipe {ts : Files} (h : oneRecipe.Counts ts tid dep) : tid = unpack ∧ dep = fetch :=
  mem_afterFetch.1 h.depends

theorem not_nostamp_oneRecipe : ¬ oneRecipe.Nostamp tid := List.not_mem_nil

/-- The stamp of the dependency is there and older, but counts as missing. -/
theorem zero_counts_as_missing :
    (oneRecipe.check epoch ⟨unpack, false, true⟩ .empty).map Prod.fst = some false ∧
    oneRecipe.Current epoch epoch unpack := by
  refine ⟨by decide, ?_⟩
  have hfetch : oneRecipe.Current epoch epoch fetch := by
    have hnone : ∀ dep, ¬ oneRecipe.Counts epoch fetch dep := fun dep h =>
      absurd (counts_oneRecipe h).1 (by decide)
    have hstamp : epoch (oneRecipe.stamp fetch) = some 0 := by decide
    exact .task hstamp not_nostamp_oneRecipe (fun dep h => absurd h (hnone dep)) fun dep h =>
      absurd h (hnone dep)
  have hstamp : epoch (oneRecipe.stamp unpack) = some 5 := by decide
  refine .task hstamp not_nostamp_oneRecipe (fun dep h => ?_) fun dep h => ?_
  · rw [(counts_oneRecipe h).2]
    exact ⟨0, by decide, by decide⟩
  · rw [(counts_oneRecipe h).2]
    exact hfetch

end Stamps
end BitBake
end OpenBmc
