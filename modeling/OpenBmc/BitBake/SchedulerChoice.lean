import OpenBmc.BitBake.SchedulerOrders

/-!
# The task that a scheduler takes

`next_buildable_task` keeps the best of the candidates it has seen. With an order that lists the tasks
it finds the first one that is free: its stamp is not in use, and the tasks of its name that run do not
reach its limit. The limit is not looked at while none of them runs. The basic scheduler has no such
order, and cannot build the inverse of its `prio_map` (`next_buildable_iff`).
-/

namespace OpenBmc
namespace BitBake
namespace Scheduler
open Py Names

variable {d : RunQueueData} {k : Kind} {o : Orders} {rq : RunQueue} {s : RunQueueScheduler}

/-! ### The orders as lists of tasks -/

theorem exists_order (hk : k ≠ .basic) :
    ∃ l : List Tid, prioMap d k = l.map .tid ∧ l.Perm d.tids := by
  have hspeed := speedOrder_perm d
  cases k with
  | basic => exact absurd rfl hk
  | speed => exact ⟨speedOrder d, rfl, hspeed⟩
  | completion =>
    exact ⟨_, rfl, (completionOrder_perm (hspeed.nodup_iff.2 d.nodup)).trans hspeed⟩

theorem basic_no_order (l : List Tid) : prioMap d .basic ≠ l.map .tid := by
  intro h
  cases l with
  | nil => cases h
  | cons tid l => exact absurd (List.cons.inj h).1 (by simp)

/-- The place of a task in the `prio_map`. -/
def prio (d : RunQueueData) (k : Kind) (tid : Tid) : ℕ := (prioMap d k).idxOf (.tid tid)

theorem mem_prioMap (hk : k ≠ .basic) {tid : Tid} (h : tid ∈ d.tids) : Item.tid tid ∈ prioMap d k := by
  obtain ⟨l, hl, hperm⟩ := exists_order (d := d) hk
  rw [hl]
  exact List.mem_map_of_mem (hperm.mem_iff.2 h)

theorem prio_injective (hk : k ≠ .basic) {tid tid' : Tid} (h : tid ∈ d.tids)
    (heq : prio d k tid = prio d k tid') : tid = tid' := by
  have hitem := (List.idxOf_inj (mem_prioMap hk h)).1 heq
  exact Item.tid.inj hitem

theorem idxOf?_of_mem {l : List Item} {a : Item} (h : a ∈ l) : l.idxOf? a = some (l.idxOf a) := by
  induction l with
  | nil => exact absurd h List.not_mem_nil
  | cons b l ih =>
    rw [List.idxOf?_cons, List.idxOf_cons]
    by_cases hb : b = a
    · simp [hb]
    · have hmem : a ∈ l := (List.mem_cons.1 h).resolve_left (Ne.symm hb)
      simp [beq_eq_false_iff_ne.2 hb, ih hmem]

theorem invert_ok (hk : k ≠ .basic) (tids : List Tid) (rev : Dict Tid ℕ) (h : ∀ tid ∈ tids, tid ∈ d.tids) :
    ∃ rev', invert (prioMap d k) tids rev = (.ok (), rev') ∧
      ∀ tid, rev'.get? tid = if tid ∈ tids then some (prio d k tid) else rev.get? tid := by
  induction tids generalizing rev with
  | nil => exact ⟨rev, rfl, fun tid => (if_neg List.not_mem_nil).symm⟩
  | cons a tids ih =>
    have hindex : (prioMap d k).idxOf? (.tid a) = some (prio d k a) :=
      idxOf?_of_mem (mem_prioMap hk (h a (List.mem_cons_self ..)))
    obtain ⟨rev', heq, hget⟩ := ih (rev.set a (prio d k a)) fun tid htid => h tid (List.mem_cons_of_mem _ htid)
    refine ⟨rev', by rw [invert, hindex]; exact heq, fun tid => ?_⟩
    rw [hget, Dict.get?_set]
    by_cases ha : tid = a <;> by_cases htid : tid ∈ tids <;> simp [ha, htid]

/-! ### The tasks that run -/

/-- How many tasks of the name run. -/
def running (rq : RunQueue) (name : Str) : ℕ :=
  ((rq.runqRunning \ rq.runqComplete).filter fun tid => taskname tid = name).card

/-- `skip_maxthread` holds the flags that were read. -/
def Cached (d : RunQueueData) (skip : Dict Str (Option Int)) : Prop :=
  ∀ name limit, skip.get? name = some limit → limit = d.numberThreads name

/-- The dictionaries after the running tasks `l`. -/
structure Counted (d : RunQueueData) (l : List Tid) (s : Skips) : Prop where
  cached : Cached d s.1
  read : ∀ tid ∈ l, s.1.get? (taskname tid) = some (d.numberThreads (taskname tid))
  count : ∀ name, s.2.get? name =
    if d.numberThreads name = none ∨ l.countP (fun tid => taskname tid = name) = 0 then none
    else some (l.countP fun tid => taskname tid = name)

theorem Counted.step {l : List Tid} {s : Skips} (h : Counted d l s) (tid : Tid) :
    Counted d (tid :: l) (countRunning d s tid) := by
  have hskip : ∃ skip, (if taskname tid ∈ s.1 then s.1
      else s.1.set (taskname tid) (d.numberThreads (taskname tid))) = skip ∧ Cached d skip ∧
      skip.get? (taskname tid) = some (d.numberThreads (taskname tid)) ∧
      ∀ name limit, s.1.get? name = some limit → skip.get? name = some limit := by
    refine ⟨_, rfl, ?_⟩
    split
    case isTrue hmem =>
      obtain ⟨limit, hlimit⟩ := Dict.mem_iff_get?_isSome.1 hmem
      exact ⟨h.cached, by rw [hlimit, h.cached _ _ hlimit], fun _ _ hget => hget⟩
    case isFalse hmem =>
      refine ⟨fun name limit hget => ?_, Dict.get?_set_self .., fun name limit hget => ?_⟩
      · rw [Dict.get?_set] at hget
        split at hget
        case isTrue heq => rw [heq, ← Option.some.inj hget]
        case isFalse => exact h.cached name limit hget
      · have hne : name ≠ taskname tid := by
          rintro rfl
          exact hmem (Dict.mem_of_get? hget)
        rw [Dict.get?_set_ne _ hne, hget]
  obtain ⟨skip, heq, hcached, hself, hkeep⟩ := hskip
  have hread : ∀ t ∈ tid :: l, skip.get? (taskname t) = some (d.numberThreads (taskname t)) := by
    intro t ht
    rcases List.mem_cons.1 ht with rfl | ht
    · exact hself
    · exact hkeep _ _ (h.read t ht)
  rw [countRunning, heq]
  simp only [hself, Option.getD_some]
  split
  case h_1 hnone =>
    refine ⟨hcached, hread, fun name => ?_⟩
    rw [h.count]
    by_cases hname : taskname tid = name
    · rw [← hname, hnone]
      simp
    · rw [List.countP_cons_of_neg (by simpa using hname)]
  case h_2 limit hlimit =>
    refine ⟨hcached, hread, fun name => ?_⟩
    by_cases hname : taskname tid = name
    · rw [← hname, Dict.get?_set_self, h.count, List.countP_cons_of_pos (by simp)]
      by_cases hzero : l.countP (fun t => taskname t = taskname tid) = 0 <;> simp [hlimit, hzero]
    · rw [Dict.get?_set_ne _ (Ne.symm hname), h.count, List.countP_cons_of_neg (by simpa using hname)]

theorem counted_foldl {skip : Dict Str (Option Int)} (h : Cached d skip) (l : List Tid) :
    Counted d l.reverse (l.foldl (countRunning d) (skip, .empty)) := by
  have hfold : ∀ (l done : List Tid) (s : Skips), Counted d done s →
      Counted d (l.reverse ++ done) (l.foldl (countRunning d) s) := by
    intro l
    induction l with
    | nil => exact fun _ _ h => h
    | cons tid l ih =>
      intro done s h
      have hend := ih (tid :: done) _ (h.step tid)
      rwa [List.reverse_cons, List.append_assoc]
  have hstart : Counted d [] (skip, .empty) :=
    ⟨h, fun tid htid => absurd htid List.not_mem_nil, fun name => by simp⟩
  simpa using hfold l [] _ hstart

theorem countP_orders (o : Orders) (rq : RunQueue) (name : Str) :
    (o.list (rq.runqRunning \ rq.runqComplete)).reverse.countP (fun tid => taskname tid = name) =
      running rq name := by
  rw [List.countP_reverse, List.countP_eq_length_filter, running,
    ← List.toFinset_card_of_nodup ((o.nodup _).filter _)]
  congr 1
  ext tid
  simp [o.mem]

/-- The limit of a name that runs already is reached. -/
theorem threadsExceeded_iff (h : Cached d s.skipMaxthread) (name : Str) :
    threadsExceeded ((o.list (rq.runqRunning \ rq.runqComplete)).foldl (countRunning d)
        (s.skipMaxthread, .empty)) name = true ↔
      ∃ limit, d.numberThreads name = some limit ∧ 0 < running rq name ∧
        limit ≤ (running rq name : Int) := by
  have hcounted := counted_foldl h (o.list (rq.runqRunning \ rq.runqComplete))
  have hcount := hcounted.count name
  rw [countP_orders] at hcount
  rw [threadsExceeded, hcount]
  cases hlimit : d.numberThreads name with
  | none => simp
  | some limit =>
    by_cases hzero : running rq name = 0
    · simp [hzero]
    · have hmem : ∃ tid ∈ (o.list (rq.runqRunning \ rq.runqComplete)).reverse, taskname tid = name := by
        rw [← countP_orders o] at hzero
        simpa using List.countP_pos_iff.1 (Nat.pos_of_ne_zero hzero)
      obtain ⟨tid, htid, rfl⟩ := hmem
      rw [hcounted.read tid htid, hlimit]
      simp [hzero, Nat.pos_of_ne_zero hzero]

/-! ### The best candidate -/

/-- The loop over the candidates has seen `done`. -/
def Leads (P : Tid → Prop) (place : Tid → ℕ) (done : List Tid) : Option (Tid × ℕ) → Prop
  | none => ∀ tid ∈ done, ¬ P tid
  | some best => best.1 ∈ done ∧ best.2 = place best.1 ∧ P best.1 ∧
      ∀ tid ∈ done, P tid → best.2 ≤ place tid

/-- The loop asks the same of each candidate. -/
def Passes (d : RunQueueData) (rq : RunQueue) (skips : Skips) (tid : Tid) : Prop :=
  ¬ threadsExceeded skips (taskname tid) ∧ d.stampfile tid ∉ rq.buildStamps

theorem consider_leads {skips : Skips} {rev : Dict Tid ℕ} {place : Tid → ℕ} {done : List Tid}
    {best : Option (Tid × ℕ)} {tid : Tid} (h : Leads (Passes d rq skips) place done best)
    (hrev : rev.get? tid = some (place tid)) :
    ∃ best', consider d rq skips rev best tid = .ok best' ∧
      Leads (Passes d rq skips) place (tid :: done) best' := by
  have hskip : ¬ Passes d rq skips tid → Leads (Passes d rq skips) place (tid :: done) best := by
    intro hnot
    cases best with
    | none =>
      intro t ht
      rcases List.mem_cons.1 ht with rfl | ht
      exacts [hnot, h t ht]
    | some best =>
      obtain ⟨hmem, hplace, hpasses, hleast⟩ := h
      refine ⟨List.mem_cons_of_mem _ hmem, hplace, hpasses, fun t ht hp => ?_⟩
      rcases List.mem_cons.1 ht with rfl | ht
      exacts [absurd hp hnot, hleast t ht hp]
  rw [consider, hrev]
  dsimp only
  by_cases hbetter : (best.map Prod.snd).all (place tid < ·) = true
  · rw [if_pos hbetter]
    by_cases hthreads : threadsExceeded skips (taskname tid) = true
    · rw [if_pos hthreads]
      exact ⟨best, rfl, hskip fun hp => hp.1 hthreads⟩
    · rw [if_neg hthreads]
      by_cases hstamp : d.stampfile tid ∈ rq.buildStamps
      · rw [if_pos hstamp]
        exact ⟨best, rfl, hskip fun hp => hp.2 hstamp⟩
      · rw [if_neg hstamp]
        refine ⟨_, rfl, List.mem_cons_self .., rfl, ⟨hthreads, hstamp⟩, fun t ht hp => ?_⟩
        rcases List.mem_cons.1 ht with rfl | ht
        · exact le_rfl
        · cases best with
          | none => exact absurd hp (h t ht)
          | some best =>
            have hlt : place tid < best.2 := by simpa using hbetter
            exact hlt.le.trans (h.2.2.2 t ht hp)
  · rw [if_neg hbetter]
    refine ⟨best, rfl, ?_⟩
    cases best with
    | none => exact absurd rfl hbetter
    | some best =>
      obtain ⟨hmem, hplace, hpasses, hleast⟩ := h
      refine ⟨List.mem_cons_of_mem _ hmem, hplace, hpasses, fun t ht hp => ?_⟩
      rcases List.mem_cons.1 ht with rfl | ht
      · exact not_lt.1 fun hlt => hbetter (by simpa using hlt)
      · exact hleast t ht hp

theorem foldlM_consider {skips : Skips} {rev : Dict Tid ℕ} {place : Tid → ℕ} (tids : List Tid)
    (hrev : ∀ tid ∈ tids, rev.get? tid = some (place tid)) :
    ∃ best, tids.foldlM (consider d rq skips rev) none = .ok best ∧
      Leads (Passes d rq skips) place tids.reverse best := by
  have hfold : ∀ (tids done : List Tid) (best : Option (Tid × ℕ)),
      Leads (Passes d rq skips) place done best →
      (∀ tid ∈ tids, rev.get? tid = some (place tid)) →
      ∃ best', tids.foldlM (consider d rq skips rev) best = .ok best' ∧
        Leads (Passes d rq skips) place (tids.reverse ++ done) best' := by
    intro tids
    induction tids with
    | nil => exact fun done best h _ => ⟨best, rfl, h⟩
    | cons tid tids ih =>
      intro done best h hrev
      obtain ⟨best', heq, h'⟩ := consider_leads h (hrev tid (List.mem_cons_self ..))
      obtain ⟨best'', heq', h''⟩ := ih (tid :: done) best' h' fun t ht =>
        hrev t (List.mem_cons_of_mem _ ht)
      refine ⟨best'', ?_, by rwa [List.reverse_cons, List.append_assoc]⟩
      rw [List.foldlM_cons, heq]
      exact heq'
  have hstart : Leads (Passes d rq skips) place [] none := fun tid htid => absurd htid List.not_mem_nil
  simpa using hfold tids [] none hstart hrev

/-! ### The result -/

/-- Buildable, not running, not held off, and covered or not covered. -/
structure Candidate (rq : RunQueue) (s : RunQueueScheduler) (tid : Tid) : Prop where
  buildable : tid ∈ s.buildable
  not_running : tid ∉ rq.runqRunning
  not_holdoff : tid ∉ rq.holdoffTasks
  covered : tid ∈ rq.tasksCovered ∨ tid ∈ rq.tasksNotcovered

/-- A candidate whose stamp is not in use, while fewer tasks of its name run than `number_threads`. -/
structure Eligible (d : RunQueueData) (rq : RunQueue) (s : RunQueueScheduler) (tid : Tid) : Prop
    extends Candidate rq s tid where
  stamp : d.stampfile tid ∉ rq.buildStamps
  threads : ∀ limit, d.numberThreads (taskname tid) = some limit →
    (running rq (taskname tid) : Int) < limit

/-- What the code takes for eligible: it looks at the limit only when a task of the name runs. -/
structure Free (d : RunQueueData) (rq : RunQueue) (s : RunQueueScheduler) (tid : Tid) : Prop
    extends Candidate rq s tid where
  stamp : d.stampfile tid ∉ rq.buildStamps
  threads : ∀ limit, d.numberThreads (taskname tid) = some limit → 0 < running rq (taskname tid) →
    (running rq (taskname tid) : Int) < limit

/-- A candidate whose limit is zero or less, while no task of its name runs. -/
structure Limitless (d : RunQueueData) (rq : RunQueue) (s : RunQueueScheduler) (tid : Tid) : Prop
    extends Candidate rq s tid where
  stamp : d.stampfile tid ∉ rq.buildStamps
  limit : ∃ limit ≤ 0, d.numberThreads (taskname tid) = some limit
  idle : running rq (taskname tid) = 0

/-- The task that stands first among those with the property. -/
def First (place : Tid → ℕ) (P : Tid → Prop) : Option Tid → Prop
  | none => ∀ tid, ¬ P tid
  | some tid => P tid ∧ ∀ other, P other → place tid ≤ place other

theorem free_iff {skips : Skips} {tid : Tid} (hskips : ∀ name, threadsExceeded skips name = true ↔
      ∃ limit, d.numberThreads name = some limit ∧ 0 < running rq name ∧
        limit ≤ (running rq name : Int)) :
    Free d rq s tid ↔ Candidate rq s tid ∧ Passes d rq skips tid := by
  constructor
  · intro h
    refine ⟨h.toCandidate, fun hexceeded => ?_, h.stamp⟩
    obtain ⟨limit, hlimit, hpos, hle⟩ := (hskips _).1 hexceeded
    exact absurd (h.threads limit hlimit hpos) (not_lt.2 hle)
  · rintro ⟨hcandidate, hthreads, hstamp⟩
    refine { toCandidate := hcandidate, stamp := hstamp, threads := fun limit hlimit hpos => ?_ }
    by_contra hnot
    exact hthreads ((hskips _).2 ⟨limit, hlimit, hpos, not_lt.1 hnot⟩)

theorem free_iff_eligible_or {tid : Tid} :
    Free d rq s tid ↔ Eligible d rq s tid ∨ Limitless d rq s tid := by
  constructor
  · intro h
    by_cases hthreads : ∀ limit, d.numberThreads (taskname tid) = some limit →
        (running rq (taskname tid) : Int) < limit
    · exact .inl { toCandidate := h.toCandidate, stamp := h.stamp, threads := hthreads }
    · push Not at hthreads
      obtain ⟨limit, hlimit, hle⟩ := hthreads
      have hidle : running rq (taskname tid) = 0 := by
        by_contra hne
        exact absurd (h.threads limit hlimit (Nat.pos_of_ne_zero hne)) (not_lt.2 hle)
      rw [hidle] at hle
      exact .inr { toCandidate := h.toCandidate, stamp := h.stamp, idle := hidle,
                   limit := ⟨limit, hle, hlimit⟩ }
  · rintro (h | h)
    · exact { toCandidate := h.toCandidate, stamp := h.stamp, threads := fun limit hl _ => h.threads limit hl }
    · exact { toCandidate := h.toCandidate, stamp := h.stamp,
              threads := fun _ _ hpos => absurd h.idle hpos.ne' }

theorem Limitless.not_eligible {tid : Tid} (h : Limitless d rq s tid) : ¬ Eligible d rq s tid := by
  intro he
  obtain ⟨limit, hle, hlimit⟩ := h.limit
  have hlt := he.threads limit hlimit
  rw [h.idle] at hlt
  exact absurd hlt (not_lt.2 hle)

/-! ### The states of a scheduler -/

/-- What holds between the calls. -/
structure Ready (d : RunQueueData) (k : Kind) (s : RunQueueScheduler) : Prop where
  buildable : ∀ tid ∈ s.buildable, tid ∈ d.tids
  cached : Cached d s.skipMaxthread
  rev : k ≠ .basic → s.revPrioMap.entries = [] ∨
    ∀ tid ∈ d.tids, s.revPrioMap.get? tid = some (prio d k tid)

/-- The states that `__init__`, `newbuildable`, `removebuildable` and `next_buildable_task` lead to. -/
inductive Reach (d : RunQueueData) (k : Kind) : RunQueueScheduler → Prop
  | init (rq : RunQueue) : Reach d k (init d rq)
  | newbuildable {s : RunQueueScheduler} (h : Reach d k s) (tid : Tid) (htid : tid ∈ d.tids) :
      Reach d k { s with buildable := insert tid s.buildable }
  | removebuildable {s : RunQueueScheduler} (h : Reach d k s) (tid : Tid) :
      Reach d k { s with buildable := s.buildable.erase tid }
  | next {s : RunQueueScheduler} (h : Reach d k s) (o : Orders) (rq : RunQueue) :
      Reach d k (nextBuildableTask d k o rq s).2

theorem nextBest_ok (hk : k ≠ .basic) {skips : Skips} {l : List Tid} {rev : Dict Tid ℕ}
    (hl : ∀ tid ∈ l, tid ∈ d.tids)
    (hrev : rev.entries = [] ∨ ∀ tid ∈ d.tids, rev.get? tid = some (prio d k tid)) :
    ∃ best rev', nextBest d k rq skips l rev = (.ok (best.map Prod.fst), rev') ∧
      Leads (Passes d rq skips) (prio d k) l.reverse best ∧
      ∀ tid ∈ d.tids, rev'.get? tid = some (prio d k tid) := by
  have hbuilt : ∃ rev', (if rev.entries = [] then invert (prioMap d k) d.tids .empty else (.ok (), rev)) =
      (.ok (), rev') ∧ ∀ tid ∈ d.tids, rev'.get? tid = some (prio d k tid) := by
    split
    case isTrue =>
      obtain ⟨rev', heq, hget⟩ := invert_ok hk d.tids .empty fun tid htid => htid
      exact ⟨rev', heq, fun tid htid => by rw [hget, if_pos htid]⟩
    case isFalse hne => exact ⟨rev, rfl, hrev.resolve_left hne⟩
  obtain ⟨rev', heq, hget⟩ := hbuilt
  obtain ⟨best, hbest, hleads⟩ := @foldlM_consider d rq skips rev' (prio d k) l
    fun tid htid => hget tid (hl tid htid)
  refine ⟨best, rev', ?_, hleads, hget⟩
  rw [nextBest, heq]
  show (Except.map _ (l.foldlM (consider d rq skips rev') none), rev') = _
  rw [hbest]
  rfl

theorem Leads.first {P : Tid → Prop} {place : Tid → ℕ} {l : List Tid} {best : Option (Tid × ℕ)}
    (h : Leads P place l.reverse best) :
    First place (fun tid => tid ∈ l ∧ P tid) (best.map Prod.fst) := by
  cases best with
  | none =>
    rintro tid ⟨htid, hp⟩
    exact h tid (List.mem_reverse.2 htid) hp
  | some best =>
    obtain ⟨hmem, hplace, hp, hleast⟩ := h
    refine ⟨⟨List.mem_reverse.1 hmem, hp⟩, ?_⟩
    rintro tid ⟨htid, hp⟩
    exact hplace ▸ hleast tid (List.mem_reverse.2 htid) hp

theorem First.congr {P Q : Tid → Prop} {place : Tid → ℕ} (hPQ : ∀ tid, P tid ↔ Q tid) {r : Option Tid}
    (h : First place P r) : First place Q r := by
  have heq : P = Q := funext fun tid => propext (hPQ tid)
  rwa [← heq]

theorem mem_candidates {tid : Tid} :
    tid ∈ ((s.buildable \ rq.runqRunning) \ rq.holdoffTasks) ∩ (rq.tasksCovered ∪ rq.tasksNotcovered) ↔
      Candidate rq s tid := by
  simp only [Finset.mem_inter, Finset.mem_sdiff, Finset.mem_union]
  constructor
  · rintro ⟨⟨⟨hb, hr⟩, hh⟩, hc⟩
    exact ⟨hb, hr, hh, hc⟩
  · rintro ⟨hb, hr, hh, hc⟩
    exact ⟨⟨⟨hb, hr⟩, hh⟩, hc⟩

theorem nextBest_spec (h : Ready d k s) {skips : Skips} (hcached : Cached d skips.1) {l : List Tid}
    (hl : ∀ tid ∈ l, tid ∈ d.tids) (hfree : ∀ tid, Free d rq s tid ↔ tid ∈ l ∧ Passes d rq skips tid) :
    Ready d k ⟨s.buildable \ rq.runqRunning, skips.1, (nextBest d k rq skips l s.revPrioMap).2⟩ ∧
      (k ≠ .basic → ∃ r, (nextBest d k rq skips l s.revPrioMap).1 = .ok r ∧
        First (prio d k) (Free d rq s) r) := by
  have hbuildable : ∀ tid ∈ s.buildable \ rq.runqRunning, tid ∈ d.tids := fun tid htid =>
    h.buildable tid (Finset.mem_sdiff.1 htid).1
  refine ⟨⟨hbuildable, hcached, fun hk => ?_⟩, fun hk => ?_⟩
  · obtain ⟨best, rev', heq, -, hget⟩ := @nextBest_ok d k rq hk skips l s.revPrioMap hl (h.rev hk)
    rw [heq]
    exact .inr hget
  · obtain ⟨best, rev', heq, hleads, -⟩ := @nextBest_ok d k rq hk skips l s.revPrioMap hl (h.rev hk)
    rw [heq]
    exact ⟨_, rfl, hleads.first.congr fun tid => (hfree tid).symm⟩

/-- What a call keeps, and what it returns where there is an order. -/
theorem next_spec (h : Ready d k s) (o : Orders) (rq : RunQueue) :
    Ready d k (nextBuildableTask d k o rq s).2 ∧
      (k ≠ .basic → ∃ r, (nextBuildableTask d k o rq s).1 = .ok r ∧
        First (prio d k) (Free d rq s) r) := by
  have hbuildable : ∀ tid ∈ s.buildable \ rq.runqRunning, tid ∈ d.tids := fun tid htid =>
    h.buildable tid (Finset.mem_sdiff.1 htid).1
  have hcached := (counted_foldl h.cached (o.list (rq.runqRunning \ rq.runqComplete))).cached
  have hskips := @threadsExceeded_iff d o rq s h.cached
  have hfree : ∀ tid, Free d rq s tid ↔ tid ∈ o.list _ ∧ Passes d rq _ tid := fun tid =>
    (free_iff hskips).trans (and_congr_left' (mem_candidates.symm.trans (o.mem _ tid).symm))
  rw [nextBuildableTask]
  dsimp only
  split
  case isTrue hempty =>
    refine ⟨⟨hbuildable, h.cached, h.rev⟩, fun hk => ⟨none, rfl, fun tid hf => ?_⟩⟩
    have hmem := mem_candidates.2 hf.toCandidate
    rw [hempty] at hmem
    exact absurd hmem (Finset.notMem_empty tid)
  case isFalse hne =>
    have hlist : ∀ tid ∈ o.list (((s.buildable \ rq.runqRunning) \ rq.holdoffTasks) ∩
        (rq.tasksCovered ∪ rq.tasksNotcovered)), tid ∈ d.tids := fun tid htid =>
      h.buildable tid (mem_candidates.1 ((o.mem _ tid).1 htid)).buildable
    split
    case h_1 tid hone =>
      rw [hone] at hfree
      split
      case isTrue hthreads =>
        refine ⟨⟨hbuildable, hcached, h.rev⟩, fun hk => ⟨none, rfl, fun t hf => ?_⟩⟩
        obtain ⟨ht, hp⟩ := (hfree t).1 hf
        rw [List.mem_singleton.1 ht] at hp
        exact hp.1 hthreads
      case isFalse hthreads =>
        split
        case isTrue hstamp =>
          refine ⟨⟨hbuildable, hcached, h.rev⟩, fun hk => ⟨some tid, rfl, ?_, fun t hf => ?_⟩⟩
          · exact (hfree tid).2 ⟨List.mem_singleton_self tid, hthreads, hstamp⟩
          · rw [List.mem_singleton.1 ((hfree t).1 hf).1]
        case isFalse hstamp =>
          refine nextBest_spec h hcached (fun t ht => absurd ht List.not_mem_nil) fun t => ?_
          refine iff_of_false (fun hf => ?_) fun hf => absurd hf.1 List.not_mem_nil
          obtain ⟨ht, hp⟩ := (hfree t).1 hf
          rw [List.mem_singleton.1 ht] at hp
          exact hstamp hp.2
    case h_2 => exact nextBest_spec h hcached hlist hfree

theorem Reach.ready (h : Reach d k s) : Ready d k s := by
  induction h with
  | init rq =>
    refine ⟨fun tid htid => ?_, fun name limit hget => absurd hget.symm (Option.some_ne_none _),
      fun _ => .inl rfl⟩
    exact List.mem_toFinset.1 (Finset.mem_filter.1 htid).1
  | newbuildable _ tid htid ih =>
    refine ⟨fun t ht => ?_, ih.cached, ih.rev⟩
    rcases Finset.mem_insert.1 ht with rfl | ht
    exacts [htid, ih.buildable t ht]
  | removebuildable _ tid ih =>
    exact ⟨fun t ht => ih.buildable t (Finset.mem_of_mem_erase ht), ih.cached, ih.rev⟩
  | next _ o rq ih => exact (next_spec ih o rq).1

/-- A scheduler has an order of the tasks and takes the eligible task that stands first in it, exactly
where it is not the basic one and each task that only an unread limit holds back stands behind an
eligible one. -/
theorem next_buildable_iff (d : RunQueueData) (k : Kind) (o : Orders) (rq : RunQueue)
    (s : RunQueueScheduler) (h : Reach d k s) :
    ((∃ l : List Tid, prioMap d k = l.map .tid ∧ l.Perm d.tids) ∧
        ∃ r, (nextBuildableTask d k o rq s).1 = .ok r ∧ First (prio d k) (Eligible d rq s) r) ↔
      k ≠ .basic ∧ ∀ tid, Limitless d rq s tid →
        ∃ other, Eligible d rq s other ∧ prio d k other < prio d k tid := by
  constructor
  · rintro ⟨⟨l, hl, -⟩, r, hr, hfirst⟩
    have hk : k ≠ .basic := by
      rintro rfl
      exact basic_no_order l hl
    refine ⟨hk, fun tid htid => ?_⟩
    obtain ⟨r', hr', hfree⟩ := (next_spec h.ready o rq).2 hk
    rw [hr] at hr'
    obtain rfl := Except.ok.inj hr'
    have htidFree : Free d rq s tid := free_iff_eligible_or.2 (.inr htid)
    cases r with
    | none => exact absurd htidFree (hfree tid)
    | some best =>
      refine ⟨best, hfirst.1, lt_of_le_of_ne (hfree.2 tid htidFree) fun heq => ?_⟩
      have hbest : best = tid := prio_injective hk (h.ready.buildable best hfirst.1.buildable) heq
      exact htid.not_eligible (hbest ▸ hfirst.1)
  · rintro ⟨hk, hlimitless⟩
    obtain ⟨r, hr, hfree⟩ := (next_spec h.ready o rq).2 hk
    refine ⟨exists_order hk, r, hr, ?_⟩
    cases r with
    | none => exact fun tid he => hfree tid (free_iff_eligible_or.2 (.inl he))
    | some best =>
      have hleast : ∀ other, Eligible d rq s other → prio d k best ≤ prio d k other :=
        fun other he => hfree.2 other (free_iff_eligible_or.2 (.inl he))
      rcases free_iff_eligible_or.1 hfree.1 with he | hlim
      · exact ⟨he, hleast⟩
      · obtain ⟨other, he, hlt⟩ := hlimitless best hlim
        exact absurd (hleast other he) (not_le.2 hlt)

/-! ### Two tasks -/

theorem colon_mem_doA : ':' ∈ "p.bb:do_a".toList := by decide

theorem colon_mem_doB : ':' ∈ "p.bb:do_b".toList := by decide

def doA : Tid := ⟨"p.bb:do_a".toList, colon_mem_doA⟩
def doB : Tid := ⟨"p.bb:do_b".toList, colon_mem_doB⟩

theorem nodup_twoTasks : [doA, doB].Nodup := by decide

def twoTasks : RunQueueData := ⟨[doA, doB], nodup_twoTasks, fun _ => 1, fun tid => tid.1, fun _ => none⟩

def bothBuildable : RunQueue := ⟨{doA, doB}, ∅, ∅, ∅, {doA, doB}, ∅, []⟩

def bySorting : Orders := ⟨sorted, nodup_sorted, fun _ _ => mem_sorted⟩

theorem next_buildable_iff_two :
    ((∃ l : List Tid, prioMap twoTasks .speed = l.map .tid ∧ l.Perm twoTasks.tids) ∧
        ∃ r, (nextBuildableTask twoTasks .speed bySorting bothBuildable
            (init twoTasks bothBuildable)).1 = .ok r ∧
          First (prio twoTasks .speed)
            (Eligible twoTasks bothBuildable (init twoTasks bothBuildable)) r) ↔
      Kind.speed ≠ .basic ∧ ∀ tid, Limitless twoTasks bothBuildable (init twoTasks bothBuildable) tid →
        ∃ other, Eligible twoTasks bothBuildable (init twoTasks bothBuildable) other ∧
          prio twoTasks .speed other < prio twoTasks .speed tid :=
  next_buildable_iff twoTasks .speed bySorting bothBuildable _ (.init bothBuildable)

/-- The basic scheduler fails where two tasks can run. -/
theorem basic_raises : (nextBuildableTask twoTasks .basic bySorting bothBuildable
    (init twoTasks bothBuildable)).1 = .error .valueError := by
  decide

end Scheduler
end BitBake
end OpenBmc
