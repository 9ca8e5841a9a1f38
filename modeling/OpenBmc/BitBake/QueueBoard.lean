import OpenBmc.BitBake.RunQueue
import Mathlib.Logic.Relation

/-!
# The rules of the run queue

What a run of the queue is about, without its bookkeeping: the verdicts over the setscene tasks, the
real tasks that were started and that are complete, and the workers. A `Move` is one entry of that, under
the guard that the code checks for it.

A migration that halts the build leaves `holdoff` as it was, though it took verdicts back. The step goes on
and may start one more task; the phase is `halting` until it does.
-/

namespace OpenBmc
namespace BitBake

inductive Phase
  | going
  | halting
  | halted
  deriving DecidableEq

/-- The phase once a task was started. -/
def Phase.spend : Phase → Phase
  | .going => .going
  | .halting => .halted
  | .halted => .halted

structure Board (α : Type*) where
  phase : Phase
  covered : Finset α
  notcovered : Finset α
  /-- The setscene tasks that were decided on or started. -/
  sqRunning : Finset α
  live : Finset α
  deferred : Finset α
  holdoff : Finset α
  /-- `holdoff` has to be computed again. -/
  stale : Bool
  buildable : Finset α
  running : Finset α
  complete : Finset α
  workers : List (Job α)
  active : Int
  slips : List (Slip α)
  log : List (Note α)

/-- What a board is played by. -/
structure Rules (α : Type*) where
  depends : α → Finset α
  setscene : Finset α
  /-- The real tasks that a setscene task spares. -/
  covers : α → Finset α
  slots : Nat

namespace Note
variable {α : Type*}

/-- The real task that a note tells the start of. -/
def starts : Note α → Option α
  | .sent ⟨t, false⟩ => some t
  | .noexec t => some t
  | .skipped t => some t
  | _ => none

/-- The task is counted out of `stats.active`, and never was counted in. -/
def miscounted : Note α → Bool
  | .ignored _ => true
  | .spawnFailed _ => true
  | _ => false

end Note

/-- The ways to start a real task. -/
inductive Start
  | sent
  | noexec
  | skipped
  deriving DecidableEq

/-- What a start adds to the log. -/
def Start.notes {α : Type*} (t : α) : Start → List (Note α)
  | .sent => [.sent ⟨t, false⟩]
  | .noexec => [.complete t, .noexec t]
  | .skipped => [.complete t, .skipped t]

namespace Rules
variable {α : Type*} [DecidableEq α] (r : Rules α)

def undecided (b : Board α) : Finset α := r.setscene \ (b.covered ∪ b.notcovered)

/-- The setscene tasks without a verdict, and what they could still spare. -/
def holdoff (b : Board α) : Finset α :=
  r.undecided b ∪ (r.undecided b).biUnion fun t => r.covers t \ b.complete

inductive Move : Board α → Board α → Prop
  | halt (b : Board α) (h : b.phase = .going) : Move b { b with phase := .halting }
  | raise (b : Board α) : Move b { b with stale := true }
  | slip (b : Board α) (x : Slip α) : Move b { b with slips := x :: b.slips }
  | defer (b : Board α) (ts : Finset α) (h : ∀ t ∈ ts, t ∉ b.live) : Move b { b with deferred := ts }
  | cover (b : Board α) (t : α) (hlive : t ∉ b.live)
      (hslip : t ∈ b.notcovered → .notcovered t ∈ b.slips) :
      Move b { b with covered := insert t b.covered, sqRunning := insert t b.sqRunning }
  | fail (b : Board α) (t : α) (hlive : t ∈ b.live → .live t ∈ b.slips)
      (hslip : t ∈ b.covered → .covered t ∈ b.slips) :
      Move b { b with notcovered := insert t b.notcovered, sqRunning := insert t b.sqRunning }
  /-- A migration takes the verdict back. -/
  | reopen (b : Board α) (t : α) (hphase : b.stale = true ∨ b.phase = .halting)
      (hrunning : t ∉ b.running) (hlive : t ∉ b.live)
      (hcovers : ∀ u ∈ r.covers t, u ∈ b.running → u ∈ b.complete) :
      Move b { b with
        covered := b.covered.erase t
        notcovered := b.notcovered.erase t
        sqRunning := b.sqRunning.erase t }
  | hold (b : Board α) : Move b { b with holdoff := r.holdoff b, stale := false }
  | enable (b : Board α) (ts : Finset α) (h : ∀ t ∈ ts, r.depends t ⊆ b.complete) :
      Move b { b with buildable := b.buildable ∪ ts }
  | setscene (b : Board α) (t : α) (ht : t ∈ r.setscene) (hrunning : t ∉ b.sqRunning)
      (hdeferred : t ∉ b.deferred) (hslots : b.active + (b.live.card : Int) < r.slots)
      (hphase : b.phase ≠ .halted) :
      Move b { b with
        phase := b.phase.spend
        sqRunning := insert t b.sqRunning
        live := insert t b.live
        workers := ⟨t, true⟩ :: b.workers
        log := .sent ⟨t, true⟩ :: b.log }
  | verdict (b : Board α) (job : Job α) (status : Int) (hjob : job ∈ b.workers)
      (hlive : job.task ∈ b.live) :
      Move b { b with
        covered := if status = 0 then insert job.task b.covered else b.covered
        notcovered := if status = 0 then b.notcovered else insert job.task b.notcovered
        live := b.live.erase job.task
        workers := b.workers.erase job
        log := .exited job status :: b.log }
  | complete (b : Board α) (job : Job α) (hjob : job ∈ b.workers) (hlive : job.task ∉ b.live) :
      Move b { b with
        complete := insert job.task b.complete
        workers := b.workers.erase job
        active := b.active - 1
        log := .complete job.task :: .exited job 0 :: b.log }
  | failed (b : Board α) (job : Job α) (status : Int) (hjob : job ∈ b.workers)
      (hlive : job.task ∉ b.live) (hstatus : status ≠ 0) :
      Move b { b with
        workers := b.workers.erase job
        active := b.active - 1
        log := .exited job status :: b.log }
  | start (b : Board α) (t : α) (how : Start) (hbuildable : t ∈ b.buildable) (hrunning : t ∉ b.running)
      (hholdoff : t ∉ b.holdoff) (hstale : b.stale = false)
      (hslots : b.active + (b.live.card : Int) < r.slots) (hphase : b.phase ≠ .halted) :
      Move b { b with
        phase := b.phase.spend
        running := insert t b.running
        complete := if how = .sent then b.complete else insert t b.complete
        workers := if how = .sent then ⟨t, false⟩ :: b.workers else b.workers
        active := if how = .sent then b.active + 1 else b.active
        log := how.notes t ++ b.log }
  | miscount (b : Board α) (n : Note α) (hn : n.miscounted = true) :
      Move b { b with active := b.active - 1, log := n :: b.log }

def Moves : Board α → Board α → Prop := Relation.ReflTransGen r.Move

variable {r} {b b' : Board α}

theorem Move.slips_subset (h : r.Move b b') {x : Slip α} (hx : x ∈ b.slips) : x ∈ b'.slips := by
  cases h with
  | slip x' => exact List.mem_cons_of_mem x' hx
  | _ => exact hx

/-! ### What always holds -/

/-- A setscene task that is live or has a verdict is not started again, nor does a live one wait. -/
structure Based (r : Rules α) (b : Board α) : Prop where
  covered : b.covered ⊆ b.sqRunning
  notcovered : b.notcovered ⊆ b.sqRunning
  live : b.live ⊆ b.sqRunning
  setscene : b.live ⊆ r.setscene
  deferred : ∀ t ∈ b.live, t ∉ b.deferred

theorem Based.move (hb : Based r b) (h : r.Move b b') : Based r b' := by
  cases h with
  | defer ts hts => exact { hb with deferred := fun t ht hd => hts t hd ht }
  | cover t =>
    exact { hb with
      covered := Finset.insert_subset_insert t hb.covered
      notcovered := hb.notcovered.trans (Finset.subset_insert t _)
      live := hb.live.trans (Finset.subset_insert t _) }
  | fail t =>
    exact { hb with
      covered := hb.covered.trans (Finset.subset_insert t _)
      notcovered := Finset.insert_subset_insert t hb.notcovered
      live := hb.live.trans (Finset.subset_insert t _) }
  | reopen t _ _ hlive =>
    exact { hb with
      covered := Finset.erase_subset_erase t hb.covered
      notcovered := Finset.erase_subset_erase t hb.notcovered
      live := fun u hu => Finset.mem_erase.2 ⟨fun h => hlive (h ▸ hu), hb.live hu⟩ }
  | setscene t ht _ hdeferred =>
    exact {
      covered := hb.covered.trans (Finset.subset_insert t _)
      notcovered := hb.notcovered.trans (Finset.subset_insert t _)
      live := Finset.insert_subset_insert t hb.live
      setscene := Finset.insert_subset ht hb.setscene
      deferred := fun u hu => (Finset.mem_insert.1 hu).elim (fun h => h ▸ hdeferred) (hb.deferred u) }
  | verdict job status hjob hlive =>
    have hrunning := hb.live hlive
    refine ⟨?_, ?_, (Finset.erase_subset _ _).trans hb.live, (Finset.erase_subset _ _).trans hb.setscene,
      fun t ht => hb.deferred t (Finset.mem_of_mem_erase ht)⟩
    · show (if status = 0 then insert job.task b.covered else b.covered) ⊆ b.sqRunning
      split
      · exact Finset.insert_subset hrunning hb.covered
      · exact hb.covered
    · show (if status = 0 then b.notcovered else insert job.task b.notcovered) ⊆ b.sqRunning
      split
      · exact hb.notcovered
      · exact Finset.insert_subset hrunning hb.notcovered
  | _ => exact { hb with }

theorem Based.moves (hb : Based r b) (h : r.Moves b b') : Based r b' := by
  induction h with
  | refl => exact hb
  | tail _ hmove ih => exact ih.move hmove

/-- The tasks run in the order of their dependencies, and each of them once. -/
structure Ordered (r : Rules α) (b : Board α) : Prop where
  buildable : ∀ t ∈ b.buildable, r.depends t ⊆ b.complete
  complete : ∀ t, t ∈ b.complete ↔ .complete t ∈ b.log
  running : ∀ t, t ∈ b.running ↔ t ∈ b.log.filterMap Note.starts
  once : (b.log.filterMap Note.starts).Nodup
  earlier : ∀ n log, n :: log <:+ b.log → ∀ t ∈ n.starts, ∀ dep ∈ r.depends t, .complete dep ∈ log

omit [DecidableEq α] in
/-- A note that starts nothing and completes nothing. -/
theorem Ordered.note {n : Note α} (hb : Ordered r b) (hstarts : n.starts = none)
    (hcomplete : ∀ t, n ≠ .complete t) : Ordered r { b with log := n :: b.log } where
  buildable := hb.buildable
  complete t := by
    rw [hb.complete, List.mem_cons]
    exact (or_iff_right (hcomplete t).symm).symm
  running t := by rw [hb.running, List.filterMap_cons_none hstarts]
  once := by
    rw [List.filterMap_cons_none hstarts]
    exact hb.once
  earlier m log h t ht := by
    rcases List.suffix_cons_iff.1 h with h | h
    · obtain ⟨rfl, rfl⟩ := List.cons.inj h
      rw [hstarts] at ht
      cases ht
    · exact hb.earlier m log h t ht

theorem Ordered.completed (hb : Ordered r b) (t : α) :
    Ordered r { b with complete := insert t b.complete, log := .complete t :: b.log } where
  buildable u hu := (hb.buildable u hu).trans (Finset.subset_insert t _)
  complete u := by
    rw [Finset.mem_insert, hb.complete, List.mem_cons, Note.complete.injEq]
  running := hb.running
  once := hb.once
  earlier m log h u hu := by
    rcases List.suffix_cons_iff.1 h with h | h
    · obtain ⟨rfl, rfl⟩ := List.cons.inj h
      cases hu
    · exact hb.earlier m log h u hu

/-- The note that starts a task. -/
theorem Ordered.started {n : Note α} {t : α} (hb : Ordered r b) (hstarts : n.starts = some t)
    (hcomplete : ∀ t, n ≠ .complete t) (ht : t ∈ b.buildable) (hrunning : t ∉ b.running) :
    Ordered r { b with running := insert t b.running, log := n :: b.log } where
  buildable := hb.buildable
  complete u := by
    rw [hb.complete, List.mem_cons]
    exact (or_iff_right (hcomplete u).symm).symm
  running u := by
    rw [List.filterMap_cons_some hstarts, List.mem_cons, Finset.mem_insert, hb.running]
  once := by
    rw [List.filterMap_cons_some hstarts]
    exact hb.once.cons fun h => hrunning ((hb.running t).2 h)
  earlier m log h u hu dep hdep := by
    rcases List.suffix_cons_iff.1 h with h | h
    · obtain ⟨rfl, rfl⟩ := List.cons.inj h
      rw [hstarts] at hu
      obtain rfl := Option.mem_some_iff.1 hu
      exact (hb.complete dep).1 (hb.buildable t ht hdep)
    · exact hb.earlier m log h u hu dep hdep

theorem Ordered.move (hb : Ordered r b) (h : r.Move b b') : Ordered r b' := by
  cases h with
  | enable ts hts =>
    exact { hb with buildable := fun t ht => (Finset.mem_union.1 ht).elim (hb.buildable t) (hts t) }
  | setscene t => exact { hb.note (n := .sent ⟨t, true⟩) rfl (by simp) with }
  | verdict job status => exact { hb.note (n := .exited job status) rfl (by simp) with }
  | complete job => exact { (hb.note (n := .exited job 0) rfl (by simp)).completed job.task with }
  | failed job status => exact { hb.note (n := .exited job status) rfl (by simp) with }
  | miscount n hn =>
    have hnote : n.starts = none ∧ ∀ t, n ≠ .complete t := by
      cases n <;> first | exact Bool.noConfusion hn | exact ⟨rfl, by simp⟩
    exact { hb.note hnote.1 hnote.2 with }
  | start t how hbuildable hrunning =>
    have hstarted {n : Note α} (hstarts : n.starts = some t) (hcomplete : ∀ t, n ≠ .complete t) :=
      hb.started hstarts hcomplete hbuildable hrunning
    cases how with
    | sent => exact { hstarted (n := .sent ⟨t, false⟩) rfl (by simp) with }
    | noexec => exact { (hstarted (n := .noexec t) rfl (by simp)).completed t with }
    | skipped => exact { (hstarted (n := .skipped t) rfl (by simp)).completed t with }
  | _ => exact { hb with }

theorem Ordered.moves (hb : Ordered r b) (h : r.Moves b b') : Ordered r b' := by
  induction h with
  | refl => exact hb
  | tail _ hmove ih => exact ih.move hmove

/-! ### What holds while no live task is failed -/

/-- Neither the task of `s` nor what it could spare is being run. -/
def Clear (r : Rules α) (b : Board α) (s : α) : Prop :=
  s ∉ b.running ∧ ∀ t ∈ r.covers s, t ∈ b.running → t ∈ b.complete

/-- Neither the task of `s` nor what it could spare can be started. -/
def Held (r : Rules α) (b : Board α) (s : α) : Prop :=
  s ∈ b.holdoff ∧ ∀ t ∈ r.covers s, t ∈ b.holdoff ∨ t ∈ b.complete

/-- The live tasks and the workers agree, and a setscene task that is live or undecided is apart from the
real tasks that run. -/
structure Apart (r : Rules α) (b : Board α) : Prop where
  live_undecided : b.live ⊆ r.undecided b
  live_iff : ∀ t, t ∈ b.live ↔ ⟨t, true⟩ ∈ b.workers
  real : ∀ t, ⟨t, false⟩ ∈ b.workers → t ∈ b.running ∧ t ∉ b.complete
  nodup : b.workers.Nodup
  complete : b.complete ⊆ b.running
  clear : ∀ s ∈ b.live, r.Clear b s
  undecided_clear : b.phase ≠ .halted → ∀ s ∈ r.undecided b, r.Clear b s
  held : b.phase ≠ .halted → b.stale = false → ∀ s ∈ b.live, r.Held b s
  undecided_held : b.phase = .going → b.stale = false → ∀ s ∈ r.undecided b, r.Held b s
  failed : ∀ t status, .exited ⟨t, false⟩ status ∈ b.log → status ≠ 0 →
    t ∈ b.running ∧ t ∉ b.complete ∧ ⟨t, false⟩ ∉ b.workers

theorem mem_undecided {s : α} :
    s ∈ r.undecided b ↔ s ∈ r.setscene ∧ s ∉ b.covered ∧ s ∉ b.notcovered := by
  rw [undecided, Finset.mem_sdiff, Finset.mem_union, not_or]

/-- A verdict over a task that is not live. -/
theorem Apart.decided {covered notcovered sqRunning : Finset α} {t : α} (h : Apart r b)
    (hlive : t ∉ b.live) (hcovered : b.covered ⊆ covered) (hnotcovered : b.notcovered ⊆ notcovered)
    (hnew : ∀ s, s ∈ covered ∨ s ∈ notcovered → s = t ∨ s ∈ b.covered ∨ s ∈ b.notcovered) :
    Apart r { b with covered, notcovered, sqRunning } := by
  have hsub : r.undecided { b with covered, notcovered, sqRunning } ⊆ r.undecided b := fun s hs =>
    Finset.sdiff_subset_sdiff subset_rfl (Finset.union_subset_union hcovered hnotcovered) hs
  refine { h with
    live_undecided := fun s hs => ?_
    undecided_clear := fun hphase s hs => h.undecided_clear hphase s (hsub hs)
    undecided_held := fun hphase hstale s hs => h.undecided_held hphase hstale s (hsub hs) }
  obtain ⟨hset, hc, hn⟩ := mem_undecided.1 (h.live_undecided hs)
  have hnone : ¬ (s ∈ covered ∨ s ∈ notcovered) := fun hs' => by
    rcases hnew s hs' with rfl | hc' | hn'
    · exact hlive hs
    · exact hc hc'
    · exact hn hn'
  exact mem_undecided.2 ⟨hset, fun hc => hnone (.inl hc), fun hn => hnone (.inr hn)⟩

theorem Apart.reopened {t : α} (h : Apart r b) (hphase : b.stale = true ∨ b.phase = .halting)
    (hrunning : t ∉ b.running) (hcovers : ∀ u ∈ r.covers t, u ∈ b.running → u ∈ b.complete) :
    Apart r { b with
      covered := b.covered.erase t
      notcovered := b.notcovered.erase t
      sqRunning := b.sqRunning.erase t } := by
  refine { h with
    live_undecided := fun s hs => ?_
    undecided_clear := fun hp s hs => ?_
    undecided_held := fun hp hstale => ?_ }
  · obtain ⟨hset, hc, hn⟩ := mem_undecided.1 (h.live_undecided hs)
    exact mem_undecided.2 ⟨hset, fun h => hc (Finset.mem_of_mem_erase h),
      fun h => hn (Finset.mem_of_mem_erase h)⟩
  · obtain rfl | hne := eq_or_ne s t
    · exact ⟨hrunning, hcovers⟩
    · obtain ⟨hset, hc, hn⟩ := mem_undecided.1 hs
      exact h.undecided_clear hp s (mem_undecided.2 ⟨hset,
        fun h => hc (Finset.mem_erase_of_ne_of_mem hne h),
        fun h => hn (Finset.mem_erase_of_ne_of_mem hne h)⟩)
  · rcases hphase with hs | hs
    · exact Bool.noConfusion (hs.symm.trans hstale)
    · exact Phase.noConfusion (hs.symm.trans hp)

theorem Apart.hold (h : Apart r b) : Apart r { b with holdoff := r.holdoff b, stale := false } := by
  have hheld : ∀ s ∈ r.undecided b, r.Held { b with holdoff := r.holdoff b, stale := false } s := by
    refine fun s hs => ⟨Finset.mem_union_left _ hs, fun t ht => ?_⟩
    by_cases hcomplete : t ∈ b.complete
    · exact .inr hcomplete
    · exact .inl (Finset.mem_union_right _
        (Finset.mem_biUnion.2 ⟨s, hs, Finset.mem_sdiff.2 ⟨ht, hcomplete⟩⟩))
  exact { h with
    held := fun _ _ s hs => hheld s (h.live_undecided hs)
    undecided_held := fun _ _ => hheld }

/-- A job whose task is live is that of the setscene task. -/
theorem Apart.setscene_job {t : α} {setscene : Bool} (h : Apart r b) (hjob : ⟨t, setscene⟩ ∈ b.workers)
    (hlive : t ∈ b.live) : setscene = true := by
  cases setscene with
  | true => rfl
  | false => exact absurd (h.real t hjob).1 (h.clear t hlive).1

theorem Apart.real_job {t : α} {setscene : Bool} (h : Apart r b) (hjob : ⟨t, setscene⟩ ∈ b.workers)
    (hlive : t ∉ b.live) : setscene = false := by
  cases setscene with
  | false => rfl
  | true => exact absurd ((h.live_iff t).2 hjob) hlive

theorem Apart.launched {t : α} (hb : Based r b) (h : Apart r b) (ht : t ∈ r.setscene)
    (hrunning : t ∉ b.sqRunning) (hphase : b.phase ≠ .halted) :
    Apart r { b with
      phase := b.phase.spend
      sqRunning := insert t b.sqRunning
      live := insert t b.live
      workers := ⟨t, true⟩ :: b.workers
      log := .sent ⟨t, true⟩ :: b.log } := by
  have hundecided : t ∈ r.undecided b :=
    mem_undecided.2 ⟨ht, fun h => hrunning (hb.covered h), fun h => hrunning (hb.notcovered h)⟩
  have hlive : t ∉ b.live := fun h => hrunning (hb.live h)
  refine {
    live_undecided := Finset.insert_subset hundecided h.live_undecided
    live_iff := fun u => ?_
    real := fun u hu => h.real u ((List.mem_cons.1 hu).resolve_left (by simp))
    nodup := h.nodup.cons fun hmem => hlive ((h.live_iff t).2 hmem)
    complete := h.complete
    clear := fun s hs => ?_
    undecided_clear := fun _ => h.undecided_clear hphase
    held := fun hp hstale s hs => ?_
    undecided_held := fun hp => ?_
    failed := fun u status hu hstatus => ?_ }
  · simp only [Finset.mem_insert, List.mem_cons, h.live_iff, Job.mk.injEq, and_true]
  · rcases Finset.mem_insert.1 hs with rfl | hs
    · exact h.undecided_clear hphase s hundecided
    · exact h.clear s hs
  · rcases Finset.mem_insert.1 hs with rfl | hs
    · cases hgoing : b.phase with
      | going => exact h.undecided_held hgoing hstale s hundecided
      | halting => exact absurd (congrArg Phase.spend hgoing) hp
      | halted => exact absurd hgoing hphase
    · exact h.held hphase hstale s hs
  · cases hgoing : b.phase with
    | going => exact h.undecided_held hgoing
    | halting => exact Phase.noConfusion ((congrArg Phase.spend hgoing).symm.trans hp)
    | halted => exact absurd hgoing hphase
  · have hold := h.failed u status ((List.mem_cons.1 hu).resolve_left (by simp)) hstatus
    exact ⟨hold.1, hold.2.1, fun hmem => hold.2.2 ((List.mem_cons.1 hmem).resolve_left (by simp))⟩

theorem Apart.judged {t : α} {status : Int} {covered notcovered : Finset α} (h : Apart r b)
    (hcovered : b.covered ⊆ covered) (hnotcovered : b.notcovered ⊆ notcovered)
    (hnew : ∀ s, s ∈ covered ∨ s ∈ notcovered → s = t ∨ s ∈ b.covered ∨ s ∈ b.notcovered) :
    Apart r { b with
      covered, notcovered
      live := b.live.erase t
      workers := b.workers.erase ⟨t, true⟩
      log := .exited ⟨t, true⟩ status :: b.log } := by
  have hgone : Apart r { b with
      live := b.live.erase t
      workers := b.workers.erase ⟨t, true⟩
      log := .exited ⟨t, true⟩ status :: b.log } := {
    live_undecided := (Finset.erase_subset t _).trans h.live_undecided
    live_iff := fun u => by
      simp only [Finset.mem_erase, h.live_iff, h.nodup.mem_erase_iff, ne_eq, Job.mk.injEq, and_true]
    real := fun u hu => h.real u (List.mem_of_mem_erase hu)
    nodup := h.nodup.erase _
    complete := h.complete
    clear := fun s hs => h.clear s (Finset.mem_of_mem_erase hs)
    undecided_clear := h.undecided_clear
    held := fun hp hstale s hs => h.held hp hstale s (Finset.mem_of_mem_erase hs)
    undecided_held := h.undecided_held
    failed := fun u st hu hst => by
      have hold := h.failed u st ((List.mem_cons.1 hu).resolve_left (by simp)) hst
      exact ⟨hold.1, hold.2.1, fun hmem => hold.2.2 (List.mem_of_mem_erase hmem)⟩ }
  exact hgone.decided (Finset.notMem_erase t _) hcovered hnotcovered hnew

theorem Apart.completed {t : α} {active : Int} (h : Apart r b) (hjob : ⟨t, false⟩ ∈ b.workers) :
    Apart r { b with
      complete := insert t b.complete
      workers := b.workers.erase ⟨t, false⟩
      active
      log := .complete t :: .exited ⟨t, false⟩ 0 :: b.log } := by
  have hclear {s : α} (hs : r.Clear b s) :
      s ∉ b.running ∧ ∀ u ∈ r.covers s, u ∈ b.running → u ∈ insert t b.complete :=
    ⟨hs.1, fun u hu hrun => Finset.mem_insert_of_mem (hs.2 u hu hrun)⟩
  have hheld {s : α} (hs : r.Held b s) :
      s ∈ b.holdoff ∧ ∀ u ∈ r.covers s, u ∈ b.holdoff ∨ u ∈ insert t b.complete :=
    ⟨hs.1, fun u hu => (hs.2 u hu).imp_right Finset.mem_insert_of_mem⟩
  exact {
    live_undecided := h.live_undecided
    live_iff := fun u => by
      simp only [h.live_iff, h.nodup.mem_erase_iff, ne_eq, Job.mk.injEq, Bool.true_eq_false, and_false,
        not_false_eq_true, true_and]
    real := fun u hu => by
      obtain ⟨hne, hu⟩ := h.nodup.mem_erase_iff.1 hu
      obtain ⟨hrun, hcomplete⟩ := h.real u hu
      exact ⟨hrun, fun hmem => (Finset.mem_insert.1 hmem).elim (fun he => hne (he ▸ rfl)) hcomplete⟩
    nodup := h.nodup.erase _
    complete := Finset.insert_subset (h.real t hjob).1 h.complete
    clear := fun s hs => hclear (h.clear s hs)
    undecided_clear := fun hp s hs => hclear (h.undecided_clear hp s hs)
    held := fun hp hstale s hs => hheld (h.held hp hstale s hs)
    undecided_held := fun hp hstale s hs => hheld (h.undecided_held hp hstale s hs)
    failed := fun u st hu hst => by
      rcases List.mem_cons.1 hu with hu | hu
      · cases hu
      rcases List.mem_cons.1 hu with hu | hu
      · exact absurd (Note.exited.inj hu).2 hst
      obtain ⟨hrun, hcomplete, hworkers⟩ := h.failed u st hu hst
      refine ⟨hrun, fun hmem => ?_, fun hmem => hworkers (List.mem_of_mem_erase hmem)⟩
      exact (Finset.mem_insert.1 hmem).elim (fun he => hworkers (he ▸ hjob)) hcomplete }

theorem Apart.failing {t : α} {status active : Int} (h : Apart r b) (hjob : ⟨t, false⟩ ∈ b.workers) :
    Apart r { b with
      workers := b.workers.erase ⟨t, false⟩
      active
      log := .exited ⟨t, false⟩ status :: b.log } := by
  refine { h with
    live_iff := fun u => ?_
    real := fun u hu => h.real u (List.mem_of_mem_erase hu)
    nodup := h.nodup.erase _
    failed := fun u st hu hst => ?_ }
  · simp only [h.live_iff, h.nodup.mem_erase_iff, ne_eq, Job.mk.injEq, Bool.true_eq_false, and_false,
      not_false_eq_true, true_and]
  · rcases List.mem_cons.1 hu with hu | hu
    · obtain ⟨hsame, rfl⟩ := Note.exited.inj hu
      obtain rfl := (Job.mk.inj hsame).1
      exact ⟨(h.real u hjob).1, (h.real u hjob).2, fun hmem => (h.nodup.mem_erase_iff.1 hmem).1 rfl⟩
    · obtain ⟨hrun, hcomplete, hworkers⟩ := h.failed u st hu hst
      exact ⟨hrun, hcomplete, fun hmem => hworkers (List.mem_of_mem_erase hmem)⟩

theorem Apart.started {t : α} {how : Start} (h : Apart r b) (hrunning : t ∉ b.running)
    (hholdoff : t ∉ b.holdoff) (hstale : b.stale = false) (hphase : b.phase ≠ .halted) :
    Apart r { b with
      phase := b.phase.spend
      running := insert t b.running
      complete := if how = .sent then b.complete else insert t b.complete
      workers := if how = .sent then ⟨t, false⟩ :: b.workers else b.workers
      active := if how = .sent then b.active + 1 else b.active
      log := how.notes t ++ b.log } := by
  have hgrows : b.complete ⊆ if how = .sent then b.complete else insert t b.complete := by
    split
    · exact subset_rfl
    · exact Finset.subset_insert t _
  have hnew {u : α} (hu : u ∈ if how = .sent then b.complete else insert t b.complete) :
      u ∈ b.complete ∨ how ≠ .sent ∧ u = t := by
    split at hu
    · exact .inl hu
    · exact (Finset.mem_insert.1 hu).elim (fun he => .inr ⟨‹_›, he⟩) .inl
  have hjobs {job : Job α} : job ∈ (if how = .sent then ⟨t, false⟩ :: b.workers else b.workers) ↔
      how = .sent ∧ job = ⟨t, false⟩ ∨ job ∈ b.workers := by
    split <;> simp [*]
  -- what is held off is not the task that starts
  have hclear {s : α} (hs : r.Clear b s) (hheld : r.Held b s) : s ∉ insert t b.running ∧
      ∀ u ∈ r.covers s, u ∈ insert t b.running →
        u ∈ if how = .sent then b.complete else insert t b.complete := by
    refine ⟨fun hmem => ?_, fun u hu hrun => ?_⟩
    · exact (Finset.mem_insert.1 hmem).elim (fun he => hholdoff (he ▸ hheld.1)) hs.1
    · rcases Finset.mem_insert.1 hrun with rfl | hrun
      · exact (hheld.2 u hu).elim (absurd · hholdoff) fun hc => absurd (h.complete hc) hrunning
      · exact hgrows (hs.2 u hu hrun)
  have hheld {s : α} (hs : r.Held b s) : s ∈ b.holdoff ∧ ∀ u ∈ r.covers s,
      u ∈ b.holdoff ∨ u ∈ if how = .sent then b.complete else insert t b.complete :=
    ⟨hs.1, fun u hu => (hs.2 u hu).imp_right (hgrows ·)⟩
  have hgoing (hp : b.phase.spend ≠ .halted) : b.phase = .going := by
    cases hb : b.phase with
    | going => rfl
    | _ => exact absurd (congrArg Phase.spend hb) hp
  refine {
    live_undecided := h.live_undecided
    live_iff := fun u => ?_
    real := fun u hu => ?_
    nodup := ?_
    complete := fun u hu => ?_
    clear := fun s hs => hclear (h.clear s hs) (h.held hphase hstale s hs)
    undecided_clear := fun hp s hs =>
      hclear (h.undecided_clear hphase s hs) (h.undecided_held (hgoing hp) hstale s hs)
    held := fun _ _ s hs => hheld (h.held hphase hstale s hs)
    undecided_held := fun hp _ s hs =>
      hheld (h.undecided_held (hgoing (hp.trans_ne Phase.noConfusion)) hstale s hs)
    failed := fun u st hu hst => ?_ }
  · rw [hjobs, h.live_iff]
    exact (or_iff_right fun hs => absurd hs.2 (by simp)).symm
  · rcases hjobs.1 hu with ⟨hsent, he⟩ | hu
    · obtain rfl := (Job.mk.inj he).1
      refine ⟨Finset.mem_insert_self u _, fun hmem => ?_⟩
      exact (hnew hmem).elim (fun hc => hrunning (h.complete hc)) fun hs => hs.1 hsent
    · obtain ⟨hrun, hcomplete⟩ := h.real u hu
      refine ⟨Finset.mem_insert_of_mem hrun, fun hmem => ?_⟩
      exact (hnew hmem).elim hcomplete fun hs => hrunning (hs.2 ▸ hrun)
  · show (if how = .sent then ⟨t, false⟩ :: b.workers else b.workers).Nodup
    split
    · exact h.nodup.cons fun hmem => hrunning (h.real t hmem).1
    · exact h.nodup
  · rcases hnew hu with hu | ⟨-, rfl⟩
    · exact Finset.mem_insert_of_mem (h.complete hu)
    · exact Finset.mem_insert_self u _
  · have hold : .exited ⟨u, false⟩ st ∈ b.log := by
      refine (List.mem_append.1 hu).resolve_left ?_
      cases how <;> simp [Start.notes]
    obtain ⟨hrun, hcomplete, hworkers⟩ := h.failed u st hold hst
    refine ⟨Finset.mem_insert_of_mem hrun, fun hmem => ?_, fun hmem => ?_⟩
    · exact (hnew hmem).elim hcomplete fun hs => hrunning (hs.2 ▸ hrun)
    · exact (hjobs.1 hmem).elim (fun hs => hrunning ((Job.mk.inj hs.2).1 ▸ hrun)) hworkers

theorem Apart.move (hb : Based r b) (h : Apart r b) (hmove : r.Move b b')
    (hslips : ∀ t, .live t ∉ b'.slips) : Apart r b' := by
  cases hmove with
  | halt hphase =>
    have hp : b.phase ≠ .halted := fun hp => Phase.noConfusion (hphase.symm.trans hp)
    exact { h with
      undecided_clear := fun _ => h.undecided_clear hp
      held := fun _ => h.held hp
      undecided_held := fun hp => Phase.noConfusion hp }
  | raise =>
    exact { h with
      held := fun _ hstale => Bool.noConfusion hstale
      undecided_held := fun _ hstale => Bool.noConfusion hstale }
  | cover t hlive =>
    exact h.decided hlive (Finset.subset_insert t _) subset_rfl fun s hs =>
      or_assoc.1 (hs.imp_left Finset.mem_insert.1)
  | fail t hlive =>
    exact h.decided (fun hmem => hslips t (hlive hmem)) subset_rfl (Finset.subset_insert t _)
      fun s hs => or_left_comm.1 (hs.imp_right Finset.mem_insert.1)
  | reopen t hphase hrunning _ hcovers => exact h.reopened hphase hrunning hcovers
  | hold => exact h.hold
  | setscene t ht hrunning _ _ hphase => exact h.launched hb ht hrunning hphase
  | verdict job status hjob hlive =>
    obtain ⟨t, setscene⟩ := job
    obtain rfl := h.setscene_job hjob hlive
    by_cases hstatus : status = 0
    · simp only [hstatus, if_true]
      exact h.judged (Finset.subset_insert t _) subset_rfl fun s hs =>
        or_assoc.1 (hs.imp_left Finset.mem_insert.1)
    · simp only [hstatus, if_false]
      exact h.judged subset_rfl (Finset.subset_insert t _) fun s hs =>
        or_left_comm.1 (hs.imp_right Finset.mem_insert.1)
  | complete job hjob hlive =>
    obtain ⟨t, setscene⟩ := job
    obtain rfl := h.real_job hjob hlive
    exact h.completed hjob
  | failed job status hjob hlive =>
    obtain ⟨t, setscene⟩ := job
    obtain rfl := h.real_job hjob hlive
    exact h.failing hjob
  | start t how _ hrunning hholdoff hstale _ hphase => exact h.started hrunning hholdoff hstale hphase
  | miscount n hn =>
    exact { h with
      failed := fun u st hu hst => h.failed u st ((List.mem_cons.1 hu).resolve_left fun he => by
        subst he
        exact Bool.noConfusion hn) hst }
  | _ => exact { h with }

/-- The counter counts the real tasks that the workers run, less those it was never told of. -/
structure Counted (r : Rules α) (b : Board α) : Prop where
  active : b.active =
    (b.workers.countP fun job => !job.setscene : Int) - (b.log.countP Note.miscounted : Int)
  slots : b.active + (b.live.card : Int) ≤ r.slots

theorem Counted.move (hb : Based r b) (ha : Apart r b) (h : Counted r b) (hmove : r.Move b b') :
    Counted r b' := by
  obtain ⟨hactive, hslots⟩ := h
  have hcount : ∀ {t : α}, ⟨t, false⟩ ∈ b.workers →
      ((b.workers.erase ⟨t, false⟩).countP fun job => !job.setscene : Int) =
        (b.workers.countP fun job => !job.setscene : Int) - 1 := fun {t} ht => by
    rw [List.countP_erase, if_pos (by simpa using ht)]
    have hpos : 0 < b.workers.countP fun job => !job.setscene := List.countP_pos_iff.2 ⟨_, ht, rfl⟩
    omega
  have hless : b.active - 1 + (b.live.card : Int) ≤ r.slots := by omega
  cases hmove with
  | setscene t _ hrunning _ hfree =>
    have hlive : t ∉ b.live := fun h => hrunning (hb.live h)
    refine ⟨by simpa [List.countP_cons, Note.miscounted] using hactive, ?_⟩
    show b.active + ((insert t b.live).card : Int) ≤ r.slots
    rw [Finset.card_insert_of_notMem hlive]
    omega
  | verdict job status hjob hlive =>
    obtain ⟨t, setscene⟩ := job
    obtain rfl := ha.setscene_job hjob hlive
    refine ⟨?_, ?_⟩
    · show b.active = ((b.workers.erase ⟨t, true⟩).countP fun job => !job.setscene : Int) - _
      rw [List.countP_erase]
      simpa [List.countP_cons, Note.miscounted] using hactive
    · show b.active + ((b.live.erase t).card : Int) ≤ r.slots
      have := Finset.card_erase_le (s := b.live) (a := t)
      omega
  | complete job hjob hlive =>
    obtain ⟨t, setscene⟩ := job
    obtain rfl := ha.real_job hjob hlive
    refine ⟨?_, hless⟩
    show b.active - 1 = ((b.workers.erase ⟨t, false⟩).countP fun job => !job.setscene : Int) - _
    rw [hcount hjob, hactive]
    simp only [List.countP_cons, Note.miscounted, Bool.false_eq_true, if_false]
    omega
  | failed job status hjob hlive =>
    obtain ⟨t, setscene⟩ := job
    obtain rfl := ha.real_job hjob hlive
    refine ⟨?_, hless⟩
    show b.active - 1 = ((b.workers.erase ⟨t, false⟩).countP fun job => !job.setscene : Int) - _
    rw [hcount hjob, hactive]
    simp only [List.countP_cons, Note.miscounted, Bool.false_eq_true, if_false]
    omega
  | start t how _ _ _ _ hfree =>
    cases how with
    | sent =>
      refine ⟨?_, by show b.active + 1 + (b.live.card : Int) ≤ r.slots; omega⟩
      show b.active + 1 = ((⟨t, false⟩ :: b.workers).countP fun job => !job.setscene : Int) -
        ((.sent ⟨t, false⟩ :: b.log).countP Note.miscounted : Int)
      simp only [List.countP_cons, Note.miscounted, Bool.not_false, Bool.false_eq_true, if_true, if_false]
      omega
    | noexec => exact ⟨by simpa [Start.notes, List.countP_cons, Note.miscounted] using hactive, hslots⟩
    | skipped => exact ⟨by simpa [Start.notes, List.countP_cons, Note.miscounted] using hactive, hslots⟩
  | miscount n hn =>
    refine ⟨?_, hless⟩
    show b.active - 1 = (b.workers.countP fun job => !job.setscene : Int) -
      ((n :: b.log).countP Note.miscounted : Int)
    rw [List.countP_cons, if_pos hn]
    omega
  | _ => exact ⟨hactive, hslots⟩

/-- No setscene task has two verdicts. -/
def Single (b : Board α) : Prop := Disjoint b.covered b.notcovered

theorem Single.move (ha : Apart r b) (h : Single b) (hmove : r.Move b b') (hslips : b'.slips = []) :
    Single b' := by
  have hslip {x : Slip α} (hx : x ∈ b.slips) : False := by
    have := hmove.slips_subset hx
    rw [hslips] at this
    cases this
  cases hmove with
  | cover t _ hn => exact Finset.disjoint_insert_left.2 ⟨fun hmem => hslip (hn hmem), h⟩
  | fail t _ hc => exact Finset.disjoint_insert_right.2 ⟨fun hmem => hslip (hc hmem), h⟩
  | reopen t => exact h.mono (Finset.erase_subset t _) (Finset.erase_subset t _)
  | verdict job status _ hlive =>
    obtain ⟨-, hc, hn⟩ := mem_undecided.1 (ha.live_undecided hlive)
    by_cases hstatus : status = 0
    · simp only [Single, hstatus, if_true]
      exact Finset.disjoint_insert_left.2 ⟨hn, h⟩
    · simp only [Single, hstatus, if_false]
      exact Finset.disjoint_insert_right.2 ⟨hc, h⟩
  | _ => exact h

/-! ### What holds after any number of moves -/

/-- Everything that holds of a board that was reached, as far as its slips allow. -/
structure Kept (r : Rules α) (b : Board α) : Prop where
  based : Based r b
  ordered : Ordered r b
  apart : (∀ t, .live t ∉ b.slips) → Apart r b
  counted : (∀ t, .live t ∉ b.slips) → Counted r b
  single : b.slips = [] → Single b

theorem Kept.move (h : Kept r b) (hmove : r.Move b b') : Kept r b' := by
  have hslips (hs : ∀ t, .live t ∉ b'.slips) (t : α) : .live t ∉ b.slips := fun ht =>
    hs t (hmove.slips_subset ht)
  have hnil (hs : b'.slips = []) : b.slips = [] :=
    List.eq_nil_iff_forall_not_mem.2 fun x hx => by
      have := hmove.slips_subset hx
      rw [hs] at this
      cases this
  have hlive (hs : b.slips = []) (t : α) : .live t ∉ b.slips := by simp [hs]
  exact {
    based := h.based.move hmove
    ordered := h.ordered.move hmove
    apart := fun hs => (h.apart (hslips hs)).move h.based hmove hs
    counted := fun hs => (h.counted (hslips hs)).move h.based (h.apart (hslips hs)) hmove
    single := fun hs => (h.single (hnil hs)).move (h.apart (hlive (hnil hs))) hmove hs }

theorem Kept.moves (h : Kept r b) (hmoves : r.Moves b b') : Kept r b' := by
  induction hmoves with
  | refl => exact h
  | tail _ hmove ih => exact ih.move hmove

/-! ### What depends on a failed task -/

/-- A task that a worker failed to run is not completed, and nothing that depends on it is started. -/
theorem Apart.failed_stops (ho : Ordered r b) (h : Apart r b) {t : α} {status : Int}
    (hexit : .exited ⟨t, false⟩ status ∈ b.log) (hstatus : status ≠ 0) {u : α}
    (hu : Relation.TransGen (fun a b => b ∈ r.depends a) u t) : u ∉ b.running := by
  -- what is running had its dependencies complete
  have hdeps {a dep : α} (ha : a ∈ b.running) (hdep : dep ∈ r.depends a) : dep ∈ b.complete := by
    obtain ⟨n, hn, hstarts⟩ := List.mem_filterMap.1 ((ho.running a).1 ha)
    obtain ⟨later, log, hlog⟩ := List.append_of_mem hn
    have := ho.earlier n log ⟨later, hlog.symm⟩ a hstarts dep hdep
    exact (ho.complete dep).2 (hlog ▸ List.mem_append_right later (List.mem_cons_of_mem n this))
  induction hu using Relation.TransGen.head_induction_on with
  | single hut => exact fun hrun => (h.failed t status hexit hstatus).2.1 (hdeps hrun hut)
  | head huv _ ih => exact fun hrun => ih (h.complete (hdeps hrun huv))

end Rules
end BitBake
end OpenBmc
