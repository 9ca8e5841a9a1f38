import OpenBmc.HashServ.Server

/-!
# Stored unihashes are stable

No step changes a stored unihash, and every answer about a taskhash that does not come from upstream
is the unihash stored for it. The reports of a connection that may not report are answered by the
output instead.
-/

namespace OpenBmc
namespace HashServ
open Py

/-- The unihashes that are stored stay. -/
def Kept (db db' : Db) : Prop :=
  ∀ m t u, db.getEquivalent m t = some u → db'.getEquivalent m t = some u

theorem Kept.refl (db : Db) : Kept db db := fun _ _ _ h => h

theorem Kept.trans {db db' db'' : Db} (h : Kept db db') (h' : Kept db' db'') : Kept db db'' :=
  fun m t u hu => h' m t u (h m t u hu)

/-- Without upstream every stored output has a taskhash with a unihash. -/
def Joined (cfg : Config) (db : Db) : Prop :=
  cfg.upstream = false → ∀ r ∈ db.outhashes, db.getEquivalent r.method r.taskhash ≠ none

/-- The requests whose answers are about the taskhash. -/
def Request.Speaks (cfg : Config) : Request → Prop
  | .getOuthash .. => False
  | .report _ mayReport _ => cfg.readOnly = false ∧ mayReport = true
  | _ => True

/-- The answer is the stored unihash; a `get` of all columns may find none without an output. -/
def Stored (db : Db) (request : Request) (unihash : Option Str) : Prop :=
  unihash = db.getEquivalent request.key.1 request.key.2 ∨
    unihash = none ∧ ∃ method taskhash, request = .get method taskhash true

/-- A handler that waits for the unihash of an output waits for that of its report. -/
def Waiting.Sound (w : Waiting) : Prop :=
  ∀ data, w.point = .reportOuthash data → ∃ mayReport now, w.request = .report data mayReport now

section Handlers
variable {cfg : Config} {db db' : Db} {method taskhash unihash : Str} {data : Report}

theorem kept_insertUnihash : Kept db (db.insertUnihash method taskhash unihash) :=
  fun _ _ _ h => Db.getEquivalent_insertUnihash_of_some h

theorem kept_insertOuthash (row : OuthashRow) : Kept db (db.insertOuthash row) :=
  fun _ _ _ h => by rwa [Db.getEquivalent_insertOuthash]

theorem kept_updateUnified (d : Option Record) : Kept db (db.updateUnified d) := by
  cases d with
  | none => exact .refl db
  | some d => exact kept_insertUnihash.trans (kept_insertOuthash _)

theorem joined_insertUnihash (h : Joined cfg db) : Joined cfg (db.insertUnihash method taskhash unihash) := by
  intro hup r hr
  rw [Db.outhashes_insertUnihash] at hr
  obtain ⟨u, hu⟩ := Option.ne_none_iff_exists'.1 (h hup r hr)
  rw [kept_insertUnihash _ _ _ hu]
  simp

theorem joined_insertOuthash {row : OuthashRow} (h : Joined cfg db)
    (hrow : cfg.upstream = false → db.getEquivalent row.method row.taskhash ≠ none) :
    Joined cfg (db.insertOuthash row) := by
  intro hup r hr
  rw [Db.getEquivalent_insertOuthash]
  rcases Db.mem_outhashes_insertOuthash hr with hr | rfl
  exacts [h hup r hr, hrow hup]

theorem joined_updateUnified (h : Joined cfg db) (d : Option Record) : Joined cfg (db.updateUnified d) := by
  cases d with
  | none => exact h
  | some d =>
    refine joined_insertOuthash (joined_insertUnihash h) fun _ => ?_
    rw [Db.getEquivalent_insertUnihash_self]
    simp

theorem getEquivalent_of_full {r : OuthashRow × Str}
    (h : db.getUnihashByTaskhashFull method taskhash = some r) :
    db.getEquivalent method taskhash = some r.2 := by
  have hmem := List.mem_filter.1 (mem_of_first h)
  obtain ⟨hm, ht⟩ : r.1.method = method ∧ r.1.taskhash = taskhash := by simpa using hmem.2
  rw [← hm, ← ht]
  exact (Db.mem_joined.1 hmem.1).2

/-- What a step of a handler does: it keeps the unihashes, and what it answers itself is stored. -/
structure Handled (cfg : Config) (db db' : Db) (request : Request) (outcome : Outcome) : Prop where
  kept : Kept db db'
  joined : Joined cfg db'
  stored : ∀ unihash, outcome = .answer unihash false → request.Speaks cfg → Stored db' request unihash
  sound : ∀ data, outcome = .wait (.reportOuthash data) →
    ∃ mayReport now, request = .report data mayReport now

theorem handled_finishReport {mayReport : Bool} {now : Str} (hk : Kept db db') (hj : Joined cfg db')
    (hu : cfg.upstream = false → db'.getEquivalent data.method data.taskhash ≠ none) :
    Handled cfg db db' (.report data mayReport now) (cfg.finishReport db' data) := by
  unfold Config.finishReport Config.ask
  cases hg : db'.getEquivalent data.method data.taskhash with
  | some u =>
    exact ⟨hk, hj, fun v hv _ => .inl ((Outcome.answer.inj hv).1.symm.trans hg.symm), nofun⟩
  | none =>
    cases hup : cfg.upstream
    · exact absurd hg (hu hup)
    · exact ⟨hk, hj, by simp, by simp⟩

theorem handled_storeReport {mayReport : Bool} {now : Str} (hk : Kept db db') (hj : Joined cfg
      (db'.insertUnihash data.method data.taskhash unihash)) :
    Handled cfg db (cfg.storeReport db' data unihash).1 (.report data mayReport now)
      (cfg.storeReport db' data unihash).2 := by
  refine handled_finishReport (hk.trans kept_insertUnihash) hj fun _ => ?_
  rw [show (cfg.storeReport db' data unihash).1 = _ from rfl, Config.storeReport, Db.getEquivalent_insertUnihash_self]
  simp

/-- Storing the unihash of a report gives the output of its row a unihash. -/
theorem joined_storeReport (h : Joined cfg db) (now : Str) :
    Joined cfg ((db.insertOuthash (Config.reportRow data now)).insertUnihash data.method
      data.taskhash unihash) := by
  intro hup r hr
  rw [Db.outhashes_insertUnihash] at hr
  rcases Db.mem_outhashes_insertOuthash hr with hr | rfl
  · obtain ⟨u, hu⟩ := Option.ne_none_iff_exists'.1 (h hup r hr)
    rw [(kept_insertOuthash _).trans kept_insertUnihash _ _ _ hu]
    simp
  · rw [Config.reportRow, Db.getEquivalent_insertUnihash_self]
    simp

theorem handled_report {mayReport : Bool} {now : Str} (h : Joined cfg db) :
    Handled cfg db (cfg.report db data now).1 (.report data mayReport now) (cfg.report db data now).2 := by
  have hk : Kept db (db.insertOuthash (Config.reportRow data now)) := kept_insertOuthash _
  unfold Config.report
  dsimp only
  split
  · split
    · exact handled_storeReport hk (joined_storeReport h now)
    · split
      · rename_i hup
        refine ⟨hk, fun hup' => ?_, by simp, ?_⟩
        · rw [hup] at hup'
          cases hup'
        · intro data' hd
          cases hd
          exact ⟨_, _, rfl⟩
      · exact handled_storeReport hk (joined_storeReport h now)
  · -- the row was there
    rename_i hrow
    have hmem : (Config.reportRow data now).key ∈ db.outhashes.map OuthashRow.key := by
      simp only [Db.hasOuthash, Bool.or_eq_true, Bool.not_eq_true', decide_eq_false_iff_not, not_or,
        not_not] at hrow
      exact hrow.1
    rw [show db.insertOuthash (Config.reportRow data now) = db from dif_pos hmem]
    refine handled_finishReport (.refl db) h fun hup => ?_
    obtain ⟨r, hr, he⟩ := List.mem_map.1 hmem
    have := h hup r hr
    have hm : r.method = data.method := congrArg Prod.fst he
    have ht : r.taskhash = data.taskhash := congrArg (fun k => k.2.1) he
    rwa [hm, ht] at this

theorem handled_handle (h : Joined cfg db) (request : Request) :
    Handled cfg db (cfg.handle db request).1 request (cfg.handle db request).2 := by
  cases request with
  | get method taskhash fetchAll =>
    refine ⟨.refl db, h, fun u hu _ => ?_, fun data hd => ?_⟩
    · have hu : cfg.getUnihash db method taskhash fetchAll = .answer u false := hu
      unfold Config.getUnihash Config.ask at hu
      cases fetchAll with
      | true =>
        cases hf : db.getUnihashByTaskhashFull method taskhash with
        | some r =>
          simp only [hf, if_true, Option.map_some, Outcome.answer.injEq, and_true] at hu
          exact .inl (hu.symm.trans (getEquivalent_of_full hf).symm)
        | none =>
          simp only [hf, if_true, Option.map_none] at hu
          split at hu
          · cases hu
          · exact .inr ⟨(Outcome.answer.inj hu).1.symm, _, _, rfl⟩
      | false =>
        cases hg : db.getEquivalent method taskhash with
        | some v =>
          simp only [hg, Bool.false_eq_true, if_false, Outcome.answer.injEq, and_true] at hu
          exact .inl (hu.symm.trans hg.symm)
        | none =>
          simp only [hg, Bool.false_eq_true, if_false] at hu
          split at hu
          · cases hu
          · exact .inl ((Outcome.answer.inj hu).1.symm.trans hg.symm)
    · have hd : cfg.getUnihash db method taskhash fetchAll = .wait (.reportOuthash data) := hd
      unfold Config.getUnihash Config.ask at hd
      split at hd
      · cases hd
      · split at hd <;> cases hd
  | getOuthash method outhash taskhash withUnihash =>
    refine ⟨.refl db, h, fun _ _ hs => hs.elim, fun data hd => ?_⟩
    have hd : cfg.getOuthash db method outhash withUnihash = .wait (.reportOuthash data) := hd
    unfold Config.getOuthash Config.ask at hd
    split at hd
    · split at hd
      · cases hd
      · split at hd <;> cases hd
    · split at hd
      · cases hd
      · split at hd <;> cases hd
  | getStream method taskhash =>
    refine ⟨.refl db, h, fun u hu _ => ?_, fun data hd => ?_⟩
    · have hu : cfg.getStream db method taskhash = .answer u false := hu
      unfold Config.getStream Config.ask at hu
      split at hu
      · rename_i hg
        exact .inl ((Outcome.answer.inj hu).1.symm.trans hg.symm)
      · rename_i hg
        split at hu
        · cases hu
        · exact .inl ((Outcome.answer.inj hu).1.symm.trans hg.symm)
    · have hd : cfg.getStream db method taskhash = .wait (.reportOuthash data) := hd
      unfold Config.getStream Config.ask at hd
      split at hd
      · cases hd
      · split at hd <;> cases hd
  | report data mayReport now =>
    unfold Config.handle
    dsimp only
    split
    · rename_i hro
      refine ⟨.refl db, h, fun u _ hs => ?_, fun data' hd => ?_⟩
      · rw [hs.1, hs.2] at hro
        cases hro
      · unfold Config.reportReadonly Config.ask at hd
        split at hd
        · cases hd
        · split at hd <;> cases hd
    · exact handled_report h
  | reportEquiv method taskhash unihash =>
    unfold Config.handle
    dsimp only
    split
    · exact ⟨.refl db, h, by simp, by simp⟩
    · refine ⟨kept_insertUnihash, joined_insertUnihash h, fun u hu _ => ?_, by simp⟩
      exact .inl (Outcome.answer.inj hu).1.symm

/-- A handler goes on from upstream's answer. -/
theorem handled_resume (h : Joined cfg db) {w : Waiting} (hw : w.Sound) (d : Option Record) :
    Handled cfg db (cfg.resume db w.point d).1 w.request (cfg.resume db w.point d).2.1 := by
  cases hp : w.point with
  | get method taskhash fetchAll =>
    cases fetchAll with
    | true => exact ⟨kept_updateUnified d, joined_updateUnified h d, by simp [Config.resume],
        by simp [Config.resume]⟩
    | false =>
      cases d with
      | none => exact ⟨.refl db, h, by simp [Config.resume], by simp [Config.resume]⟩
      | some d => exact ⟨kept_insertUnihash, joined_insertUnihash h, by simp [Config.resume], by simp [Config.resume]⟩
  | getOuthash withUnihash =>
    exact ⟨kept_updateUnified d, joined_updateUnified h d, by simp [Config.resume], by simp [Config.resume]⟩
  | getStream method taskhash =>
    cases d <;> exact ⟨.refl db, h, by simp [Config.resume], by simp [Config.resume]⟩
  | reportOuthash data =>
    obtain ⟨mayReport, now, hr⟩ := hw data hp
    rw [hr]
    exact handled_storeReport (.refl db) (joined_insertUnihash h)
  | reportGet data =>
    cases d with
    | none => exact ⟨.refl db, h, by simp [Config.resume], by simp [Config.resume]⟩
    | some d => exact ⟨kept_insertUnihash, joined_insertUnihash h, by simp [Config.resume], by simp [Config.resume]⟩
  | reportReadonly data =>
    exact ⟨kept_updateUnified d, joined_updateUnified h d, by simp [Config.resume], by simp [Config.resume]⟩

end Handlers

/-- The answer is about a taskhash and not from upstream. -/
def Answer.Own (cfg : Config) (e : Answer) : Prop := e.request.Speaks cfg ∧ e.fromUpstream = false

/-- A later own answer for the same taskhash is the same, where an earlier one gave a unihash. -/
def Answer.Agrees (cfg : Config) (e e' : Answer) : Prop :=
  e.Own cfg → e'.Own cfg → e.request.key = e'.request.key → e'.unihash ≠ none →
    e.unihash = e'.unihash ∨
      e.unihash = none ∧ ∃ method taskhash, e.request = .get method taskhash true

/-- The invariant of the runs. -/
structure Server.Stable (cfg : Config) (s : Server) : Prop where
  joined : Joined cfg s.db
  sound : ∀ w ∈ s.waiting, w.Sound
  stored : ∀ e ∈ s.log, e.Own cfg → ∀ u, e.unihash = some u →
    s.db.getEquivalent e.request.key.1 e.request.key.2 = some u
  agrees : s.log.Pairwise (Answer.Agrees cfg)

section Run
variable {cfg : Config} {s s' : Server} {e : Event}

theorem Server.Stable.after {db : Db} {request : Request} {before : Option Str} {others : List Waiting}
    {puts : List (Str × Str)} {outcome : Outcome} (h : s.Stable cfg)
    (hsub : ∀ w ∈ others, w ∈ s.waiting) (hh : Handled cfg s.db db request outcome) :
    (s.after db request before others puts outcome).Stable cfg := by
  have hstored : ∀ e ∈ s.log, e.Own cfg → ∀ u, e.unihash = some u →
      db.getEquivalent e.request.key.1 e.request.key.2 = some u :=
    fun e he hown u hu => hh.kept _ _ _ (h.stored e he hown u hu)
  refine ⟨by rw [db_after]; exact hh.joined, fun w hw => ?_, ?_, ?_⟩
  · rcases mem_waiting_after hw with hw | ⟨point, rfl, rfl⟩
    · exact h.sound w (hsub w hw)
    · rintro data rfl
      exact hh.sound data rfl
  · rw [db_after]
    rcases log_after s db request before others puts outcome with hlog | ⟨v, b, rfl, hlog⟩
    · rw [hlog]
      exact hstored
    · rw [hlog]
      intro e he hown u hu
      rcases List.mem_cons.1 he with rfl | he
      · obtain rfl : b = false := hown.2
        rcases hh.stored v rfl hown.1 with hv | ⟨hv, -⟩
        · exact hv.symm.trans hu
        · rw [show v = some u from hu] at hv
          cases hv
      · exact hstored e he hown u hu
  · rcases log_after s db request before others puts outcome with hlog | ⟨v, b, rfl, hlog⟩
    · rw [hlog]
      exact h.agrees
    · rw [hlog]
      refine List.pairwise_cons.2 ⟨fun e' he' hown hown' hkey hne => ?_, h.agrees⟩
      obtain rfl : b = false := hown.2
      obtain ⟨u, hu⟩ := Option.ne_none_iff_exists'.1 hne
      have hget := hstored e' he' hown' u hu
      rw [← hkey] at hget
      rcases hh.stored v rfl hown.1 with hv | hv
      · exact .inl (hv.trans (hget.trans hu.symm))
      · exact .inr hv

theorem Server.Stable.step (h : s.Stable cfg) (hs : Step cfg s e s') :
    s'.Stable cfg ∧ Kept s.db s'.db := by
  cases hs with
  | @arrive request db outcome hh =>
    have hd := handled_handle h.joined request
    rw [hh] at hd
    exact ⟨h.after (fun _ hw => hw) hd, by rw [db_after]; exact hd.kept⟩
  | @reply w l₁ l₂ d db outcome puts hw hh =>
    have hd := handled_resume h.joined (h.sound w (by simp [hw])) d
    rw [hh] at hd
    refine ⟨h.after (fun w' hw' => ?_) hd, by rw [db_after]; exact hd.kept⟩
    rw [hw]
    rcases List.mem_append.1 hw' with hw' | hw' <;> simp [hw']
  | take => exact ⟨⟨h.joined, h.sound, h.stored, h.agrees⟩, .refl _⟩
  | @backfill item d hworker =>
    cases d with
    | none => exact ⟨⟨h.joined, h.sound, h.stored, h.agrees⟩, .refl _⟩
    | some d =>
      exact ⟨⟨joined_insertUnihash h.joined, h.sound,
        fun e he hown u hu => kept_insertUnihash _ _ _ (h.stored e he hown u hu), h.agrees⟩,
        kept_insertUnihash⟩

theorem Reachable.stable {ok : Server → Event → Prop} (h : Reachable cfg (Joined cfg) ok s) :
    s.Stable cfg := by
  induction h with
  | start hj => exact ⟨hj, by simp, by simp, .nil⟩
  | step _ _ hs ih => exact (ih.step hs).1

/-- In every state of every run there is one unihash for a taskhash at most, it stays whatever
comes, and all answers about the taskhash that do not come from upstream are this unihash from the
first one on. -/
theorem unihash_stable (h : Reachable cfg (Joined cfg) (fun _ _ => True) s) :
    (s.db.unihashes.map UnihashRow.key).Nodup ∧
    (∀ s', Relation.ReflTransGen (fun s s' => ∃ e, Step cfg s e s') s s' → Kept s.db s'.db) ∧
    (∀ e ∈ s.log, e.Own cfg → ∀ u, e.unihash = some u →
      s.db.getEquivalent e.request.key.1 e.request.key.2 = some u) ∧
    s.log.Pairwise (Answer.Agrees cfg) := by
  have hstable := h.stable
  refine ⟨s.db.unihashes_unique, fun s' hrun => ?_, hstable.stored, hstable.agrees⟩
  have hboth : s'.Stable cfg ∧ Kept s.db s'.db := by
    induction hrun with
    | refl => exact ⟨hstable, .refl _⟩
    | tail _ hstep ih =>
      obtain ⟨e, hstep⟩ := hstep
      exact ⟨(ih.1.step hstep).1, ih.2.trans (ih.1.step hstep).2⟩
  exact hboth.2

end Run

section Sample
namespace Sample

/-- A server without upstream that anybody may read. -/
def config : Config := ⟨false, false, false, by decide⟩

/-- A database with the unihash `u` of the taskhash `t`. -/
def db : Db := ⟨[⟨['m'], ['t'], ['u'], []⟩], [], none, by decide, by decide⟩

def getAnswer : Answer := ⟨.get ['m'] ['t'] false, some ['u'], some ['u'], false⟩

/-- The answer to the report of an output nobody knows, by a connection that may not report. -/
def reportAnswer : Answer :=
  ⟨.report ⟨['m'], ['t'], ['o'], ['v']⟩ false ['1'], some ['u'], some ['v'], false⟩

def server : Server := ⟨db, [], [], none, [reportAnswer, getAnswer]⟩

theorem reachable_server : Reachable config (Joined config) (fun _ _ => True) server := by
  have h₀ : Reachable config (Joined config) (fun _ _ => True) ⟨db, [], [], none, []⟩ :=
    .start fun _ => by simp [db]
  have hget : config.handle db getAnswer.request = (db, .answer (some ['u']) false) := rfl
  have hreport : config.handle db reportAnswer.request = (db, .answer (some ['v']) false) := rfl
  have h₁ := h₀.step trivial (.arrive hget)
  have h₂ := h₁.step (e := .arrive reportAnswer.request) trivial (Step.arrive hreport)
  exact h₂

end Sample

theorem two_answers_stable :
    (Sample.server.db.unihashes.map UnihashRow.key).Nodup ∧
    (∀ s', Relation.ReflTransGen (fun s s' => ∃ e, Step Sample.config s e s') Sample.server s' →
      Kept Sample.server.db s'.db) ∧
    (∀ e ∈ Sample.server.log, e.Own Sample.config → ∀ u, e.unihash = some u →
      Sample.server.db.getEquivalent e.request.key.1 e.request.key.2 = some u) ∧
    Sample.server.log.Pairwise (Answer.Agrees Sample.config) :=
  unihash_stable Sample.reachable_server

/-- A connection that may not report is answered with its own unihash for `t`, which has another. -/
theorem readonly_report_differs :
    Reachable Sample.config (Joined Sample.config) (fun _ _ => True) Sample.server ∧
    Sample.reportAnswer ∈ Sample.server.log ∧ Sample.getAnswer ∈ Sample.server.log ∧
    Sample.reportAnswer.request.key = Sample.getAnswer.request.key ∧
    Sample.reportAnswer.fromUpstream = false ∧ Sample.reportAnswer.unihash = some ['v'] ∧
    Sample.server.db.getEquivalent ['m'] ['t'] = some ['u'] :=
  ⟨Sample.reachable_server, by decide, by decide, rfl, rfl, rfl, rfl⟩

end Sample

end HashServ
end OpenBmc
