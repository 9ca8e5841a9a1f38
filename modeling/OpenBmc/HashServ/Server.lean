import OpenBmc.HashServ.Database

/-!
# A hash equivalence server

The handlers of any number of connections, and the worker that backfills unihashes from upstream.
What the database does is done at once; a handler suspends only where it asks upstream (`Point`), and
the others run meanwhile. Of a reply the unihash is kept. The requests are those that neither remove
rows nor collect garbage.
-/

namespace OpenBmc
namespace HashServ
open Py

structure Config where
  upstream : Bool
  readOnly : Bool
  /-- Whether `lastrowid` of a new cursor moves also for an ignored row. -/
  countsIgnored : Bool
  /-- A server that only reads has no upstream. -/
  not_both : ¬ (upstream = true ∧ readOnly = true)

structure Report where
  method : Str
  taskhash : Str
  outhash : Str
  unihash : Str
deriving DecidableEq

inductive Request where
  | get (method taskhash : Str) (fetchAll : Bool)
  | getOuthash (method outhash taskhash : Str) (withUnihash : Bool)
  | getStream (method taskhash : Str)
  /-- With whether the connection may report, and the time. -/
  | report (data : Report) (mayReport : Bool) (now : Str)
  | reportEquiv (method taskhash unihash : Str)
deriving DecidableEq

/-- What upstream answers, `None` apart. -/
structure Record where
  method : Str
  taskhash : Str
  unihash : Str
  outhash : Str
  created : Str
deriving DecidableEq

/-- Where a handler waits for upstream. -/
inductive Point where
  | get (method taskhash : Str) (fetchAll : Bool)
  | getOuthash (withUnihash : Bool)
  | getStream (method taskhash : Str)
  /-- For the unihash of an output that is new here. -/
  | reportOuthash (data : Report)
  /-- For a taskhash that has no unihash after its report. -/
  | reportGet (data : Report)
  | reportReadonly (data : Report)
deriving DecidableEq

inductive Outcome where
  /-- With whether the unihash is upstream's answer. -/
  | answer (unihash : Option Str) (fromUpstream : Bool)
  | wait (point : Point)
  /-- An exception, which closes the connection. -/
  | error
deriving DecidableEq

namespace Db
variable (db : Db)

def updateUnified : Option Record → Db
  | none => db
  | some d => (db.insertUnihash d.method d.taskhash d.unihash).insertOuthash
      ⟨d.method, d.taskhash, d.outhash, d.created⟩

end Db

namespace Config
variable (cfg : Config) (db : Db)

/-- Ask upstream, if there is one. -/
def ask (point : Point) (otherwise : Outcome) : Outcome :=
  if cfg.upstream then .wait point else otherwise

def getUnihash (method taskhash : Str) (fetchAll : Bool) : Outcome :=
  match (if fetchAll then (db.getUnihashByTaskhashFull method taskhash).map Prod.snd
    else db.getEquivalent method taskhash) with
  | some unihash => .answer (some unihash) false
  | none => cfg.ask (.get method taskhash fetchAll) (.answer none false)

def getOuthash (method outhash : Str) (withUnihash : Bool) : Outcome :=
  if withUnihash then
    match db.getUnihashByOuthash method outhash with
    | some r => .answer (some r.2) false
    | none => cfg.ask (.getOuthash withUnihash) (.answer none false)
  else
    match db.getOuthash method outhash with
    | some _ => .answer none false
    | none => cfg.ask (.getOuthash withUnihash) (.answer none false)

def getStream (method taskhash : Str) : Outcome :=
  match db.getEquivalent method taskhash with
  | some unihash => .answer (some unihash) false
  | none => cfg.ask (.getStream method taskhash) (.answer none false)

def reportReadonly (data : Report) : Outcome :=
  match db.getUnihashByOuthash data.method data.outhash with
  | some r => .answer (some r.2) false
  | none => cfg.ask (.reportReadonly data) (.answer (some data.unihash) false)

/-- The end of a report: the reply is read back. -/
def finishReport (data : Report) : Outcome :=
  match db.getEquivalent data.method data.taskhash with
  | some unihash => .answer (some unihash) false
  | none => cfg.ask (.reportGet data) (.answer (some data.unihash) false)

/-- The output row that a report inserts. -/
def reportRow (data : Report) (now : Str) : OuthashRow :=
  ⟨data.method, data.taskhash, data.outhash, now⟩

def storeReport (data : Report) (unihash : Str) : Db × Outcome :=
  let db := db.insertUnihash data.method data.taskhash unihash
  (db, cfg.finishReport db data)

def report (data : Report) (now : Str) : Db × Outcome :=
  let row := reportRow data now
  let inserted := db.insertOuthash row
  if !db.hasOuthash row || cfg.countsIgnored then
    match inserted.getEquivalentForOuthash data.method data.outhash data.taskhash with
    | some unihash => cfg.storeReport inserted data unihash
    | none =>
      if cfg.upstream then (inserted, .wait (.reportOuthash data))
      else cfg.storeReport inserted data data.unihash
  else (inserted, cfg.finishReport inserted data)

/-- A handler until it answers or asks upstream. -/
def handle : Request → Db × Outcome
  | .get method taskhash fetchAll => (db, cfg.getUnihash db method taskhash fetchAll)
  | .getOuthash method outhash _ withUnihash => (db, cfg.getOuthash db method outhash withUnihash)
  | .getStream method taskhash => (db, cfg.getStream db method taskhash)
  | .report data mayReport now =>
    if cfg.readOnly || !mayReport then (db, cfg.reportReadonly db data) else cfg.report db data now
  | .reportEquiv method taskhash unihash =>
    if cfg.readOnly then (db, .error)
    else
      let db := db.insertUnihash method taskhash unihash
      (db, .answer (db.getEquivalent method taskhash) false)

/-- A handler from upstream's answer on, with what it puts into the backfill queue. -/
def resume : Point → Option Record → Db × Outcome × List (Str × Str)
  | .get _ _ true, d => (db.updateUnified d, .answer (d.map Record.unihash) true, [])
  | .get _ _ false, none => (db, .error, [])
  | .get _ _ false, some d =>
    (db.insertUnihash d.method d.taskhash d.unihash, .answer (some d.unihash) true, [])
  | .getOuthash _, d => (db.updateUnified d, .answer (d.map Record.unihash) true, [])
  | .getStream _ _, none => (db, .answer none true, [])
  | .getStream method taskhash, some d => (db, .answer (some d.unihash) true, [(method, taskhash)])
  | .reportOuthash data, d =>
    let r := cfg.storeReport db data ((d.map Record.unihash).getD data.unihash)
    (r.1, r.2, [])
  | .reportGet _, none => (db, .error, [])
  | .reportGet _, some d =>
    (db.insertUnihash d.method d.taskhash d.unihash, .answer (some d.unihash) true, [])
  | .reportReadonly data, d =>
    (db.updateUnified d, .answer (some ((d.map Record.unihash).getD data.unihash)) true, [])

end Config

/-- A request whose handler waits. -/
structure Waiting where
  request : Request
  /-- The unihash of the taskhash when the request came. -/
  before : Option Str
  point : Point
deriving DecidableEq

structure Answer where
  request : Request
  before : Option Str
  unihash : Option Str
  fromUpstream : Bool
deriving DecidableEq

structure Server where
  db : Db
  waiting : List Waiting
  queue : List (Str × Str)
  /-- The item that the backfill worker asks upstream about. -/
  worker : Option (Str × Str)
  /-- The answers given, latest first. -/
  log : List Answer

/-- The method and the taskhash that a request is about. -/
def Request.key : Request → Str × Str
  | .get method taskhash _ => (method, taskhash)
  | .getOuthash method _ taskhash _ => (method, taskhash)
  | .getStream method taskhash => (method, taskhash)
  | .report data _ _ => (data.method, data.taskhash)
  | .reportEquiv method taskhash _ => (method, taskhash)

/-- The state after a handler came to `outcome`, with the other handlers that wait. -/
def Server.after (s : Server) (db : Db) (request : Request) (before : Option Str) (others : List Waiting)
    (puts : List (Str × Str)) : Outcome → Server
  | .answer unihash fromUpstream =>
    { s with
      db := db
      waiting := others
      queue := s.queue ++ puts
      log := ⟨request, before, unihash, fromUpstream⟩ :: s.log }
  | .wait point =>
    { s with
      db := db
      waiting := ⟨request, before, point⟩ :: others
      queue := s.queue ++ puts }
  | .error => { s with db := db, waiting := others, queue := s.queue ++ puts }

inductive Event where
  | arrive (request : Request)
  /-- Upstream answers a waiting handler. -/
  | reply (w : Waiting) (d : Option Record)
  | take
  /-- Upstream answers the backfill worker. -/
  | backfill (d : Option Record)

inductive Step (cfg : Config) : Server → Event → Server → Prop
  | arrive {s : Server} {request : Request} {db : Db} {outcome : Outcome} :
      cfg.handle s.db request = (db, outcome) →
      Step cfg s (.arrive request) (s.after db request
        (s.db.getEquivalent request.key.1 request.key.2) s.waiting [] outcome)
  | reply {s : Server} {w : Waiting} {l₁ l₂ : List Waiting} {d : Option Record} {db : Db}
      {outcome : Outcome} {puts : List (Str × Str)} : s.waiting = l₁ ++ w :: l₂ →
      cfg.resume s.db w.point d = (db, outcome, puts) →
      Step cfg s (.reply w d) (s.after db w.request w.before (l₁ ++ l₂) puts outcome)
  | take {s : Server} {item : Str × Str} {queue : List (Str × Str)} : s.queue = item :: queue →
      s.worker = none → Step cfg s .take { s with queue := queue, worker := some item }
  | backfill {s : Server} {item : Str × Str} {d : Option Record} : s.worker = some item →
      Step cfg s (.backfill d) { s with
        db := match d with
          | some d => s.db.insertUnihash d.method d.taskhash d.unihash
          | none => s.db
        worker := none }

/-- The states of the runs, from a database as `init` says, whose steps are as `ok` says. -/
inductive Reachable (cfg : Config) (init : Db → Prop) (ok : Server → Event → Prop) : Server → Prop
  | start {db : Db} : init db → Reachable cfg init ok ⟨db, [], [], none, []⟩
  | step {s s' : Server} {e : Event} : Reachable cfg init ok s → ok s e → Step cfg s e s' →
      Reachable cfg init ok s'

section After
variable {s : Server} {db : Db} {request : Request} {before : Option Str} {others : List Waiting}
  {puts : List (Str × Str)} {outcome : Outcome}

@[simp]
theorem db_after : (s.after db request before others puts outcome).db = db := by
  cases outcome <;> rfl

theorem mem_waiting_after {w : Waiting}
    (h : w ∈ (s.after db request before others puts outcome).waiting) :
    w ∈ others ∨ ∃ point, outcome = .wait point ∧ w = ⟨request, before, point⟩ := by
  cases outcome with
  | answer => exact .inl h
  | wait point => exact (List.mem_cons.1 h).symm.imp_right fun h => ⟨point, rfl, h⟩
  | error => exact .inl h

/-- The answers before, and at most one new one. -/
theorem log_after (s : Server) (db : Db) (request : Request) (before : Option Str)
    (others : List Waiting) (puts : List (Str × Str)) (outcome : Outcome) :
    (s.after db request before others puts outcome).log = s.log ∨
    ∃ unihash fromUpstream, outcome = .answer unihash fromUpstream ∧
      (s.after db request before others puts outcome).log =
        ⟨request, before, unihash, fromUpstream⟩ :: s.log := by
  cases outcome with
  | answer unihash fromUpstream => exact .inr ⟨unihash, fromUpstream, rfl, rfl⟩
  | wait => exact .inl rfl
  | error => exact .inl rfl

end After

end HashServ
end OpenBmc
