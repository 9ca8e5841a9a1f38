import OpenBmc.BitBake.SceneQueue
import OpenBmc.Py.Str

/-!
# Rehashing

The workers report that the unihash of a task became another. `process_possible_migrations` tells the
signature generator, and then goes through the tasks that depend on the updated ones, each after
its dependencies, and computes the hashes again. A task that was covered, or is being covered, keeps
its unihash, and the hash equivalence server is asked to agree.
-/

namespace OpenBmc
namespace BitBake

/-- What the runqueue and the signature generator know of the tasks. -/
structure SigData (α : Type*) extends TaskGraph α where
  /-- The order in which Python goes through a set. -/
  iter : Finset α → List α
  mem_iter : ∀ s a, a ∈ iter s ↔ a ∈ s
  nodup_iter : ∀ s, (iter s).Nodup
  mc : α → Str
  pn : α → Str
  taskname : α → Str
  basehash : α → Str
  /-- The dependencies that count for the hash, in the order of `sorted`. -/
  runtaskdeps : α → List α
  /-- The checksums of files and the taint, as they are appended to the data of a task. -/
  checksums : α → Str
  sha256 : Str → Str
  runtaskdeps_subset : ∀ tid, ∀ dep ∈ runtaskdeps tid, dep ∈ depends tid

/-- What the server makes of a reported unihash. -/
inductive Reply
  /-- A `ConnectionError`, a `FileNotFoundError` or an `EOFError`. -/
  | unreachable
  /-- "Server unable to handle unihash report". -/
  | unhandled
  | unihash (unihash : Str)

/-- The answers of the hash equivalence server, by the number of the requests before. -/
structure HashServer (α : Type*) where
  /-- `none` when the server cannot be contacted. -/
  getUnihashBatch : Nat → Option (α → Option Str)
  reportUnihashEquiv : Nat → α → Reply

/-- The hashes that the signature generator holds. -/
structure Siggen (α : Type*) where
  taskhash : α → Str
  unitaskhashes : Dict Str (Str × Str)
  requests : Nat

/-- The hashes in `runtaskentries`, the signature generator, and what the workers reported. -/
structure Hashes (α : Type*) where
  hash : α → Str
  unihash : α → Str
  siggen : Siggen α
  updatedTaskhashQueue : List (α × Str)

namespace SigData
variable {α : Type*} [LinearOrder α] (d : SigData α) (server : HashServer α)

/-! ### The signature generator -/

def key (tid : α) : Str := d.mc tid ++ ':' :: d.pn tid ++ ':' :: d.taskname tid

def setUnihash (s : Siggen α) (tid : α) (unihash : Str) : Siggen α :=
  { s with unitaskhashes := s.unitaskhashes.set (d.key tid) (s.taskhash tid, unihash) }

/-- `_get_unihash`. -/
def lookupUnihash (s : Siggen α) (tid : α) : Option Str :=
  (s.unitaskhashes.get? (d.key tid)).bind fun e => if e.1 = s.taskhash tid then some e.2 else none

def getCachedUnihash (s : Siggen α) (tid : α) : Option Str :=
  if d.runqSetsceneTids ≠ [] ∧ d.Real tid then some (s.taskhash tid) else d.lookupUnihash s tid

/-- An empty string counts as none. -/
def truthy (unihash : Option Str) : Option Str := unihash.filter (· ≠ [])

/-- The unihash of a task that is not cached. -/
def queried (s : Siggen α) (tid : α) : Str :=
  (truthy ((server.getUnihashBatch s.requests).bind (· tid))).getD (s.taskhash tid)

def queryTids (s : Siggen α) (tids : List α) : List α :=
  tids.filter fun tid => truthy (d.getCachedUnihash s tid) = none

/-- The signature generator after a query, and the unihash of each task. -/
def getUnihashes (s : Siggen α) (tids : List α) : Siggen α × (α → Str) :=
  ((d.queryTids s tids).foldl (fun t tid => d.setUnihash t tid (queried server s tid))
      { s with requests := if d.queryTids s tids = [] then s.requests else s.requests + 1 },
    fun tid => (truthy (d.getCachedUnihash s tid)).getD (queried server s tid))

def getUnihash (s : Siggen α) (tid : α) : Siggen α × Str :=
  ((d.getUnihashes server s [tid]).1, (d.getUnihashes server s [tid]).2 tid)

/-- The data of a task, as far as the unihashes of its dependencies. -/
def depData (s : Siggen α) (tid : α) : Siggen α × Str :=
  (d.runtaskdeps tid).foldl
    (fun r dep => ((d.getUnihash server r.1 dep).1, r.2 ++ (d.getUnihash server r.1 dep).2))
    (s, d.basehash tid)

def getTaskhash (s : Siggen α) (tid : α) : Siggen α × Str :=
  let data := d.depData server s tid
  let h := d.sha256 (data.2 ++ d.checksums tid)
  ({ data.1 with taskhash := Function.update data.1.taskhash tid h }, h)

/-- `report_unihash_equiv`, and what it returns. -/
def reportUnihashEquiv (s : Siggen α) (tid : α) (wantedUnihash currentUnihash : Str) :
    Siggen α × Bool :=
  let t := { s with requests := s.requests + 1 }
  match server.reportUnihashEquiv s.requests tid with
  | .unreachable => (t, false)
  | .unhandled => (t, false)
  | .unihash finalunihash =>
    if finalunihash = currentUnihash then (t, false)
    else if finalunihash = wantedUnihash then (d.setUnihash t tid finalunihash, true)
    else (t, false)

/-! ### The updates -/

/-- The task, and those deferred against it. -/
def torehash (sqDeferred : Dict α α) (tid : α) : List α :=
  tid :: sqDeferred.keys.filter fun deftid => sqDeferred.get? deftid = some tid

def rehashTid (unihash : Str) (s : Hashes α × Finset α) (hashtid : α) : Hashes α × Finset α :=
  ({ s.1 with
      unihash := Function.update s.1.unihash hashtid unihash
      siggen := d.setUnihash s.1.siggen hashtid unihash },
    insert hashtid s.2)

/-- The body of the loop over `updated_taskhash_queue`: `running` are the tasks whose update has to
wait. The second component is `toprocess`. -/
def takeUpdate (running : Finset α) (sqDeferred : Dict α α) (s : Hashes α × Finset α)
    (update : α × Str) : Hashes α × Finset α :=
  if update.1 ∈ running then s
  else
    let s := ({ s.1 with updatedTaskhashQueue := s.1.updatedTaskhashQueue.erase update }, s.2)
    if update.2 ≠ s.1.unihash update.1 then
      (torehash sqDeferred update.1).foldl (d.rehashTid update.2) s
    else s

def takeUpdates (running : Finset α) (sqDeferred : Dict α α) (h : Hashes α) : Hashes α × Finset α :=
  h.updatedTaskhashQueue.foldl (d.takeUpdate running sqDeferred) (h, ∅)

/-! ### The tasks that depend on them -/

/-- The loop that gathers `total`, with at most `n` rounds. -/
def gather : Nat → Finset α → Finset α → Option (Finset α)
  | 0, _, _ => none
  | n + 1, total, next =>
    if next = ∅ then some total
    else gather n (total ∪ next) (next.biUnion d.revdeps \ (total ∪ next))

structure Rehashing (α : Type*) where
  hashes : Hashes α
  total : Finset α
  next : Finset α
  changed : Finset α
  /-- The calls of `get_taskhash`, and what `report_unihash_equiv` returned. -/
  recomputed : List α
  reports : List (α × Bool)

/-- A task is left for later while a dependency is in `total`. The test looks at the dependencies of
`p`, which the loop before has left behind. -/
def waits (p : Option α) (total : Finset α) (tid : α) : Prop :=
  (∃ q ∈ p, d.depends q ≠ []) ∧ ∃ dep ∈ d.depends tid, dep ∈ total

instance (p : Option α) (total : Finset α) (tid : α) : Decidable (d.waits p total tid) :=
  inferInstanceAs (Decidable (_ ∧ _))

/-- The tasks of the round whose hash is computed. -/
def readyTids (p : Option α) (s : Rehashing α) : List α :=
  (d.iter s.next).filter fun tid => ¬ d.waits p s.total tid

/-- The signature generator and `ready`, after the hashes of the round were computed. -/
def hashReady (tids : List α) (s : Siggen α) : Siggen α × List (α × Str) :=
  tids.foldl
    (fun r tid => ((d.getTaskhash server r.1 tid).1, r.2 ++ [(tid, (d.getTaskhash server r.1 tid).2)]))
    (s, [])

/-- The body of the loop over `ready`; `kept` are the tasks in `scenequeue_covered` or `sq_live`. -/
def applyHash (kept : Finset α) (unihashes : α → Str) (s : Rehashing α) (ready : α × Str) :
    Rehashing α :=
  let tid := ready.1
  let origuni := s.hashes.unihash tid
  let newuni := unihashes tid
  let s :=
    if newuni = origuni then s
    else if tid ∈ kept then
      let report := d.reportUnihashEquiv server s.hashes.siggen tid origuni newuni
      { s with
        hashes := { s.hashes with siggen := report.1 }, reports := s.reports ++ [(tid, report.2)] }
    else { s with
      hashes := { s.hashes with
        hash := Function.update s.hashes.hash tid ready.2
        unihash := Function.update s.hashes.unihash tid newuni }
      changed := insert tid s.changed }
  { s with
    next := (s.next ∪ d.revdeps tid) ∩ s.total.erase tid
    total := s.total.erase tid }

/-- A round of the loop `while next`. -/
def rehashRound (p : Option α) (kept : Finset α) (s : Rehashing α) : Rehashing α :=
  let tids := d.readyTids p s
  let hashed := d.hashReady server tids s.hashes.siggen
  let unihashes := d.getUnihashes server hashed.1 (hashed.2.map Prod.fst)
  hashed.2.foldl (d.applyHash server kept unihashes.2)
    { s with
      hashes := { s.hashes with siggen := unihashes.1 }
      next := ∅
      recomputed := s.recomputed ++ tids }

def rehashLoop (p : Option α) (kept : Finset α) : Nat → Rehashing α → Option (Rehashing α)
  | 0, _ => none
  | n + 1, s =>
    if s.next = ∅ then some s else rehashLoop p kept n (d.rehashRound server p kept s)

/-- The tasks of `total` that come first. -/
def firstTids (total : Finset α) : Finset α :=
  total.filter fun p => d.depends p = [] ∨ ∀ dep ∈ d.depends p, dep ∉ total

/-- The first half of `process_possible_migrations`, with at most `n` rounds of each loop. -/
def rehash (running : Finset α) (sqDeferred : Dict α α) (kept : Finset α) (n : Nat) (h : Hashes α) :
    Option (Rehashing α) :=
  let taken := d.takeUpdates running sqDeferred h
  (d.gather n ∅ (taken.2.biUnion d.revdeps)).bind fun total =>
    d.rehashLoop server (d.iter total).getLast? kept n
      { hashes := taken.1, total, next := d.firstTids total, changed := ∅, recomputed := [],
        reports := [] }

end SigData
end BitBake
end OpenBmc
