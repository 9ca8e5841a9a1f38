import OpenBmc.BitBake.Names
import OpenBmc.Lib.Dag
import OpenBmc.Lib.Dict
import OpenBmc.Py.Sorted

/-!
# Deferred setscene tasks

Tasks of several multiconfigs may have the same sstate object. `hashes` records the first task of each
`pending_hash_index`, and `sq_deferred` the task that a later one waits for. The index is the PN and
the unihash around the literal text `taskname`: the name of the task is not in it. A unihash may change
after it was recorded.
-/

namespace OpenBmc
namespace BitBake
namespace Deferral
open Py Names Relation

structure RunData where
  /-- `dataCaches[mc].pkg_fn[taskfn]`. -/
  pkgFn : Str → Str → Str
  /-- The keys of `sq_revdeps`. -/
  setsceneTids : Finset Tid

structure State where
  /-- `runtaskentries[tid].unihash`. -/
  unihash : Tid → Str
  hashes : Dict Str Tid
  sqDeferred : Dict Tid Tid

/-- `t` is deferred after `u`. -/
def State.After (s : State) (t u : Tid) : Prop := s.sqDeferred.get? t = some u

instance (s : State) (t u : Tid) : Decidable (s.After t u) :=
  inferInstanceAs (Decidable (_ = _))

namespace RunData
variable (d : RunData)

def pn (tid : Tid) : Str :=
  let (mc, _, _, taskfn) := split tid
  d.pkgFn mc taskfn

def pendingHashIndex (unihash : Tid → Str) (tid : Tid) : Str :=
  let pn := d.pn tid
  let h := unihash tid
  pn ++ ":".toList ++ "taskname".toList ++ h

def multiconfigs : Finset Str := d.setsceneTids.image fun tid : Tid => mcFromTid tid.1

/-- The order of `for mc in sorted(multiconfigs): for tid in sorted(tids)`. -/
def byMulticonfig (tids : Finset Tid) : List Tid :=
  (sorted d.multiconfigs).flatMap fun mc => (sorted tids).filter fun tid : Tid => mcFromTid tid.1 = mc

/-- The body of the last loop of `build_scenequeue_data`. -/
def pairUp (s : State) (tid : Tid) : State :=
  let h := d.pendingHashIndex s.unihash tid
  match s.hashes.get? h with
  | none => { s with hashes := s.hashes.set h tid }
  | some first => { s with sqDeferred := s.sqDeferred.set tid first }

def build (unihash : Tid → Str) : State :=
  (d.byMulticonfig d.setsceneTids).foldl d.pairUp { unihash, hashes := .empty, sqDeferred := .empty }

/-- The body of the loop of `process_possible_migrations` that defers. -/
def redefer (s : State) (tid : Tid) : State :=
  match s.hashes.get? (d.pendingHashIndex s.unihash tid) with
  | none => s
  | some first => if tid ≠ first then { s with sqDeferred := s.sqDeferred.set tid first } else s

end RunData

/-- The body of the loop of `task_completeoutright`, with `found`. -/
def handOverTo (task : Tid) (s : State × Option Tid) (t : Tid) : State × Option Tid :=
  if s.1.After t task then
    match s.2 with
    | none => ({ s.1 with sqDeferred := s.1.sqDeferred.erase t }, some t)
    | some found => ({ s.1 with sqDeferred := s.1.sqDeferred.set t found }, some found)
  else s

def handOver (s : State) (task : Tid) : State :=
  ((sorted s.sqDeferred.keys.toFinset).foldl (handOverTo task) (s, none)).1

/-- What happens to the deferred tasks after the set-up. -/
inductive Event
  /-- An entry of `updated_taskhash_queue`: the tasks that are deferred after `tid` go with it. -/
  | report (tid : Tid) (unihash : Str)
  /-- A task that depends on such a one is rehashed. -/
  | rehash (tid : Tid) (unihash : Str)
  | redefer (tid : Tid)
  | complete (task : Tid)
  /-- `del sq_deferred[tid]`: the task is run, skipped, or forced. -/
  | drop (tid : Tid)

def step (d : RunData) (s : State) : Event → State
  | .report tid unihash =>
    { s with unihash := fun t => if t = tid ∨ s.After t tid then unihash else s.unihash t }
  | .rehash tid unihash => { s with unihash := Function.update s.unihash tid unihash }
  | .redefer tid => d.redefer s tid
  | .complete task => handOver s task
  | .drop tid => { s with sqDeferred := s.sqDeferred.erase tid }

/-! ### What is paired -/

def taskname (tid : Tid) : Str := (split tid).2.2.1

/-- The same sstate object. -/
def Same (d : RunData) (unihash : Tid → Str) (t u : Tid) : Prop :=
  d.pn t = d.pn u ∧ taskname t = taskname u ∧ unihash t = unihash u

/-- The PN of `u` and the unihash of `t` contain the text `:taskname` around the same text. -/
def Straddle (d : RunData) (unihash : Tid → Str) (t u : Tid) : Prop :=
  ∃ w, d.pn u = d.pn t ++ ":taskname".toList ++ w ∧ unihash t = w ++ ":taskname".toList ++ unihash u

/-- Two tasks that the index cannot tell apart: those of one PN with one unihash and different names.
A PN or a unihash that has the text of the index in it may do the same. -/
def Clash (d : RunData) (unihash : Tid → Str) (t u : Tid) : Prop :=
  d.pn t = d.pn u ∧ unihash t = unihash u ∧ taskname t ≠ taskname u ∨
    Straddle d unihash t u ∨ Straddle d unihash u t

/-- The condition on the state before a task is deferred again: the task recorded under its index
still has that index, does not clash with it, and does not wait for it. -/
def Fits (d : RunData) (s : State) (tid : Tid) : Prop :=
  ∀ first, s.hashes.get? (d.pendingHashIndex s.unihash tid) = some first → first ≠ tid →
    d.pendingHashIndex s.unihash first = d.pendingHashIndex s.unihash tid ∧
      ¬ Clash d s.unihash tid first ∧ ¬ TransGen s.After first tid

/-- The states after the set-up, where each `redefer` meets the condition. -/
inductive Reach (d : RunData) (unihash : Tid → Str) : State → Prop
  | build : Reach d unihash (d.build unihash)
  | step {s : State} (e : Event) (h : Reach d unihash s) (hfits : ∀ tid, e = .redefer tid → Fits d s tid) :
      Reach d unihash (step d s e)

end Deferral
end BitBake
end OpenBmc
