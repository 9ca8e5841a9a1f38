import OpenBmc.BitBake.Names
import OpenBmc.Lib.Dag
import OpenBmc.Lib.Dict

/-!
# Stamps

A task is current when its stamp is there and is not older than the stamps of the tasks of its recipe
that it depends on, and when these are current themselves. A newer setscene stamp stands for a
dependency. `check_stamp_task` keeps the recursive answers in a cache. It asks whether a time is true,
so that the time 0 counts as no stamp.
-/

namespace OpenBmc
namespace BitBake
namespace Stamps
open Py Names Relation

structure RunTasks where
  tids : List Tid
  depends : Tid → List Tid
  /-- `stampfile_mcfn`, of the name of the task and its file. -/
  stampfile : Str → Str → Str
  /-- The names in `task_deps[taskfn]['nostamp']`. -/
  nostamp : Str → List Str
  closed : ∀ t ∈ tids, ∀ u ∈ depends t, u ∈ tids
  acyclic : ∀ t, ¬ TransGen (fun t u => t ∈ tids ∧ u ∈ depends t) t t

/-- The stamp files, with their times. -/
abbrev Files := Str → Option Int

/-- The truth of what `get_timestamp` returns. -/
def truth (t : Option Int) : Bool := t.any (· ≠ 0)

abbrev Cache := Dict Tid Bool

namespace RunTasks
variable (q : RunTasks) (fs : Files)

/-- The body of the loop over the dependencies; `check` is the recursive call. -/
def checkDep (check : Tid → Cache → Option (Bool × Cache)) (fn : Str) (t1 : Int) (recurse : Bool)
    (s : Bool × Cache) (dep : Tid) : Option (Bool × Cache) :=
  if s.1 = false then some s
  else
    let (_, fn2, taskname2, taskfn2) := split dep
    let t2 := fs (q.stampfile taskname2 taskfn2)
    let t3 := fs (q.stampfile (taskname2 ++ "_setscene".toList) taskfn2)
    if truth t3 ∧ ¬ truth t2 then some s
    else if truth t3 ∧ t2.getD 0 < t3.getD 0 then some s
    else if fn ≠ fn2 then some s
    else if ¬ truth t2 then some (false, s.2)
    else if t1 < t2.getD 0 then some (false, s.2)
    else if recurse = false then some s
    else
      match s.2.get? dep with
      | some iscurrent => some (iscurrent, s.2)
      | none => (check dep s.2).map fun r => (r.1, r.2.set dep r.1)

/-- `none` when the fuel does not suffice for the recursion. -/
def checkStampTask : ℕ → Tid → Option Str → Bool → Cache → Option (Bool × Cache)
  | 0, _, _, _, _ => none
  | fuel + 1, tid, taskname, recurse, cache =>
    let (_, fn, tn, taskfn) := split tid
    let taskname := taskname.getD tn
    match fs (q.stampfile taskname taskfn) with
    | none => some (false, cache)
    | some t1 =>
      if taskname ∈ q.nostamp taskfn then some (false, cache)
      else if "_setscene".toList <:+ taskname then some (true, cache)
      else
        ((q.depends tid).foldlM (q.checkDep fs (fun dep => checkStampTask fuel dep none true) fn t1 recurse)
          (true, cache)).map fun r => (r.1, if recurse then r.2.set tid r.1 else r.2)

/-- A question: a task or its setscene variant, recursive or not. -/
structure Query where
  tid : Tid
  setscene : Bool
  recurse : Bool

def tasknameOf (query : Query) : Str :=
  let taskname := (split query.tid).2.2.1
  if query.setscene then taskname ++ "_setscene".toList else taskname

/-- The call, with fuel for a chain of all tasks. -/
def check (query : Query) (cache : Cache) : Option (Bool × Cache) :=
  q.checkStampTask fs (q.tids.length + 1) query.tid (some (tasknameOf query)) query.recurse cache

/-- The answers of calls that share a cache. -/
def answers : List Query → Cache → Option (List Bool)
  | [], _ => some []
  | query :: queries, cache =>
    (q.check fs query cache).bind fun r => (answers queries r.2).map (r.1 :: ·)

/-! ### What the answers mean -/

/-- The stamp of a task, and of its setscene variant. -/
def stamp (tid : Tid) : Str := q.stampfile (split tid).2.2.1 (split tid).2.2.2

def setsceneStamp (tid : Tid) : Str :=
  q.stampfile ((split tid).2.2.1 ++ "_setscene".toList) (split tid).2.2.2

def Nostamp (tid : Tid) : Prop := (split tid).2.2.1 ∈ q.nostamp (split tid).2.2.2

/-- A dependency in the same recipe that no newer setscene stamp stands for. -/
structure Counts (ts : Files) (tid dep : Tid) : Prop where
  depends : dep ∈ q.depends tid
  recipe : (split tid).2.1 = (split dep).2.1
  superseded : ¬ ∃ t3, ts (q.setsceneStamp dep) = some t3 ∧ ∀ t2, ts (q.stamp dep) = some t2 → t2 < t3

/-- The task is current: its own stamp is in `fs`, those of the dependencies are read from `ts`. A task
that is a setscene variant itself has no dependencies to look at. -/
inductive Current (ts : Files) : Tid → Prop
  | setscene {tid : Tid} {t1 : Int} (hstamp : fs (q.stamp tid) = some t1) (hnostamp : ¬ q.Nostamp tid)
      (hname : "_setscene".toList <:+ (split tid).2.2.1) : Current ts tid
  | task {tid : Tid} {t1 : Int} (hstamp : fs (q.stamp tid) = some t1) (hnostamp : ¬ q.Nostamp tid)
      (hnewer : ∀ dep, q.Counts ts tid dep → ∃ t2, ts (q.stamp dep) = some t2 ∧ t2 ≤ t1)
      (hcurrent : ∀ dep, q.Counts ts tid dep → Current ts dep) : Current ts tid

end RunTasks

/-- Without the stamps of the time 0. -/
def dropZero (fs : Files) : Files := fun f => (fs f).filter (· ≠ 0)

end Stamps
end BitBake
end OpenBmc
