import OpenBmc.Lib.Dag
import OpenBmc.Lib.Dict
import OpenBmc.Py.Str

/-!
# Recursive dependencies

Part B of `RunQueueData.prepare` adds, for a task with a `recrdeptask` flag, the named tasks of the
files below its dependencies. `cumulativedeps` collects the files below each task, level by level,
and leaves out the task's own. Sets are lists here, and `Orders` gives the order in which Python goes
through one.
-/

namespace OpenBmc
namespace BitBake
namespace RecursiveDeps
open Py Relation

/-- The run queue before part B. -/
structure RunTasks (Fn : Type) where
  tids : List (Fn × Str)
  depends : Fn × Str → List (Fn × Str)
  /-- The names of the `recrdeptask` flag of each task that has one. -/
  recursivetasks : Dict (Fn × Str) (List Str)
  /-- The tasks of the `recideptask` flag. -/
  recursiveitasks : Dict (Fn × Str) (List (Fn × Str))
  closed : ∀ t ∈ tids, ∀ u ∈ depends t, u ∈ tids
  irrefl : ∀ t, t ∉ depends t
  recursive_mem : ∀ t ∈ recursivetasks, t ∈ tids

/-- An order for the elements of each set. -/
structure Orders (Fn : Type) where
  tids : List (Fn × Str) → List (Fn × Str)
  fns : List Fn → List Fn
  mem_tids : ∀ l x, x ∈ tids l ↔ x ∈ l
  mem_fns : ∀ l x, x ∈ fns l ↔ x ∈ l

variable {Fn : Type} [DecidableEq Fn]

/-! ### The files below each task -/

structure Chains (Fn : Type) where
  deps : Fn × Str → List (Fn × Str)
  cumulativedeps : Fn × Str → List Fn
  next : List (Fn × Str)

/-- The body of the inner loop: `tid` is a dependency of `e.2` that is followed. -/
def collate (c : Chains Fn) (e : (Fn × Str) × (Fn × Str)) : Chains Fn :=
  let tid := e.1
  let dep := e.2
  let deps := Function.update c.deps dep ((c.deps dep).filter (· ≠ tid))
  { deps
    cumulativedeps := Function.update c.cumulativedeps dep
      (c.cumulativedeps dep ++ tid.1 :: c.cumulativedeps tid)
    next := if deps dep = [] then c.next ++ [dep] else c.next }

namespace RunTasks
variable (g : RunTasks Fn) (o : Orders Fn)

def revdeps (tid : Fn × Str) : List (Fn × Str) := g.tids.filter fun t => tid ∈ g.depends t

/-- The edges that a round follows, in its order. -/
def roundEdges (endpoints : List (Fn × Str)) : List ((Fn × Str) × (Fn × Str)) :=
  (o.tids endpoints).flatMap fun tid => (o.tids (g.revdeps tid)).map (Prod.mk tid)

def collateRound (endpoints : List (Fn × Str)) (c : Chains Fn) : Chains Fn :=
  (g.roundEdges o endpoints).foldl collate { c with next := [] }

/-- The loop `while endpoints`; `none` when the fuel does not suffice. -/
def collateRounds : ℕ → List (Fn × Str) → Chains Fn → Option (Chains Fn)
  | 0, _, _ => none
  | fuel + 1, endpoints, c =>
    if endpoints = [] then some c
    else
      let c := g.collateRound o endpoints c
      collateRounds fuel c.next c

def startChains : Chains Fn where
  deps := fun t => if t ∈ g.tids then g.depends t else []
  cumulativedeps := fun _ => []
  next := []

def endpoints : List (Fn × Str) := g.tids.filter fun t => g.depends t = []

/-! ### The loop that adds dependencies -/

/-- `runtaskentries[*].depends`, and the counter of the loop. -/
structure Extra (Fn : Type) where
  depends : Fn × Str → List (Fn × Str)
  extradeps : ℕ

def Extra.add (s : Extra Fn) (tid newtid : Fn × Str) : Extra Fn where
  depends := Function.update s.depends tid (s.depends tid ++ [newtid])
  extradeps := s.extradeps + 1

/-- The task `t:taskname`, for each of the names. -/
def addNamed (tid : Fn × Str) (t : Fn) (s : Extra Fn) (taskname : Str) : Extra Fn :=
  let newtid := (t, taskname)
  if newtid = tid then s
  else if newtid ∈ g.tids ∧ newtid ∉ s.depends tid then s.add tid newtid
  else s

/-- A dependency of another recursive task, where it has one of the names: `newtid.endswith(":" +
taskname)`. -/
def addRecursive (tid newtid : Fn × Str) (s : Extra Fn) (taskname : Str) : Extra Fn :=
  if newtid.2 ≠ taskname then s
  else if newtid ∈ g.tids then s.add tid newtid
  else s

def totaldeps (s : Extra Fn) (tid : Fn × Str) : List (Fn × Str) :=
  let itasks := (g.recursiveitasks.get? tid).getD []
  s.depends tid ++ itasks ++ itasks.flatMap fun dep => if dep ∈ g.tids then s.depends dep else []

/-- The first half of the body: the tasks of the files below. -/
def addFiles (cumulativedeps : Fn × Str → List Fn) (s : Extra Fn) (e : (Fn × Str) × List Str) :
    Extra Fn :=
  let deps := (g.totaldeps s e.1).flatMap cumulativedeps
  (o.fns deps).foldl (fun s t => e.2.foldl (g.addNamed e.1 t) s) s

/-- The second half: what other recursive tasks depend on. -/
def addOthers (s : Extra Fn) (e : (Fn × Str) × List Str) : Extra Fn :=
  let others := (s.depends e.1).filter fun dep => dep ∈ g.recursivetasks
  let deps := (others.flatMap s.depends).filter fun t => t ∉ s.depends e.1
  (o.tids deps).foldl (fun s newtid => e.2.foldl (g.addRecursive e.1 newtid) s) s

def visit (cumulativedeps : Fn × Str → List Fn) (s : Extra Fn) (e : (Fn × Str) × List Str) :
    Extra Fn :=
  g.addOthers o (g.addFiles o cumulativedeps s e) e

def pass (cumulativedeps : Fn × Str → List Fn) (s : Extra Fn) : Extra Fn :=
  g.recursivetasks.entries.foldl (g.visit o cumulativedeps) { s with extradeps := 0 }

/-- The loop `while extradeps`. -/
def passes (cumulativedeps : Fn × Str → List Fn) : ℕ → Extra Fn → Option (Extra Fn)
  | 0, _ => none
  | fuel + 1, s =>
    let s := g.pass o cumulativedeps s
    if s.extradeps = 0 then some s else passes cumulativedeps fuel s

/-- `recursivetasksselfref`. -/
def selfref : List (Fn × Str) := (g.recursivetasks.entries.filter fun e => e.1.2 ∈ e.2).map Prod.fst

/-- `difference_update` for each self-referencing task. -/
def prune (depends : Fn × Str → List (Fn × Str)) : Fn × Str → List (Fn × Str) :=
  g.selfref.foldl (fun depends tid =>
    Function.update depends tid ((depends tid).filter fun t => t ∉ g.selfref)) depends

/-- Part B, with as many rounds as there are tasks, and as many passes as there are dependencies to
add. -/
def partB : Option (Fn × Str → List (Fn × Str)) := do
  let c ← g.collateRounds o (g.tids.length + 1) g.endpoints g.startChains
  let s ← g.passes o c.cumulativedeps (g.recursivetasks.entries.length * g.tids.length + 1)
    { depends := g.depends, extradeps := 0 }
  return g.prune s.depends

end RunTasks
end RecursiveDeps
end BitBake
end OpenBmc
