import OpenBmc.Lib.Dict
import OpenBmc.Lib.Worklist
import OpenBmc.Py.Sorted
import Mathlib.Algebra.BigOperators.Group.Finset.Basic
import Mathlib.Algebra.Order.BigOperators.Group.Finset

/-!
# The base hash of a task

`generateDependencyHash` hashes, for every task, its value and the names and values of the variables
in the closure of its dependencies. The strings are joined without delimiters, so what is hashed
determines them only where their lengths are known (`hashed_unambiguous`).
-/

namespace OpenBmc
namespace BitBake
open Py Worklist

/-- What `generate_dependencies` returns: the dependencies and values of the variables that are
reached from the tasks, without the ignored variables. -/
structure Gendeps where
  tasklist : List Str
  ignoredVars : Finset Str
  /-- The keys of `gendeps` and of `lookupcache`. -/
  nodes : Finset Str
  gendeps : Str → Finset Str
  lookupcache : Str → Option Str
  task_mem : ∀ task ∈ tasklist, task ∈ nodes
  closed : ∀ key ∈ nodes, gendeps key ⊆ nodes
  not_ignored : ∀ key ∈ nodes, Disjoint (gendeps key) ignoredVars

/-- `"".join(data).encode("utf-8")`. -/
def encode (data : Str) : ByteArray := (String.ofList data).toByteArray

theorem encode_inj {s t : Str} : encode s = encode t ↔ s = t := by
  rw [encode, encode, String.toByteArray_inj]
  exact ⟨fun h => String.ofList_injective h, fun h => by rw [h]⟩

namespace Gendeps
variable (g : Gendeps) (task : Str)

/-- The variables that the task depends on. -/
def seen : Finset Str := closure g.gendeps g.nodes (g.gendeps task)

def alldeps : List Str := sorted (g.seen task)

def data : List Str :=
  (g.lookupcache task).toList ++ (g.alldeps task).flatMap fun dep => dep :: (g.lookupcache dep).toList

/-- The bytes that are hashed. -/
def hashed : ByteArray := encode (g.data task).flatten

/-- `generate_dependency_hash`, with the hash function `hexdigest`. -/
def generateDependencyHash (hexdigest : ByteArray → Str) (fn : Str) :
    Dict Str (Finset Str) × Dict Str Str :=
  (.ofList (g.tasklist.map fun task => (task, g.seen task)),
    .ofList (g.tasklist.map fun task => (fn ++ ':' :: task, hexdigest (g.hashed task))))

/-- A value as it is hashed: absent ones like empty ones. -/
def value (key : Str) : Str := (g.lookupcache key).getD []

/-- The hashed strings: the value of the task, then the name and the value of every dependency. -/
def strings : List Str := g.value task :: (g.alldeps task).flatMap fun dep => [dep, g.value dep]

variable {g task}

theorem seen_subset (h : task ∈ g.nodes) : g.seen task ⊆ g.nodes :=
  closure_subset g.closed (g.closed task h)

theorem not_mem_ignoredVars (h : task ∈ g.nodes) {dep : Str} (hdep : dep ∈ g.seen task) :
    dep ∉ g.ignoredVars := by
  obtain ⟨a, ha, hreach⟩ := (mem_closure g.closed (g.closed task h)).1 hdep
  have hmem : ∀ b, Reach g.gendeps a b → ∃ c ∈ g.nodes, b ∈ g.gendeps c := by
    intro b hb
    induction hb with
    | refl => exact ⟨task, h, ha⟩
    | tail hab hbc _ =>
      exact ⟨_, reach_mem_of_closed g.closed (g.closed task h ha) hab, hbc⟩
  obtain ⟨c, hc, hd⟩ := hmem dep hreach
  exact Finset.disjoint_left.1 (g.not_ignored c hc) hd

theorem flatten_toList (key : Str) : (g.lookupcache key).toList.flatten = g.value key := by
  unfold value
  cases g.lookupcache key <;> simp

theorem flatten_strings : (g.strings task).flatten = (g.data task).flatten := by
  have hdeps : ∀ deps : List Str, (deps.flatMap fun dep => [dep, g.value dep]).flatten =
      (deps.flatMap fun dep => dep :: (g.lookupcache dep).toList).flatten := by
    intro deps
    induction deps with
    | nil => rfl
    | cons dep deps ih => simp [ih, flatten_toList]
  simp [strings, data, hdeps, flatten_toList]

theorem hashed_eq_iff {g' : Gendeps} {task' : Str} : g.hashed task = g'.hashed task' ↔
    (g.strings task).flatten = (g'.strings task').flatten := by
  rw [hashed, hashed, encode_inj, flatten_strings, flatten_strings]

theorem length_strings : (g.strings task).length = 2 * (g.seen task).card + 1 := by
  have hdeps : ∀ deps : List Str, (deps.flatMap fun dep => [dep, g.value dep]).length =
      2 * deps.length := by
    intro deps
    induction deps with
    | nil => rfl
    | cons dep deps ih => simp [ih]; omega
  simp [strings, hdeps, alldeps]

end Gendeps

/-! ### What the hashed bytes determine -/

/-- The same dependencies with the same values, absent ones counted as empty. -/
structure Same (g g' : Gendeps) (task task' : Str) : Prop where
  value : g.value task = g'.value task'
  seen : g.seen task = g'.seen task'
  values : ∀ dep ∈ g.seen task, g.value dep = g'.value dep

/-- Dependencies may be new, the others and the task have the same values. -/
structure Extended (g g' : Gendeps) (task task' : Str) : Prop where
  value : g.value task = g'.value task'
  seen : g.seen task ⊆ g'.seen task'
  values : ∀ dep ∈ g.seen task, g.value dep = g'.value dep

/-- As many strings are hashed, and all but one of them, at the same place, are as long. -/
def SameLengths (g g' : Gendeps) (task task' : Str) : Prop :=
  (g.seen task).card = (g'.seen task').card ∧
    ∃ k, ((g.strings task).map List.length).eraseIdx k =
      ((g'.strings task').map List.length).eraseIdx k

variable {g g' : Gendeps} {task task' : Str}

theorem same_of_strings (h : g.strings task = g'.strings task') : Same g g' task task' := by
  have hdeps : ∀ deps deps' : List Str, (deps.flatMap fun dep => [dep, g.value dep]) =
      (deps'.flatMap fun dep => [dep, g'.value dep]) →
      deps = deps' ∧ ∀ dep ∈ deps, g.value dep = g'.value dep := by
    intro deps deps' h
    induction deps generalizing deps' with
    | nil =>
      cases deps' with
      | nil => simp
      | cons dep deps' => simp at h
    | cons dep deps ih =>
      cases deps' with
      | nil => simp at h
      | cons dep' deps' =>
        simp only [List.flatMap_cons, List.cons_append, List.nil_append, List.cons.injEq] at h
        obtain ⟨rfl, hv, h⟩ := h
        obtain ⟨rfl, hvs⟩ := ih deps' h
        exact ⟨rfl, List.forall_mem_cons.2 ⟨hv, hvs⟩⟩
  obtain ⟨hv, h⟩ := List.cons.inj h
  obtain ⟨hs, hvs⟩ := hdeps _ _ h
  exact ⟨hv, sorted_inj.1 hs, fun dep hdep => hvs dep (mem_sorted.2 hdep)⟩

theorem eq_of_eraseIdx {l l' : List Nat} (hlen : l.length = l'.length) (hsum : l.sum = l'.sum) {k : Nat}
    (h : l.eraseIdx k = l'.eraseIdx k) : l = l' := by
  induction l generalizing l' k with
  | nil => exact (List.length_eq_zero_iff.1 hlen.symm).symm
  | cons a l ih =>
    cases l' with
    | nil => simp at hlen
    | cons a' l' =>
      simp only [List.length_cons, List.sum_cons, Nat.add_right_cancel_iff] at hlen hsum
      cases k with
      | zero =>
        simp only [List.eraseIdx_cons_zero] at h
        subst h
        rw [Nat.add_right_cancel hsum]
      | succ k =>
        simp only [List.eraseIdx_cons_succ, List.cons.injEq] at h
        obtain ⟨rfl, h⟩ := h
        rw [ih hlen (Nat.add_left_cancel hsum) h]

theorem same_of_sameLengths (h : g.hashed task = g'.hashed task')
    (hl : SameLengths g g' task task') : Same g g' task task' := by
  obtain ⟨hcard, k, hk⟩ := hl
  have hflat := Gendeps.hashed_eq_iff.1 h
  have hlen : (g.strings task).length = (g'.strings task').length := by
    rw [Gendeps.length_strings, Gendeps.length_strings, hcard]
  have hsum : ((g.strings task).map List.length).sum = ((g'.strings task').map List.length).sum := by
    rw [← List.length_flatten, ← List.length_flatten, hflat]
  exact same_of_strings (List.eq_iff_flatten_eq.2
    ⟨hflat, eq_of_eraseIdx (by simpa using hlen) hsum hk⟩)

theorem length_hashed : (g.strings task).flatten.length =
    (g.value task).length + ∑ dep ∈ g.seen task, (dep.length + (g.value dep).length) := by
  have hdeps : ∀ deps : List Str, (deps.flatMap fun dep => [dep, g.value dep]).flatten.length =
      (deps.map fun dep => dep.length + (g.value dep).length).sum := by
    intro deps
    induction deps with
    | nil => rfl
    | cons dep deps ih =>
      simp only [List.flatMap_cons, List.flatten_append, List.length_append, ih, List.map_cons,
        List.sum_cons]
      simp
  rw [Gendeps.strings, List.flatten_cons, List.length_append, hdeps, Finset.sum, ← coe_sorted]
  rfl

/-- New dependencies make what is hashed longer. -/
theorem same_of_extended (h : g.hashed task = g'.hashed task') (he : Extended g g' task task')
    (hname : [] ∉ g'.seen task') : Same g g' task task' := by
  have hlen := congrArg List.length (Gendeps.hashed_eq_iff.1 h)
  rw [length_hashed, length_hashed, he.value] at hlen
  have hsum : ∑ dep ∈ g.seen task, (dep.length + (g'.value dep).length) =
      ∑ dep ∈ g'.seen task', (dep.length + (g'.value dep).length) := by
    rw [← Nat.add_left_cancel hlen]
    exact Finset.sum_congr rfl fun dep hdep => by rw [he.values dep hdep]
  refine ⟨he.value, he.seen.antisymm fun dep hdep => ?_, he.values⟩
  by_contra hnot
  have hlt := Finset.sum_lt_sum_of_subset he.seen hdep hnot
    (f := fun dep => dep.length + (g'.value dep).length)
    (by
      have : dep ≠ [] := fun hd => hname (hd ▸ hdep)
      have := List.length_pos_iff.2 this
      omega)
    (fun _ _ _ => Nat.zero_le _)
  omega

/-- Equal hashed bytes come from equal values and dependencies, absent values counted as empty,
where all but one of the strings are as long, and where the dependencies of one task are those of
the other and new ones. -/
theorem hashed_unambiguous (h : g.hashed task = g'.hashed task') :
    (SameLengths g g' task task' → Same g g' task task') ∧
      ([] ∉ g'.seen task' → Extended g g' task task' → Same g g' task task') :=
  ⟨same_of_sameLengths h, fun hname he => same_of_extended h he hname⟩

section Sample
namespace Sample

/-- A task `t` with the dependencies `A` and `B`. -/
def gendeps (lookupcache : Str → Option Str) : Gendeps where
  tasklist := [['t']]
  ignoredVars := ∅
  nodes := {['t'], ['A'], ['B']}
  gendeps key := if key = ['t'] then {['A'], ['B']} else ∅
  lookupcache := lookupcache
  task_mem := by decide
  closed := by decide
  not_ignored := by simp

end Sample

/-- An absent value is hashed as an empty one. -/
theorem absent_as_empty : Same (Sample.gendeps fun _ => none) (Sample.gendeps fun _ => some [])
    ['t'] ['t'] :=
  (hashed_unambiguous (by decide +kernel)).1 ⟨by decide +kernel, 0, by decide +kernel⟩

/-- With the dependencies `A` and `B` of one task, the values `xB` and empty are hashed as `x` and
`B` are, and an absent value as an empty one. -/
theorem values_run_together :
    ((Sample.gendeps fun key => if key = ['A'] then some ['x', 'B'] else some []).hashed ['t'] =
      (Sample.gendeps fun key => if key = ['A'] then some ['x'] else if key = ['B'] then some ['B']
        else some []).hashed ['t'] ∧ some ['x', 'B'] ≠ some ['x']) ∧
    (Sample.gendeps fun _ => none).hashed ['t'] = (Sample.gendeps fun _ => some []).hashed ['t'] ∧
      (none : Option Str) ≠ some [] := by
  decide +kernel

end Sample

end BitBake
end OpenBmc
