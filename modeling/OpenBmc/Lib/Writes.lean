import Mathlib

/-!
# Tables under a log of writes

A table gives a key a value or none, and a write sets a key or drops it. After a log of writes the
table shows the last write to each key (`run_eq`), so a key that no write is about keeps its value
(`run_of_not_mem`).
-/

namespace OpenBmc
namespace Writes

/-- The key, and its new value, or none where it is dropped. -/
abbrev Write (κ β : Type) := κ × Option β

variable {κ β : Type} [DecidableEq κ]

def put (table : κ → Option β) (w : Write κ β) : κ → Option β := Function.update table w.1 w.2

def run (table : κ → Option β) (log : List (Write κ β)) : κ → Option β := log.foldl put table

/-- What the last write to `k` leaves there. -/
def last (log : List (Write κ β)) (k : κ) : Option (Option β) := log.reverse.lookup k

@[simp] theorem run_nil (table : κ → Option β) : run table [] = table := rfl

theorem run_append (table : κ → Option β) (log log' : List (Write κ β)) :
    run table (log ++ log') = run (run table log) log' := List.foldl_append ..

theorem last_append (log log' : List (Write κ β)) (k : κ) :
    last (log ++ log') k = (last log' k).or (last log k) := by
  rw [last, List.reverse_append, List.lookup_append]
  rfl

theorem last_eq_none_iff {log : List (Write κ β)} {k : κ} :
    last log k = none ↔ k ∉ log.map Prod.fst := by
  rw [last, List.lookup_eq_none_iff]
  simp only [List.mem_reverse, bne_iff_ne, ne_eq, List.mem_map, not_exists, not_and]
  exact ⟨fun h w hw hk => h w hw hk.symm, fun h w hw hk => h w hw hk.symm⟩

theorem mem_of_last {log : List (Write κ β)} {k : κ} {v : Option β} (h : last log k = some v) :
    (k, v) ∈ log := by
  obtain ⟨l, l', hl, -⟩ := List.lookup_eq_some_iff.1 h
  refine List.mem_reverse.1 ?_
  rw [hl]
  exact List.mem_append_right _ List.mem_cons_self

theorem run_eq (table : κ → Option β) (log : List (Write κ β)) (k : κ) :
    run table log k = (last log k).getD (table k) := by
  induction log using List.reverseRecOn with
  | nil => rfl
  | append_singleton log w ih =>
    obtain ⟨x, v⟩ := w
    rw [run_append, last_append]
    by_cases hk : k = x
    · subst hk
      simp [run, put, last, List.lookup_cons_self]
    · have hw : last [(x, v)] k = none := last_eq_none_iff.2 (by simpa using hk)
      rw [hw, Option.none_or, ← ih]
      exact Function.update_of_ne hk _ _

theorem run_of_not_mem {table : κ → Option β} {log : List (Write κ β)} {k : κ}
    (h : k ∉ log.map Prod.fst) : run table log k = table k := by
  rw [run_eq, last_eq_none_iff.2 h]
  rfl

/-- A log that only drops keys. -/
theorem last_drops {ks : List κ} {k : κ} :
    last (ks.map fun x => ((x, none) : Write κ β)) k = if k ∈ ks then some none else none := by
  split
  · rename_i hk
    rcases hl : last (ks.map fun x => ((x, none) : Write κ β)) k with _ | v
    · rw [last_eq_none_iff] at hl
      exact absurd (by simpa using hk) hl
    · obtain ⟨x, -, hx⟩ := List.mem_map.1 (mem_of_last hl)
      rw [← (Prod.mk.inj hx).2]
  · exact last_eq_none_iff.2 (by simpa using ‹k ∉ ks›)

/-- A log that sets each of its keys once. -/
theorem last_sets {l : List (κ × β)} (h : (l.map Prod.fst).Nodup) {k : κ} {v : β} (hk : (k, v) ∈ l) :
    last (l.map fun e => ((e.1, some e.2) : Write κ β)) k = some (some v) := by
  induction l with
  | nil => cases hk
  | cons e l ih =>
    obtain ⟨hn, hl⟩ := List.nodup_cons.1 h
    rw [List.map_cons, ← List.singleton_append, last_append]
    rcases List.mem_cons.1 hk with rfl | hk
    · have hnone : last (l.map fun e => ((e.1, some e.2) : Write κ β)) k = none :=
        last_eq_none_iff.2 (by simpa using hn)
      rw [hnone]
      simp [last, List.lookup_cons_self]
    · rw [ih hl hk]
      rfl

end Writes
end OpenBmc
