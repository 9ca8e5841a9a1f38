import Mathlib

/-!
# Dictionaries in insertion order

`Dict κ β` lists its keys in the order of their first insertion: assigning to a present key keeps
the key's place, a deleted and reinserted key goes to the end. No key occurs twice, by
construction. `get?_set` and `get?_erase` are the equations the other modules compute with; `ofList`
is the dictionary a list of assignments leaves.
-/

namespace OpenBmc

structure Dict (κ β : Type*) where
  entries : List (κ × β)
  nodup : (entries.map Prod.fst).Nodup

namespace Dict
variable {κ β γ : Type*}

@[ext] theorem ext {d d' : Dict κ β} (h : d.entries = d'.entries) : d = d' := by
  cases d; cases d'; simpa using h

instance [DecidableEq κ] [DecidableEq β] : DecidableEq (Dict κ β) := fun d d' =>
  decidable_of_iff (d.entries = d'.entries) ⟨ext, congrArg entries⟩

def empty : Dict κ β := ⟨[], List.nodup_nil⟩

def keys (d : Dict κ β) : List κ := d.entries.map Prod.fst

def values (d : Dict κ β) : List β := d.entries.map Prod.snd

theorem keys_nodup (d : Dict κ β) : d.keys.Nodup := d.nodup

@[simp] theorem entries_empty : (empty : Dict κ β).entries = [] := rfl
@[simp] theorem keys_empty : (empty : Dict κ β).keys = [] := rfl
@[simp] theorem values_empty : (empty : Dict κ β).values = [] := rfl

@[simp] theorem length_keys (d : Dict κ β) : d.keys.length = d.entries.length := List.length_map ..
@[simp] theorem length_values (d : Dict κ β) : d.values.length = d.entries.length :=
  List.length_map ..

theorem mem_keys_of_mem_entries {d : Dict κ β} {e : κ × β} (h : e ∈ d.entries) : e.1 ∈ d.keys :=
  List.mem_map_of_mem h

theorem mem_values_of_mem_entries {d : Dict κ β} {e : κ × β} (h : e ∈ d.entries) :
    e.2 ∈ d.values :=
  List.mem_map_of_mem h

/-- The same keys in the same order, with every value rewritten. -/
def mapValues (f : κ → β → γ) (d : Dict κ β) : Dict κ γ where
  entries := d.entries.map fun e => (e.1, f e.1 e.2)
  nodup := by rw [List.map_map]; exact d.nodup

@[simp] theorem keys_mapValues (f : κ → β → γ) (d : Dict κ β) : (d.mapValues f).keys = d.keys := by
  simp [keys, mapValues, Function.comp_def]

theorem values_mapValues (f : κ → β → γ) (d : Dict κ β) :
    (d.mapValues f).values = d.entries.map fun e => f e.1 e.2 := by
  simp [values, mapValues, Function.comp_def]

variable [DecidableEq κ]

def get? (d : Dict κ β) (k : κ) : Option β := d.entries.lookup k

instance : Membership κ (Dict κ β) := ⟨fun d k => k ∈ d.keys⟩

instance (d : Dict κ β) (k : κ) : Decidable (k ∈ d) := inferInstanceAs (Decidable (k ∈ d.keys))

omit [DecidableEq κ] in
theorem mem_iff_mem_keys {d : Dict κ β} {k : κ} : k ∈ d ↔ k ∈ d.keys := Iff.rfl

@[simp] theorem get?_empty (k : κ) : (empty : Dict κ β).get? k = none := rfl

theorem lookup_cons_ite (k : κ) (e : κ × β) (l : List (κ × β)) :
    (e :: l).lookup k = if k = e.1 then some e.2 else l.lookup k := by
  obtain ⟨k', v⟩ := e
  rw [List.lookup_cons]
  by_cases h : k = k'
  · simp [h]
  · simp [h, beq_eq_false_iff_ne.2 h]

theorem lookup_eq_some_iff_mem {l : List (κ × β)} (hn : (l.map Prod.fst).Nodup) {k : κ} {v : β} :
    l.lookup k = some v ↔ (k, v) ∈ l := by
  induction l with
  | nil => simp
  | cons e l ih =>
    obtain ⟨hne, hn⟩ := List.nodup_cons.1 hn
    rw [lookup_cons_ite, List.mem_cons, Prod.ext_iff]
    by_cases hk : k = e.1
    · have hout : (k, v) ∉ l := fun h => hne (hk ▸ List.mem_map.2 ⟨_, h, rfl⟩)
      simp [hk, hk ▸ hout, eq_comm]
    · simp [hk, ih hn]

theorem get?_eq_some_iff {d : Dict κ β} {k : κ} {v : β} : d.get? k = some v ↔ (k, v) ∈ d.entries :=
  lookup_eq_some_iff_mem d.nodup

theorem mem_iff_get?_isSome {d : Dict κ β} {k : κ} : k ∈ d ↔ ∃ v, d.get? k = some v := by
  simp only [get?_eq_some_iff, mem_iff_mem_keys, keys, List.mem_map]
  exact ⟨fun ⟨e, he, hk⟩ => ⟨e.2, hk ▸ he⟩, fun ⟨v, hv⟩ => ⟨_, hv, rfl⟩⟩

theorem get?_eq_none_iff {d : Dict κ β} {k : κ} : d.get? k = none ↔ k ∉ d := by
  rw [mem_iff_get?_isSome]
  cases d.get? k <;> simp

theorem mem_of_get? {d : Dict κ β} {k : κ} {v : β} (h : d.get? k = some v) : k ∈ d :=
  mem_iff_get?_isSome.2 ⟨v, h⟩

theorem mem_values_of_get? {d : Dict κ β} {k : κ} {v : β} (h : d.get? k = some v) : v ∈ d.values :=
  mem_values_of_mem_entries (get?_eq_some_iff.1 h)

theorem mem_values_iff {d : Dict κ β} {v : β} : v ∈ d.values ↔ ∃ k, d.get? k = some v := by
  simp [values, get?_eq_some_iff]

@[simp] theorem get?_mapValues (f : κ → β → γ) (d : Dict κ β) (k : κ) :
    (d.mapValues f).get? k = (d.get? k).map (f k) := by
  show (d.entries.map fun e => (e.1, f e.1 e.2)).lookup k = (d.entries.lookup k).map (f k)
  induction d.entries with
  | nil => rfl
  | cons e l ih =>
    by_cases hk : k = e.1
    · simp [lookup_cons_ite, hk]
    · simp [lookup_cons_ite, hk, ih]

/-! ### Assignment and deletion -/

def setEntries (k : κ) (v : β) : List (κ × β) → List (κ × β)
  | [] => [(k, v)]
  | e :: l => if e.1 = k then (k, v) :: l else e :: setEntries k v l

theorem keys_setEntries (k : κ) (v : β) (l : List (κ × β)) :
    (setEntries k v l).map Prod.fst =
      if k ∈ l.map Prod.fst then l.map Prod.fst else l.map Prod.fst ++ [k] := by
  induction l with
  | nil => rfl
  | cons e l ih =>
    by_cases hk : e.1 = k
    · simp [setEntries, hk]
    · simp only [setEntries, hk, if_false, List.map_cons, ih, List.mem_cons, Ne.symm hk, false_or]
      split <;> rfl

theorem lookup_setEntries (k k' : κ) (v : β) (l : List (κ × β)) :
    (setEntries k v l).lookup k' = if k' = k then some v else l.lookup k' := by
  induction l with
  | nil => by_cases hk : k' = k <;> simp [setEntries, hk]
  | cons e l ih =>
    by_cases he : e.1 = k
    · subst he
      by_cases hk : k' = e.1 <;> simp [setEntries, lookup_cons_ite, hk]
    · by_cases hk : k' = e.1
      · simp [setEntries, lookup_cons_ite, he, hk]
      · simp [setEntries, lookup_cons_ite, he, hk, ih]

/-- `d[k] = v`. -/
def set (d : Dict κ β) (k : κ) (v : β) : Dict κ β where
  entries := setEntries k v d.entries
  nodup := by
    rw [keys_setEntries]
    split
    · exact d.nodup
    · rename_i hk
      exact List.nodup_append.2 ⟨d.nodup, List.nodup_singleton k, fun a ha b hb => by
        rw [List.mem_singleton.1 hb]; exact fun h => hk (h ▸ ha)⟩

theorem keys_set (d : Dict κ β) (k : κ) (v : β) :
    (d.set k v).keys = if k ∈ d then d.keys else d.keys ++ [k] :=
  keys_setEntries k v d.entries

theorem keys_set_of_mem {d : Dict κ β} {k : κ} (h : k ∈ d) (v : β) : (d.set k v).keys = d.keys := by
  rw [keys_set, if_pos h]

@[simp] theorem get?_set (d : Dict κ β) (k k' : κ) (v : β) :
    (d.set k v).get? k' = if k' = k then some v else d.get? k' :=
  lookup_setEntries k k' v d.entries

theorem get?_set_self (d : Dict κ β) (k : κ) (v : β) : (d.set k v).get? k = some v := by simp

theorem get?_set_ne (d : Dict κ β) {k k' : κ} (h : k' ≠ k) (v : β) :
    (d.set k v).get? k' = d.get? k' := by simp [h]

@[simp] theorem mem_set {d : Dict κ β} {k k' : κ} {v : β} : k' ∈ d.set k v ↔ k' = k ∨ k' ∈ d := by
  simp only [mem_iff_get?_isSome, get?_set]
  by_cases h : k' = k <;> simp [h]

/-- `d.pop(k, None)`. -/
def erase (d : Dict κ β) (k : κ) : Dict κ β where
  entries := d.entries.filter (·.1 ≠ k)
  nodup := d.nodup.sublist (List.filter_sublist.map _)

@[simp] theorem get?_erase (d : Dict κ β) (k k' : κ) :
    (d.erase k).get? k' = if k' = k then none else d.get? k' := by
  show (d.entries.filter (·.1 ≠ k)).lookup k' = if k' = k then none else d.entries.lookup k'
  induction d.entries with
  | nil => simp
  | cons e l ih =>
    by_cases he : e.1 = k
    · rw [List.filter_cons_of_neg (by simpa using he), ih, lookup_cons_ite, he]
      by_cases hk : k' = k <;> simp [hk]
    · rw [List.filter_cons_of_pos (by simpa using he), lookup_cons_ite, ih, lookup_cons_ite]
      by_cases hk : k' = e.1
      · simp [hk, he]
      · simp [hk]

@[simp] theorem mem_erase {d : Dict κ β} {k k' : κ} : k' ∈ d.erase k ↔ k' ≠ k ∧ k' ∈ d := by
  simp only [mem_iff_get?_isSome, get?_erase]
  by_cases h : k' = k <;> simp [h]

theorem keys_erase (d : Dict κ β) (k : κ) : (d.erase k).keys = d.keys.filter (· ≠ k) := by
  show (d.entries.filter (·.1 ≠ k)).map Prod.fst = (d.entries.map Prod.fst).filter (· ≠ k)
  rw [List.filter_map]
  rfl

/-- `{k: v for k, v in d.items() if p(k)}`. -/
def filter (d : Dict κ β) (p : κ → Bool) : Dict κ β where
  entries := d.entries.filter fun e => p e.1
  nodup := d.nodup.sublist (List.filter_sublist.map _)

omit [DecidableEq κ] in
theorem keys_filter (d : Dict κ β) (p : κ → Bool) : (d.filter p).keys = d.keys.filter p :=
  List.filter_map.symm

@[simp] theorem get?_filter (d : Dict κ β) (p : κ → Bool) (k : κ) :
    (d.filter p).get? k = if p k then d.get? k else none := by
  show (d.entries.filter fun e => p e.1).lookup k = if p k then d.entries.lookup k else none
  induction d.entries with
  | nil => simp
  | cons e l ih =>
    by_cases he : p e.1
    · rw [List.filter_cons_of_pos (by exact he), lookup_cons_ite, ih, lookup_cons_ite]
      by_cases hk : k = e.1 <;> simp [hk, he]
    · rw [List.filter_cons_of_neg (by exact he), ih, lookup_cons_ite]
      by_cases hk : k = e.1 <;> simp [hk, he]

/-- Two dictionaries with the same keys in the same order and the same value at each key. -/
theorem ext_get? {d d' : Dict κ β} (hk : d.keys = d'.keys) (h : ∀ k, d.get? k = d'.get? k) :
    d = d' := by
  refine Dict.ext ?_
  have hlen : d.entries.length = d'.entries.length := by rw [← length_keys, hk, length_keys]
  refine List.ext_getElem hlen fun i h₁ h₂ => ?_
  have hki : d.entries[i].1 = d'.entries[i].1 := by
    have := congrArg (·[i]?) hk
    simpa [keys, h₁, h₂] using this
  have hv : d.get? d.entries[i].1 = some d.entries[i].2 :=
    get?_eq_some_iff.2 (List.getElem_mem h₁)
  have hv' : d'.get? d'.entries[i].1 = some d'.entries[i].2 :=
    get?_eq_some_iff.2 (List.getElem_mem h₂)
  rw [h, hki, hv'] at hv
  exact Prod.ext hki (Option.some.inj hv).symm

theorem erase_set (d : Dict κ β) (k : κ) (v : β) : (d.set k v).erase k = d.erase k := by
  refine ext_get? ?_ fun k' => ?_
  · rw [keys_erase, keys_erase, keys_set]
    split
    · rfl
    · simp
  · by_cases h : k' = k <;> simp [h]

theorem erase_of_not_mem {d : Dict κ β} {k : κ} (h : k ∉ d) : d.erase k = d := by
  refine ext_get? ?_ fun k' => ?_
  · rw [keys_erase, List.filter_eq_self]
    intro a ha
    simpa using ne_of_mem_of_not_mem ha h
  · rw [get?_erase]
    split
    · subst_vars
      exact (get?_eq_none_iff.2 h).symm
    · rfl

theorem set_of_get? {d : Dict κ β} {k : κ} {v : β} (h : d.get? k = some v) : d.set k v = d := by
  refine ext_get? (keys_set_of_mem (mem_of_get? h) v) fun k' => ?_
  by_cases hk : k' = k
  · subst hk; simp [h]
  · simp [hk]

theorem set_set (d : Dict κ β) (k : κ) (v v' : β) : (d.set k v).set k v' = d.set k v' := by
  refine ext_get? ?_ fun k' => ?_
  · rw [keys_set_of_mem (by simp), keys_set, keys_set]
  · by_cases hk : k' = k <;> simp [hk]

/-! ### Assigning one entry after the other -/

/-- `for k, v in l: d[k] = v`. -/
def assign (d : Dict κ β) (l : List (κ × β)) : Dict κ β := l.foldl (fun d e => d.set e.1 e.2) d

@[simp] theorem assign_nil (d : Dict κ β) : d.assign [] = d := rfl

@[simp] theorem assign_cons (d : Dict κ β) (e : κ × β) (l : List (κ × β)) :
    d.assign (e :: l) = (d.set e.1 e.2).assign l := rfl

theorem assign_append (d : Dict κ β) (l l' : List (κ × β)) :
    d.assign (l ++ l') = (d.assign l).assign l' := List.foldl_append ..

theorem mem_assign {d : Dict κ β} {l : List (κ × β)} {k : κ} :
    k ∈ d.assign l ↔ k ∈ l.map Prod.fst ∨ k ∈ d := by
  induction l generalizing d with
  | nil => simp
  | cons e l ih => rw [assign_cons, ih, mem_set, List.map_cons, List.mem_cons]; tauto

/-- Every entry is one of those assigned, or was there before. -/
theorem get?_assign {d : Dict κ β} {l : List (κ × β)} {k : κ} {v : β}
    (h : (d.assign l).get? k = some v) : (k, v) ∈ l ∨ d.get? k = some v := by
  induction l generalizing d with
  | nil => exact .inr h
  | cons e l ih =>
    rcases ih h with h | h
    · exact .inl (List.mem_cons_of_mem _ h)
    · rw [get?_set] at h
      split at h
      · cases h; subst_vars; exact .inl (List.mem_cons_self ..)
      · exact .inr h

theorem setEntries_of_not_mem {k : κ} {v : β} {l : List (κ × β)} (h : k ∉ l.map Prod.fst) :
    setEntries k v l = l ++ [(k, v)] := by
  induction l with
  | nil => rfl
  | cons e l ih =>
    simp only [List.map_cons, List.mem_cons, not_or] at h
    rw [setEntries, if_neg (Ne.symm h.1), ih h.2, List.cons_append]

theorem entries_set_of_not_mem {d : Dict κ β} {k : κ} (h : k ∉ d) (v : β) :
    (d.set k v).entries = d.entries ++ [(k, v)] := setEntries_of_not_mem h

/-- Assigning distinct new keys appends the entries. -/
theorem entries_assign {d : Dict κ β} {l : List (κ × β)} (hn : (l.map Prod.fst).Nodup)
    (hd : ∀ k ∈ l.map Prod.fst, k ∉ d) : (d.assign l).entries = d.entries ++ l := by
  induction l generalizing d with
  | nil => simp
  | cons e l ih =>
    obtain ⟨he, hn⟩ := List.nodup_cons.1 hn
    have hnew : e.1 ∉ d := hd e.1 (by simp)
    rw [assign_cons, ih hn, entries_set_of_not_mem hnew, List.append_assoc]
    · rfl
    · intro k hk hm
      rcases mem_set.1 hm with rfl | hm
      · exact he hk
      · exact hd k (List.mem_cons_of_mem _ hk) hm

/-- The dictionary with the entries of `l`, of which the last for a key counts. -/
def ofList (l : List (κ × β)) : Dict κ β := empty.assign l

theorem keys_assign (d : Dict κ β) (l : List (κ × β)) :
    (d.assign l).keys = d.keys ++ ((l.map Prod.fst).filter (· ∉ d)).eraseDups := by
  induction l generalizing d with
  | nil => simp
  | cons e l ih =>
    rw [assign_cons, ih, keys_set, List.map_cons]
    by_cases he : e.1 ∈ d
    · have hsame : ∀ k, k ∈ d.set e.1 e.2 ↔ k ∈ d := fun k =>
        mem_set.trans ⟨fun h => h.elim (fun h => h ▸ he) id, .inr⟩
      simp [he, hsame]
    · have hnew : (l.map Prod.fst).filter (fun k => decide (k ∉ d.set e.1 e.2)) =
          ((l.map Prod.fst).filter fun k => decide (k ∉ d)).filter fun k => !k == e.1 := by
        rw [List.filter_filter]
        exact List.filter_congr fun k _ => by simp [not_or, Bool.beq_eq_decide_eq]
      rw [if_neg he, List.filter_cons_of_pos (by simpa using he), List.eraseDups_cons, hnew,
        List.append_assoc]
      rfl

/-- The keys in the order in which they first occur. -/
theorem keys_ofList (l : List (κ × β)) : (ofList l).keys = (l.map Prod.fst).eraseDups := by
  rw [ofList, keys_assign]
  simp [mem_iff_mem_keys]

theorem mem_ofList {l : List (κ × β)} {k : κ} : k ∈ ofList l ↔ k ∈ l.map Prod.fst := by
  rw [ofList, mem_assign]
  simp [mem_iff_mem_keys]

theorem mem_of_get?_ofList {l : List (κ × β)} {k : κ} {v : β} (h : (ofList l).get? k = some v) :
    (k, v) ∈ l := (get?_assign h).resolve_right (by simp)

/-- An entry whose key has one value only. -/
theorem get?_ofList_map {ι : Type*} {l : List ι} {f : ι → κ} {v : ι → β} {i : ι} (hi : i ∈ l)
    (h : ∀ j ∈ l, f j = f i → v j = v i) : (ofList (l.map fun i => (f i, v i))).get? (f i) = some (v i) := by
  have hmem : f i ∈ ofList (l.map fun i => (f i, v i)) :=
    mem_ofList.2 (by simpa using ⟨i, hi, rfl⟩)
  obtain ⟨w, hw⟩ := mem_iff_get?_isSome.1 hmem
  obtain ⟨j, hj, he⟩ := List.mem_map.1 (mem_of_get?_ofList hw)
  obtain ⟨hf, hv⟩ := Prod.mk.inj he
  rw [hw, ← hv, h j hj hf]

theorem entries_ofList {l : List (κ × β)} (h : (l.map Prod.fst).Nodup) : (ofList l).entries = l := by
  simpa [ofList] using entries_assign (d := empty) h (by simp [mem_iff_mem_keys])

/-- No entry is lost exactly when the keys are distinct. -/
theorem length_ofList {l : List (κ × β)} :
    (ofList l).entries.length = l.length ↔ (l.map Prod.fst).Nodup := by
  refine ⟨fun h => ?_, fun h => by rw [entries_ofList h]⟩
  have hsub : (ofList l).keys ⊆ l.map Prod.fst := fun k hk => mem_ofList.1 hk
  have hperm := (List.subperm_of_subset (ofList l).keys_nodup hsub).perm_of_length_le
    (by rw [length_keys, List.length_map, h])
  exact hperm.nodup_iff.1 (ofList l).keys_nodup

/-! ### Sorting by key -/

section Sorted
variable [LinearOrder κ]

omit [DecidableEq κ] in
theorem map_fst_insertionSort (l : List (κ × β)) :
    (l.insertionSort fun a b => a.1 ≤ b.1).map Prod.fst = (l.map Prod.fst).insertionSort (· ≤ ·) :=
  List.map_insertionSort _ _ _ _ fun _ _ _ _ => Iff.rfl

/-- The entries in ascending order of their keys. -/
def sorted (d : Dict κ β) : Dict κ β where
  entries := d.entries.insertionSort fun a b => a.1 ≤ b.1
  nodup := ((List.perm_insertionSort _ d.entries).map Prod.fst).nodup_iff.2 d.nodup

omit [DecidableEq κ] in
theorem keys_sorted (d : Dict κ β) : d.sorted.keys = d.keys.insertionSort (· ≤ ·) :=
  map_fst_insertionSort d.entries

@[simp] theorem get?_sorted (d : Dict κ β) (k : κ) : d.sorted.get? k = d.get? k := by
  refine Option.ext fun v => ?_
  rw [get?_eq_some_iff, get?_eq_some_iff]
  exact List.mem_insertionSort _

@[simp] theorem mem_sorted {d : Dict κ β} {k : κ} : k ∈ d.sorted ↔ k ∈ d := by
  simp only [mem_iff_get?_isSome, get?_sorted]

theorem sorted_of_pairwise {d : Dict κ β} (h : d.keys.Pairwise (· ≤ ·)) : d.sorted = d :=
  Dict.ext_get? (by rw [keys_sorted]; exact h.insertionSort_eq) fun k => get?_sorted d k

/-- Keys assigned in ascending order stay in ascending order. -/
theorem pairwise_keys_assign {d : Dict κ β} {l : List (κ × β)} (hd : d.keys.Pairwise (· ≤ ·))
    (hl : (l.map Prod.fst).Pairwise (· ≤ ·)) (h : ∀ k ∈ d.keys, ∀ k' ∈ l.map Prod.fst, k ≤ k') :
    (d.assign l).keys.Pairwise (· ≤ ·) := by
  induction l generalizing d with
  | nil => exact hd
  | cons e l ih =>
    obtain ⟨he, hl⟩ := List.pairwise_cons.1 hl
    have hkeys : ∀ k, k ∈ (d.set e.1 e.2).keys → k = e.1 ∨ k ∈ d.keys := fun k hk =>
      mem_set.1 (show k ∈ d.set e.1 e.2 from hk)
    refine ih ?_ hl fun k hk k' hk' => ?_
    · rw [keys_set]
      split
      · exact hd
      · refine List.pairwise_append.2 ⟨hd, List.pairwise_singleton _ _, fun a ha b hb => ?_⟩
        rw [List.mem_singleton.1 hb]
        exact h a ha e.1 (by simp)
    · rcases hkeys k hk with rfl | hk
      · exact he k' hk'
      · exact h k hk k' (List.mem_cons_of_mem _ hk')

theorem pairwise_keys_ofList {l : List (κ × β)} (hl : (l.map Prod.fst).Pairwise (· ≤ ·)) :
    (ofList l).keys.Pairwise (· ≤ ·) := pairwise_keys_assign (by simp) hl (by simp)

theorem sorted_sorted (d : Dict κ β) : d.sorted.sorted = d.sorted :=
  sorted_of_pairwise (by rw [keys_sorted]; exact List.pairwise_insertionSort _ _)

end Sorted

end Dict
end OpenBmc
