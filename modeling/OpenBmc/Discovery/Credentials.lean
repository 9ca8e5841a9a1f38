import OpenBmc.Py.Str

/-!
# Credentials of the discovery

`read_credentials` takes a pair from two environment variables, more pairs from a third, and tries
no credentials at last.
-/

namespace OpenBmc
namespace Discovery
open Py

/-- The variables that `read_credentials` reads; one that is not set is empty. -/
structure Environ where
  username : Str
  password : Str
  credentials : Str

abbrev Credential := Option Str × Option Str

/-- An entry of the list; one without a colon is malformed. -/
def readEntry (item : Str) : Option (Str × Str) :=
  if strip item = [] then none
  else (partition ':' (strip item)).2.map fun password => ((partition ':' (strip item)).1, password)

def readList (rawList : Str) : List (Str × Str) :=
  if rawList = [] then [] else (rawList.splitOn ',').filterMap readEntry

/-- The items that are not seen, each once. -/
def unseen {α : Type} [DecidableEq α] : List α → List α → List α
  | _, [] => []
  | seen, item :: rest =>
    if item ∈ seen then unseen seen rest else item :: unseen (item :: seen) rest

def named (pair : Str × Str) : Credential := (some pair.1, some pair.2)

def environPair (env : Environ) : List (Str × Str) :=
  if env.username ≠ [] ∨ env.password ≠ [] then [(env.username, env.password)] else []

def readCredentials (env : Environ) : List Credential :=
  unseen [] ((environPair env ++ readList (strip env.credentials)).map named ++ [(none, none)])

theorem mem_environPair {env : Environ} {pair : Str × Str} : pair ∈ environPair env ↔
    (env.username ≠ [] ∨ env.password ≠ []) ∧ pair = (env.username, env.password) := by
  unfold environPair
  split
  · rename_i h
    rw [List.mem_singleton, and_iff_right h]
  · rename_i h
    simp only [List.not_mem_nil, h, false_and]

/-! ### Reading the list -/

/-- `user:password`. -/
def entryText (pair : Str × Str) : Str := pair.1 ++ ':' :: pair.2

/-- A pair that can stand in the list. -/
structure Listable (pair : Str × Str) : Prop where
  user_comma : ',' ∉ pair.1
  password_comma : ',' ∉ pair.2
  user_colon : ':' ∉ pair.1
  strip : strip (entryText pair) = entryText pair

def listText (pairs : List (Str × Str)) : Str := [','].intercalate (pairs.map entryText)

theorem entryText_ne_nil (pair : Str × Str) : entryText pair ≠ [] := by simp [entryText]

namespace Listable
variable {pair : Str × Str} {pairs : List (Str × Str)}

theorem readEntry (h : Listable pair) : readEntry (entryText pair) = some pair := by
  rw [Discovery.readEntry, h.strip, if_neg (entryText_ne_nil pair), entryText,
    partition_append h.user_colon]
  rfl

theorem not_mem_comma (h : Listable pair) : ',' ∉ entryText pair := by
  intro hm
  rcases List.mem_append.1 hm with hm | hm
  · exact h.user_comma hm
  · rcases List.mem_cons.1 hm with hm | hm
    · cases hm
    · exact h.password_comma hm

theorem filterMap_readEntry (h : ∀ pair ∈ pairs, Listable pair) :
    (pairs.map entryText).filterMap Discovery.readEntry = pairs := by
  induction pairs with
  | nil => rfl
  | cons pair pairs ih =>
    have htail := ih fun p hp => h p (List.mem_cons_of_mem _ hp)
    rw [List.map_cons, List.filterMap_cons, (h pair List.mem_cons_self).readEntry, htail]

theorem readList (h : ∀ pair ∈ pairs, Listable pair) : readList (listText pairs) = pairs := by
  rcases pairs with _ | ⟨pair, pairs⟩
  · rfl
  · have hne : listText (pair :: pairs) ≠ [] := by
      cases pairs <;> simp [listText, entryText]
    have hsplit : (listText (pair :: pairs)).splitOn ',' = (pair :: pairs).map entryText := by
      refine List.splitOn_intercalate ',' ?_ (by simp)
      intro text htext
      obtain ⟨p, hp, rfl⟩ := List.mem_map.1 htext
      exact (h p hp).not_mem_comma
    rw [Discovery.readList, if_neg hne, hsplit, filterMap_readEntry h]

end Listable

/-! ### First occurrences -/

section Unseen
variable {α β : Type} [DecidableEq α] [DecidableEq β]

theorem mem_unseen {seen l : List α} {x : α} :
    x ∈ unseen seen l ↔ x ∈ l ∧ x ∉ seen := by
  induction l generalizing seen with
  | nil => simp [unseen]
  | cons item rest ih =>
    rw [unseen]
    split
    · rename_i hitem
      rw [ih, List.mem_cons]
      refine ⟨fun h => ⟨.inr h.1, h.2⟩, fun h => ⟨h.1.resolve_left ?_, h.2⟩⟩
      rintro rfl
      exact h.2 hitem
    · rename_i hitem
      rw [List.mem_cons, ih, List.mem_cons, List.mem_cons]
      by_cases hx : x = item
      · subst hx
        simp [hitem]
      · simp [hx]

/-- The unseen items come in the order of their first occurrence. -/
theorem pairwise_unseen [BEq α] [LawfulBEq α] (seen l : List α) :
    (unseen seen l).Pairwise fun x y => l.idxOf x < l.idxOf y := by
  induction l generalizing seen with
  | nil => exact .nil
  | cons item rest ih =>
    have hlater : ∀ seen', item ∈ seen' → (unseen seen' rest).Pairwise
        fun x y => (item :: rest).idxOf x < (item :: rest).idxOf y := by
      intro seen' hitem
      refine (ih seen').imp_of_mem ?_
      intro x y hx hy hxy
      have hne : ∀ z ∈ unseen seen' rest, item ≠ z := by
        rintro z hz rfl
        exact (mem_unseen.1 hz).2 hitem
      rw [List.idxOf_cons_ne _ (hne x hx), List.idxOf_cons_ne _ (hne y hy)]
      exact Nat.succ_lt_succ hxy
    rw [unseen]
    split
    · exact hlater seen ‹_›
    · refine List.pairwise_cons.2 ⟨?_, hlater _ List.mem_cons_self⟩
      intro y hy
      have hne : item ≠ y := by
        rintro rfl
        exact (mem_unseen.1 hy).2 List.mem_cons_self
      rw [List.idxOf_cons_self, List.idxOf_cons_ne _ hne]
      exact Nat.succ_pos _

theorem unseen_append_of_not_mem {seen l : List α} {x : α} (hl : x ∉ l)
    (hs : x ∉ seen) : unseen seen (l ++ [x]) = unseen seen l ++ [x] := by
  induction l generalizing seen with
  | nil => simp [unseen, hs]
  | cons item rest ih =>
    obtain ⟨hne, hrest⟩ : x ≠ item ∧ x ∉ rest := by simpa using hl
    rw [List.cons_append, unseen, unseen]
    split
    · exact ih hrest hs
    · rw [ih hrest (by simp [hne, hs]), List.cons_append]

theorem unseen_map {f : α → β} (hf : Function.Injective f) (seen l : List α) :
    unseen (seen.map f) (l.map f) = (unseen seen l).map f := by
  induction l generalizing seen with
  | nil => rfl
  | cons item rest ih =>
    rw [List.map_cons, unseen, unseen, ← List.map_cons, ih, ih]
    simp only [List.mem_map_of_injective hf]
    split <;> rfl

end Unseen

theorem named_injective : Function.Injective named := by
  rintro ⟨a, b⟩ ⟨c, d⟩ h
  simpa [named] using h

/-! ### The round trip -/

theorem strip_listText {pairs : List (Str × Str)} (h : ∀ pair ∈ pairs, Listable pair) :
    strip (listText pairs) = listText pairs := by
  induction pairs with
  | nil => rfl
  | cons pair pairs ih =>
    have hpair := (h pair List.mem_cons_self).strip
    rcases pairs with _ | ⟨next, pairs⟩
    · simpa [listText] using hpair
    · have htail := ih fun p hp => h p (List.mem_cons_of_mem _ hp)
      have hcons : listText (pair :: next :: pairs) =
          entryText pair ++ [','] ++ listText (next :: pairs) := by simp [listText]
      rw [hcons]
      refine stripBy_append hpair htail (entryText_ne_nil pair) ?_
      cases pairs <;> simp [listText, entryText]

/-- The environment pair comes first, if either part of it is set, and then the pairs of the list,
each at its first occurrence; no credentials are tried last. -/
theorem readCredentials_listText (username password : Str) (pairs : List (Str × Str))
    (h : ∀ pair ∈ pairs, Listable pair) :
    ∃ credentials : List (Str × Str),
      readCredentials ⟨username, password, listText pairs⟩ =
        credentials.map named ++ [(none, none)] ∧
      (∀ pair, pair ∈ credentials ↔
        (username ≠ [] ∨ password ≠ []) ∧ pair = (username, password) ∨ pair ∈ pairs) ∧
      credentials.Pairwise fun x y =>
        (environPair ⟨username, password, listText pairs⟩ ++ pairs).idxOf x <
          (environPair ⟨username, password, listText pairs⟩ ++ pairs).idxOf y := by
  set env : Environ := ⟨username, password, listText pairs⟩
  refine ⟨unseen [] (environPair env ++ pairs), ?_, ?_, pairwise_unseen [] _⟩
  · have hread : readCredentials env =
        unseen [] ((environPair env ++ pairs).map named ++ [(none, none)]) := by
      rw [readCredentials, strip_listText h, Listable.readList h]
    have hlast : ((none, none) : Credential) ∉ (environPair env ++ pairs).map named := by
      simp [named]
    rw [hread, unseen_append_of_not_mem hlast (by simp)]
    exact congrArg (· ++ _) (unseen_map named_injective [] _)
  · intro pair
    rw [mem_unseen, List.mem_append, mem_environPair]
    exact and_iff_left (List.not_mem_nil)

/-- A pair that is listed twice, with a colon in its password. -/
theorem readCredentials_twice : ∃ credentials : List (Str × Str),
    readCredentials ⟨[], [], listText [(['u'], [':', 'p']), (['u'], [':', 'p'])]⟩ =
      credentials.map named ++ [(none, none)] ∧ (['u'], [':', 'p']) ∈ credentials := by
  have hpair : Listable (['u'], [':', 'p']) := ⟨by decide, by decide, by decide, by decide⟩
  obtain ⟨credentials, hread, hmem, -⟩ :=
    readCredentials_listText [] [] [(['u'], [':', 'p']), (['u'], [':', 'p'])] (by simp [hpair])
  exact ⟨credentials, hread, (hmem _).2 (.inr List.mem_cons_self)⟩

end Discovery
end OpenBmc
