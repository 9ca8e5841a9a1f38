import OpenBmc.BitBake.CowStorage

/-!
# Runs of copy-on-write dictionaries

`Kept` is what every run keeps whose steps stay clear of the corners of the storage; `Agree` says
that each class then shows what the plain dictionary shows. `cow_plain` is the result: the values
agree as long as no mutable value is assigned over an immutable or deleted one, the keys as long as
no value changes its kind and nothing is deleted.
-/

namespace OpenBmc
namespace BitBake
namespace Cow

variable {α μ : Type}

/-! ### The plain dictionaries -/

structure PlainKept (d : PlainDict α μ) : Prop where
  value : ∀ key v, d.items.get? key = some v → Usable key ∧
    ((∃ a, v = .atom a) ∨ ∃ ref < d.next, v = .object ref)
  distinct : ∀ key key' ref, d.items.get? key = some (.object ref) →
    d.items.get? key' = some (.object ref) → key = key'

namespace PlainKept
variable {d : PlainDict α μ} (h : PlainKept d) {key : Str}
include h

theorem setAtom (hkey : Usable key) (a : α) : PlainKept (d.setArg key (.atom a)) where
  value := by
    intro k v hv
    rw [PlainDict.setArg, Dict.get?_set] at hv
    split at hv
    · rename_i hk
      cases hv
      exact ⟨hk ▸ hkey, .inl ⟨a, rfl⟩⟩
    · exact h.value k v hv
  distinct := by
    intro k k' ref hv hv'
    rw [PlainDict.setArg, Dict.get?_set] at hv hv'
    split at hv
    · cases hv
    · split at hv'
      · cases hv'
      · exact h.distinct k k' ref hv hv'

theorem setNew (hkey : Usable key) (m : μ) : PlainKept (d.setArg key (.new m)) where
  value := by
    intro k v hv
    rw [PlainDict.setArg, Dict.get?_set] at hv
    split at hv
    · rename_i hk
      cases hv
      exact ⟨hk ▸ hkey, .inr ⟨d.next, Nat.lt_succ_self _, rfl⟩⟩
    · obtain ⟨hk, ha | ⟨ref, hlt, hv⟩⟩ := h.value k v hv
      · exact ⟨hk, .inl ha⟩
      · exact ⟨hk, .inr ⟨ref, Nat.lt_succ_of_lt hlt, hv⟩⟩
  distinct := by
    have hold : ∀ k, d.items.get? k ≠ some (.object d.next) := by
      intro k hk
      obtain ⟨-, ⟨a, ha⟩ | ⟨ref, hlt, hv⟩⟩ := h.value k _ hk
      · cases ha
      · cases hv
        exact lt_irrefl _ hlt
    intro k k' ref hv hv'
    rw [PlainDict.setArg, Dict.get?_set] at hv hv'
    split at hv <;> split at hv'
    · rename_i hk hk'
      exact hk.trans hk'.symm
    · cases hv
      exact absurd hv' (hold k')
    · cases hv'
      exact absurd hv (hold k)
    · exact h.distinct k k' ref hv hv'

theorem delItem : PlainKept (d.delItem key) where
  value := by
    intro k v hv
    rw [PlainDict.delItem, Dict.get?_erase] at hv
    split at hv
    · cases hv
    · exact h.value k v hv
  distinct := by
    intro k k' ref hv hv'
    rw [PlainDict.delItem, Dict.get?_erase] at hv hv'
    split at hv
    · cases hv
    · split at hv'
      · cases hv'
      · exact h.distinct k k' ref hv hv'

theorem updateItem (f : μ → μ) : PlainKept (d.updateItem key f) := by
  unfold PlainDict.updateItem
  split
  · exact ⟨h.value, h.distinct⟩
  · exact h

/-- What the dictionary shows is an immutable value other than the empty tuple, or contents. -/
theorem shown_cases {v : Seen α μ} (hv : d.shown key = some v) :
    (∃ a, v = .atom a ∧ d.items.get? key = some (.atom a)) ∨
      ∃ ref, v = .contents (d.heap ref) ∧ d.items.get? key = some (.object ref) := by
  unfold PlainDict.shown at hv
  cases hget : d.items.get? key with
  | none =>
    rw [hget] at hv
    cases hv
  | some w =>
    rw [hget] at hv
    cases hv
    obtain ⟨-, ⟨a, rfl⟩ | ⟨ref, -, rfl⟩⟩ := h.value key w hget
    · exact .inl ⟨a, rfl, rfl⟩
    · exact .inr ⟨ref, rfl, rfl⟩

theorem shown_setNew (m : μ) (k : Str) :
    (d.setArg key (.new m)).shown k = if k = key then some (.contents m) else d.shown k := by
  unfold PlainDict.shown PlainDict.setArg
  rw [Dict.get?_set]
  by_cases hk : k = key
  · rw [if_pos hk, if_pos hk]
    show some (Seen.contents (Function.update d.heap d.next m d.next)) = _
    rw [Function.update_self]
  · rw [if_neg hk, if_neg hk]
    cases hget : d.items.get? k with
    | none => rfl
    | some v =>
      obtain ⟨-, ⟨a, rfl⟩ | ⟨ref, hlt, rfl⟩⟩ := h.value k v hget
      · rfl
      · show some (Seen.contents (Function.update d.heap d.next m ref)) = _
        rw [Function.update_of_ne hlt.ne]
        rfl

theorem shown_update {ref : Nat} (hget : d.items.get? key = some (.object ref)) (f : μ → μ) (k : Str) :
    (d.updateItem key f).shown k =
      if k = key then some (.contents (f (d.heap ref))) else d.shown k := by
  unfold PlainDict.shown PlainDict.updateItem
  rw [hget]
  by_cases hk : k = key
  · rw [if_pos hk, hk, hget]
    show some (Seen.contents (Function.update d.heap ref _ ref)) = _
    rw [Function.update_self]
  · rw [if_neg hk]
    show (d.items.get? k).map (Value.see (Function.update d.heap ref _)) = _
    cases hk' : d.items.get? k with
    | none => rfl
    | some v =>
      obtain ⟨-, ⟨a, rfl⟩ | ⟨ref', -, rfl⟩⟩ := h.value k v hk'
      · rfl
      · have hne : ref' ≠ ref := by
          rintro rfl
          exact hk (h.distinct k key ref' hk' hget)
        show some (Seen.contents (Function.update d.heap ref _ ref')) = _
        rw [Function.update_of_ne hne]
        rfl

end PlainKept

theorem PlainDict.shown_setAtom (d : PlainDict α μ) (key : Str) (a : α) (k : Str) :
    (d.setArg key (.atom a)).shown k = if k = key then some (.atom a) else d.shown k := by
  show ((d.items.set key (.atom a)).get? k).map (Value.see d.heap) = _
  rw [Dict.get?_set]
  split <;> rfl

theorem PlainDict.shown_delItem (d : PlainDict α μ) (key k : Str) :
    (d.delItem key).shown k = if k = key then none else d.shown k := by
  unfold PlainDict.shown PlainDict.delItem
  rw [Dict.get?_erase]
  split <;> rfl

/-! ### Steps -/

/-- The operations the dictionaries are made for: on a class that exists, with a key of the allowed
form, and changes only where nothing was copied. -/
def Legal (s : Classes α μ) : Op α μ → Prop
  | .copy i | .iterate i _ => i < s.count
  | .set i key arg =>
    i < s.count ∧ Leaf s i ∧ IsKey key ∧ ∀ key', arg = .same key' → IsKey key'
  | .del i key | .update i key _ => i < s.count ∧ Leaf s i ∧ IsKey key
  | .read i key _ | .contains i key => i < s.count ∧ IsKey key

/-- The value of an assignment is not the empty tuple, it is no object that is stored under another
key, and where it is a new object no immutable value or deletion is seen under the key. -/
def KeepsValue (s : Classes α μ) (i : Nat) (key : Str) : Arg α μ → Prop
  | .emptyTuple => False
  | .atom _ => True
  | .new _ => attr s i key = none
  | .same key' => key' ∉ metaNames ∧
      (key' = key ∨ ∀ m, shown s i key' true ≠ some (.contents m))

/-- No attribute of the metaclass is used as a key, and assignments keep the values. -/
def KeepsValues (s : Classes α μ) : Op α μ → Prop
  | .copy _ | .iterate .. => True
  | .set i key arg => key ∉ metaNames ∧ KeepsValue s i key arg
  | .del _ key | .update _ key _ | .read _ key _ | .contains _ key => key ∉ metaNames

/-- The classes show what the plain dictionaries show. -/
structure Agree (s : Classes α μ) (p : Plain α μ) : Prop where
  kept : Kept s
  plain : ∀ i, PlainKept (p.dict i)
  count : p.count = s.count
  seen : ∀ i < s.count, ∀ key, Usable key → seenAt s i key = (p.dict i).shown key

theorem Agree.same {s s' : Classes α μ} {p : Plain α μ} (h : Agree s p) (hkept : Kept s')
    (hs : Same s s') : Agree s' p where
  kept := hkept
  plain := h.plain
  count := h.count.trans hs.count.symm
  seen := by
    rw [hs.count]
    exact fun i hi key hkey => (hs.seen i hi key hkey).trans (h.seen i hi key hkey)

/-- A change of one class against a change of its dictionary. -/
theorem Agree.change {s s' : Classes α μ} {p : Plain α μ} (h : Agree s p) {i : Nat}
    {d : PlainDict α μ} (hkept : Kept s') (hplain : PlainKept d) (hcount : s'.count = s.count)
    (hhere : ∀ k, Usable k → seenAt s' i k = d.shown k)
    (hother : ∀ j < s.count, j ≠ i → ∀ k, Usable k → seenAt s' j k = seenAt s j k) :
    Agree s' { p with dict := Function.update p.dict i d } where
  kept := hkept
  plain := by
    intro j
    show PlainKept (Function.update p.dict i d j)
    by_cases hj : j = i
    · rw [hj, Function.update_self]
      exact hplain
    · rw [Function.update_of_ne hj]
      exact h.plain j
  count := h.count.trans hcount.symm
  seen := by
    rw [hcount]
    intro j hj k hk
    show _ = (Function.update p.dict i d j).shown k
    by_cases hji : j = i
    · rw [hji, Function.update_self]
      exact hhere k hk
    · rw [Function.update_of_ne hji, hother j hj hji k hk]
      exact h.seen j hj k hk

section steps
variable {s : Classes α μ} {p : Plain α μ} (h : Agree s p) {i : Nat} (hi : i < s.count)
include h hi

theorem Agree.setAtom (hleaf : Leaf s i) {key : Str} (hkey : Usable key) (a : α) :
    Agree (setattr s i key (.atom a))
      { p with dict := Function.update p.dict i ((p.dict i).setArg key (.atom a)) } := by
  have hseen : ∀ j < s.count, ∀ k, Usable k → seenAt (setattr s i key (.atom a)) j k =
      if j = i ∧ k = key then (unmark (some (.atom a))).map (Value.see s.heap) else seenAt s j k :=
    fun j hj k hk => seenAt_setPlain h.kept hi hleaf hj hk hkey
  refine h.change (h.kept.setPlain i hkey rfl) ((h.plain i).setAtom hkey a) rfl ?_ ?_
  · intro k hk
    rw [hseen i hi k hk, PlainDict.shown_setAtom, h.seen i hi k hk]
    simp only [true_and]
    rfl
  · intro j hj hji k hk
    rw [hseen j hj k hk, if_neg fun hn => hji hn.1]

theorem Agree.setNew (hleaf : Leaf s i) {key : Str} (hkey : Usable key)
    (hplain : attr s i key = none) (m : μ) :
    Agree (setattr (alloc s m) i (mutableName key) (.object s.next))
      { p with dict := Function.update p.dict i ((p.dict i).setArg key (.new m)) } := by
  have hseen : ∀ j < s.count, ∀ k, Usable k →
      seenAt (setattr (alloc s m) i (mutableName key) (.object s.next)) j k =
        if j = i ∧ k = key then some (.contents m) else seenAt s j k :=
    fun j hj k hk => seenAt_setNew h.kept hi hleaf hplain m hj hk
  refine h.change (h.kept.setNew i hkey m) ((h.plain i).setNew hkey m) rfl ?_ ?_
  · intro k hk
    rw [hseen i hi k hk, (h.plain i).shown_setNew, h.seen i hi k hk]
    simp only [true_and]
  · intro j hj hji k hk
    rw [hseen j hj k hk, if_neg fun hn => hji hn.1]

theorem Agree.delItem (hleaf : Leaf s i) {key : Str} (hkey : Usable key) :
    Agree (delItem s i key)
      { p with dict := Function.update p.dict i ((p.dict i).delItem key) } := by
  have hseen : ∀ j < s.count, ∀ k, Usable k → seenAt (setattr s i key .marker) j k =
      if j = i ∧ k = key then (unmark (some .marker)).map (Value.see s.heap) else seenAt s j k :=
    fun j hj k hk => seenAt_setPlain h.kept hi hleaf hj hk hkey
  refine h.change (h.kept.setPlain i hkey rfl) (h.plain i).delItem rfl ?_ ?_
  · intro k hk
    refine (hseen i hi k hk).trans ?_
    rw [PlainDict.shown_delItem, h.seen i hi k hk]
    simp only [true_and]
    rfl
  · intro j hj hji k hk
    refine (hseen j hj k hk).trans ?_
    rw [if_neg fun hn => hji hn.1]

theorem Agree.read {key : Str} (hkey : Usable key) (readonly : Bool) :
    Agree (getItem s i key readonly).2 p ∧ Same s (getItem s i key readonly).2 ∧
      shown s i key readonly = (p.dict i).shown key := by
  obtain ⟨hkept, hsame, hshown, -⟩ := h.kept.read hi hkey readonly
  exact ⟨h.same hkept hsame, hsame, hshown.trans (h.seen i hi key hkey)⟩

/-- What is read is missing, an immutable value, or an object that the class now owns. -/
theorem Agree.read_cases {key : Str} (hkey : Usable key) :
    ((getItem s i key false).1 = none ∧ (p.dict i).items.get? key = none) ∨
    (∃ a, (getItem s i key false).1 = some (.atom a) ∧
      (p.dict i).items.get? key = some (.atom a)) ∨
    ∃ ref ref', (getItem s i key false).1 = some (.object ref) ∧
      (p.dict i).items.get? key = some (.object ref') ∧
      (getItem s i key false).2.heap ref = (p.dict i).heap ref' ∧
      ((getItem s i key false).2.names i).get? (mutableName key) = some (.object ref) := by
  obtain ⟨-, -, hshown, hown⟩ := h.kept.read hi hkey false
  have hseen := hshown.trans (h.seen i hi key hkey)
  unfold shown at hseen
  cases hv : (getItem s i key false).1 with
  | none =>
    refine .inl ⟨rfl, ?_⟩
    rw [hv] at hseen
    exact Option.map_eq_none_iff.1 hseen.symm
  | some v =>
    rw [hv] at hseen
    rcases (h.plain i).shown_cases hseen.symm with ⟨a, ha, hget⟩ | ⟨ref', hc, hget⟩
    · cases v with
      | atom b =>
        cases ha
        exact .inr (.inl ⟨a, rfl, hget⟩)
      | marker => cases ha
      | object ref => cases ha
      | method name => cases ha
    · cases v with
      | object ref =>
        exact .inr (.inr ⟨ref, ref', rfl, hget, Seen.contents.inj hc, hown rfl ref hv⟩)
      | marker => cases hc
      | atom b => cases hc
      | method name => cases hc

theorem Agree.updateItem (hleaf : Leaf s i) {key : Str} (hkey : Usable key) (f : μ → μ) :
    Agree (updateItem s i key f)
      { p with dict := Function.update p.dict i ((p.dict i).updateItem key f) } := by
  obtain ⟨hread, hsame, -⟩ := h.read hi hkey false
  have hnoop : (p.dict i).updateItem key f = p.dict i →
      { p with dict := Function.update p.dict i ((p.dict i).updateItem key f) } = p := by
    intro he
    rw [he, Function.update_eq_self]
  unfold Cow.updateItem
  rcases hres : getItem s i key false with ⟨v, s'⟩
  rw [hres] at hread hsame
  have hcases := h.read_cases hi hkey
  rw [hres] at hcases
  rcases hcases with ⟨rfl, hget⟩ | ⟨a, rfl, hget⟩ | ⟨ref, ref', rfl, hget, hheap, hown⟩
  · have he : (p.dict i).updateItem key f = p.dict i := by
      unfold PlainDict.updateItem
      rw [hget]
    rw [hnoop he]
    exact hread
  · have he : (p.dict i).updateItem key f = p.dict i := by
      unfold PlainDict.updateItem
      rw [hget]
    rw [hnoop he]
    exact hread
  · have hi' : i < s'.count := hsame.count ▸ hi
    have hleaf' : Leaf s' i := by
      intro j hj hm
      rw [hsame.mro] at hm
      exact hleaf j (hsame.count ▸ hj) hm
    have hplain : attr s' i key = none := by
      cases hattr : attr s' i key with
      | none => rfl
      | some v =>
        have hmut := hread.kept.attr_key hkey.1 hattr
        have hseen := hread.seen i hi' key hkey
        unfold seenAt PlainDict.shown at hseen
        rw [hattr, hget] at hseen
        cases v with
        | object ref => exact absurd hmut Bool.noConfusion
        | method name => exact absurd hmut Bool.noConfusion
        | marker => cases hseen
        | atom a => cases hseen
    have hseen := fun j hj k hk => seenAt_update hread.kept hi' hleaf' hplain hown
      (f (s'.heap ref)) (j := j) hj (k := k) hk
    have hkept : Kept { s' with heap := Function.update s'.heap ref (f (s'.heap ref)) } :=
      ⟨hread.kept.tree.congr rfl rfl, hread.kept.name, hread.kept.distinct⟩
    refine hread.change hkept ((h.plain i).updateItem f) rfl ?_ ?_
    · intro k hk
      rw [hseen i hi' k hk, (h.plain i).shown_update hget, hread.seen i hi' k hk]
      simp only [true_and]
      rw [show s'.heap ref = (p.dict i).heap ref' from hheap]
    · intro j hj hji k hk
      rw [hseen j hj k hk, if_neg fun hn => hji hn.1]

/-- An immutable value is assigned again under another key, or an object under its own. -/
theorem Agree.setSame (hleaf : Leaf s i) {key key' : Str} (hkey : Usable key)
    (hkey' : Usable key')
    (hcond : key' = key ∨ ∀ m, shown s i key' true ≠ some (.contents m)) :
    Agree (setArg s i key (.same key'))
      { p with dict := Function.update p.dict i ((p.dict i).setArg key (.same key')) } := by
  obtain ⟨hread, hsame, -⟩ := h.read hi hkey' false
  unfold Cow.setArg PlainDict.setArg
  rcases hres : getItem s i key' false with ⟨v, s'⟩
  rw [hres] at hread hsame
  have hcases := h.read_cases hi hkey'
  rw [hres] at hcases
  have hi' : i < s'.count := hsame.count ▸ hi
  have hleaf' : Leaf s' i := by
    intro j hj hm
    rw [hsame.mro] at hm
    exact hleaf j (hsame.count ▸ hj) hm
  rcases hcases with ⟨rfl, hget⟩ | ⟨a, rfl, hget⟩ | ⟨ref, ref', rfl, hget, hheap, hown⟩
  · simp only [hres, hget, Function.update_eq_self]
    exact hread
  · simp only [hres, hget]
    exact hread.setAtom hi' hleaf' hkey a
  · -- the object is the one of `key` itself
    have hself : key' = key := by
      refine hcond.resolve_right fun hno => ?_
      have hshown := (h.read hi hkey' true).2.2
      refine hno ((p.dict i).heap ref') (hshown.trans ?_)
      unfold PlainDict.shown
      rw [hget]
      rfl
    subst hself
    simp only [hres, hget]
    have hnames := attr_setattr_same hown
    have hattr : ∀ j name, attr (setattr s' i (mutableName key') (.object ref)) j name =
        attr s' j name := fun j name => findName_congr fun k _ => hnames k name
    have hkept : Kept (setattr s' i (mutableName key') (.object ref)) := by
      refine ⟨hread.kept.tree.congr rfl rfl, ?_, ?_⟩
      · intro j name v hv
        rw [hnames] at hv
        exact hread.kept.name j name v hv
      · intro j k n m r hj hk
        rw [hnames] at hj hk
        exact hread.kept.distinct j k n m r hj hk
    have hseen : ∀ j k, seenAt (setattr s' i (mutableName key') (.object ref)) j k =
        seenAt s' j k := by
      intro j k
      unfold seenAt
      rw [hattr, hattr]
      rfl
    have hitems : ∀ k, ((p.dict i).items.set key' (.object ref')).get? k =
        (p.dict i).items.get? k := by
      intro k
      rw [Dict.get?_set]
      split
      · rename_i hk
        rw [hk, hget]
      · rfl
    refine hread.change hkept ⟨?_, ?_⟩ rfl ?_ ?_
    · intro k v hv
      rw [hitems] at hv
      exact (h.plain i).value k v hv
    · intro k k' r hv hv'
      rw [hitems] at hv hv'
      exact (h.plain i).distinct k k' r hv hv'
    · intro k hk
      refine (hseen i k).trans ((hread.seen i hi' k hk).trans ?_)
      unfold PlainDict.shown
      rw [hitems]
    · exact fun j _ _ k _ => hseen j k

/-- A copy shows what the copied class shows. -/
theorem Agree.copy : Agree (copy s i) (plainStep p (.copy i)) := by
  have htree := h.kept.tree
  have hlook := h.kept.copy_looks hi
  have hlt : ∀ j < (Cow.copy s i).count, j = s.count ∨ j < s.count := by
    intro j hj
    rw [hlook.count] at hj
    exact (Nat.lt_succ_iff_lt_or_eq.1 hj).symm
  have hseen : ∀ j l k, (∀ name, attr (Cow.copy s i) j name = attr s l name) →
      seenAt (Cow.copy s i) j k = seenAt s l k := by
    intro j l k hl
    unfold seenAt
    rw [hl, hl, hlook.heap]
  refine ⟨⟨⟨?_, ?_, ?_, ?_⟩, ?_, ?_⟩, ?_, ?_, ?_⟩
  · intro j hj
    rcases hlt j hj with rfl | hj
    · exact ⟨_, hlook.mro_new⟩
    · rw [hlook.mro_old j hj]
      exact htree.self j hj
  · intro j hj k hk
    rw [hlook.count]
    rcases hlt j hj with rfl | hj
    · rw [hlook.mro_new] at hk
      rcases List.mem_cons.1 hk with rfl | hk
      · exact Nat.lt_succ_self _
      · exact Nat.lt_succ_of_lt (htree.lt i hi k hk)
    · rw [hlook.mro_old j hj] at hk
      exact Nat.lt_succ_of_lt (htree.lt j hj k hk)
  · intro j hj
    rcases hlt j hj with rfl | hj
    · rw [hlook.mro_new]
      exact List.nodup_cons.2 ⟨fun hm => lt_irrefl _ (htree.lt i hi _ hm), htree.nodup i hi⟩
    · rw [hlook.mro_old j hj]
      exact htree.nodup j hj
  · intro j hj k hk
    rcases hlt j hj with rfl | hj
    · rw [hlook.mro_new] at hk ⊢
      rcases List.mem_cons.1 hk with rfl | hk
      · exact ⟨[], hlook.mro_new.symm⟩
      · obtain ⟨before, hbefore⟩ := htree.tail i hi k hk
        rw [hlook.mro_old k (htree.lt i hi k hk), hbefore]
        exact ⟨s.count :: before, rfl⟩
    · rw [hlook.mro_old j hj] at hk ⊢
      rw [hlook.mro_old k (htree.lt j hj k hk)]
      exact htree.tail j hj k hk
  · intro j name v hj
    rw [hlook.next]
    exact h.kept.name j name v (hlook.stored j name v hj)
  · exact fun j k n m ref hj hk =>
      h.kept.distinct j k n m ref (hlook.stored j n _ hj) (hlook.stored k m _ hk)
  · intro j
    show PlainKept (Function.update p.dict p.count (p.dict i) j)
    by_cases hj : j = p.count
    · rw [hj, Function.update_self]
      exact h.plain i
    · rw [Function.update_of_ne hj]
      exact h.plain j
  · rw [hlook.count]
    exact congrArg (· + 1) h.count
  · intro j hj k hk
    show _ = (Function.update p.dict p.count (p.dict i) j).shown k
    rw [h.count]
    rcases hlt j hj with rfl | hj
    · rw [Function.update_self, hseen s.count i k hlook.attr_new, h.seen i hi k hk]
    · rw [Function.update_of_ne hj.ne, hseen j j k (hlook.attr_old j hj), h.seen j hj k hk]

/-- What the loop of `iter` yields, whatever it copies on its way. -/
theorem Agree.iterNames (readonly : Bool) (names : List Str)
    (hnames : ∀ name ∈ names, Usable (nameKey name)) :
    Agree (iterNames i readonly names s).2 p ∧ Same s (iterNames i readonly names s).2 ∧
      (iterNames i readonly names s).1 = (names.filter fun name => !isDunder name).map
        fun name => (nameKey name, (p.dict i).shown (nameKey name)) := by
  induction names generalizing s with
  | nil => exact ⟨h, .refl s, rfl⟩
  | cons name names ih =>
    have hrest : ∀ n ∈ names, Usable (nameKey n) := fun n hn =>
      hnames n (List.mem_cons_of_mem name hn)
    unfold Cow.iterNames
    by_cases hd : isDunder name = true
    · rw [if_pos hd, List.filter_cons_of_neg (by simp [hd])]
      exact ih h hi hrest
    · obtain ⟨hread, hsame, hshown⟩ := h.read hi (hnames name List.mem_cons_self) readonly
      obtain ⟨hagree, hsame', hlist⟩ := ih hread (hsame.count ▸ hi) hrest
      rw [if_neg hd, List.filter_cons_of_pos (by simp [hd])]
      refine ⟨hagree, hsame.trans hsame', ?_⟩
      simp only [List.map_cons, hlist, hshown]

end steps

theorem mem_dirNames {s : Classes α μ} {i : Nat} {name : Str} :
    name ∈ dirNames s i ↔ attr s i name ≠ none := by
  rw [dirNames, Py.mem_sorted, List.mem_toFinset, List.mem_flatMap, attr, Ne, findName_eq_none]
  push Not
  refine exists_congr fun j => and_congr_right fun _ => ?_
  rw [Ne, Dict.get?_eq_none_iff, not_not, Dict.mem_iff_mem_keys]

theorem Kept.nameKey_usable {s : Classes α μ} (h : Kept s) {i : Nat} {name : Str}
    (hname : name ∈ dirNames s i) : Usable (nameKey name) ∧
      (name = nameKey name ∨ name = mutableName (nameKey name)) := by
  obtain ⟨v, hv⟩ := Option.ne_none_iff_exists'.1 (mem_dirNames.1 hname)
  obtain ⟨j, -, hj⟩ := findName_some hv
  obtain ⟨key, hkey, ⟨rfl, -⟩ | ⟨rfl, -⟩⟩ := h.name j name v hj
  · rw [hkey.1.nameKey]
    exact ⟨hkey, .inl rfl⟩
  · rw [nameKey_mutableName]
    exact ⟨hkey, .inr rfl⟩

theorem Agree.step {s : Classes α μ} {p : Plain α μ} (h : Agree s p) {op : Op α μ}
    (hlegal : Legal s op) (hok : KeepsValues s op) : Agree (step s op) (plainStep p op) := by
  cases op with
  | copy i => exact h.copy hlegal
  | set i key arg =>
    obtain ⟨hi, hleaf, hkey, hsame⟩ := hlegal
    obtain ⟨hmeta, harg⟩ := hok
    cases arg with
    | emptyTuple => exact harg.elim
    | atom a => exact h.setAtom hi hleaf ⟨hkey, hmeta⟩ a
    | new m => exact h.setNew hi hleaf ⟨hkey, hmeta⟩ harg m
    | same key' => exact h.setSame hi hleaf ⟨hkey, hmeta⟩ ⟨hsame key' rfl, harg.1⟩ harg.2
  | del i key => exact h.delItem hlegal.1 hlegal.2.1 ⟨hlegal.2.2, hok⟩
  | read i key readonly => exact (h.read hlegal.1 ⟨hlegal.2, hok⟩ readonly).1
  | contains i key => exact h
  | update i key f => exact h.updateItem hlegal.1 hlegal.2.1 ⟨hlegal.2.2, hok⟩ f
  | iterate i readonly =>
    show Agree (if callable s i "iter" then _ else s) p
    rw [if_pos (h.kept.callable i (by decide))]
    exact (h.iterNames hlegal readonly _ fun name hname => (h.kept.nameKey_usable hname).1).1

/-! ### Keys -/

/-- No value changes its kind, nothing is deleted, and the name of a mutable value is no dunder
name. -/
def KeepsKeys (s : Classes α μ) : Op α μ → Prop
  | .set i key (.atom _) => attr s i (mutableName key) = none
  | .set i key (.same key') => key' = key ∨ attr s i (mutableName key) = none
  | .set _ key (.new _) => isDunder (mutableName key) = false
  | .set _ _ .emptyTuple => False
  | .del .. => False
  | _ => True

/-- Each key has one name, and it is listed. -/
structure Listed (s : Classes α μ) : Prop where
  no_marker : ∀ j name, (s.names j).get? name ≠ some .marker
  one : ∀ i < s.count, ∀ key, Usable key → attr s i key ≠ none → attr s i (mutableName key) = none
  not_dunder : ∀ i < s.count, ∀ key, attr s i (mutableName key) ≠ none →
    isDunder (mutableName key) = false

theorem Listed.same {s s' : Classes α μ} (h : Listed s) (hs : Same s s') : Listed s' where
  no_marker := fun j name hm => h.no_marker j name (hs.marker j name hm)
  one := by
    intro i hi key hkey hne
    have hi := hs.count ▸ hi
    exact (hs.none_iff i hi _).2 (h.one i hi key hkey (mt (hs.none_iff i hi key).2 hne))
  not_dunder := by
    intro i hi key hne
    have hi := hs.count ▸ hi
    exact h.not_dunder i hi key (mt (hs.none_iff i hi _).2 hne)

section listed
variable {s : Classes α μ} (hl : Listed s) (h : Kept s) {i : Nat} (hi : i < s.count)
include hl h hi

theorem Listed.setAtom (hleaf : Leaf s i) {key : Str} (hkey : Usable key)
    (hmut : attr s i (mutableName key) = none) (a : α) : Listed (setattr s i key (.atom a)) := by
  have hattr := fun j hj => attr_setattr_leaf h.tree hi hleaf key (.atom a) (j := j) hj
  have hmut' : ∀ j < s.count, ∀ k, attr (setattr s i key (.atom a)) j (mutableName k) =
      attr s j (mutableName k) := by
    intro j hj k
    rw [hattr j hj, if_neg fun hn => hkey.1.ne_mutableName hn.2.symm]
  refine ⟨?_, ?_, ?_⟩
  · intro j name hm
    rw [names_setattr] at hm
    split at hm
    · cases hm
    · exact hl.no_marker j name hm
  · intro j hj k hk hne
    rw [hmut' j hj]
    by_cases hjk : j = i ∧ k = key
    · rw [hjk.1, hjk.2, hmut]
    · rw [hattr j hj, if_neg hjk] at hne
      exact hl.one j hj k hk hne
  · intro j hj k hne
    rw [hmut' j hj] at hne
    exact hl.not_dunder j hj k hne

theorem Listed.setNew (hleaf : Leaf s i) {key : Str} (hplain : attr s i key = none)
    (hd : isDunder (mutableName key) = false) (m : μ) :
    Listed (setattr (alloc s m) i (mutableName key) (.object s.next)) := by
  have htree : Tree (alloc s m) := h.tree.congr rfl rfl
  have hattr : ∀ j < s.count, ∀ name,
      attr (setattr (alloc s m) i (mutableName key) (.object s.next)) j name =
        if j = i ∧ name = mutableName key then some (.object s.next) else attr s j name :=
    fun j hj => attr_setattr_leaf htree hi hleaf _ _ hj
  refine ⟨?_, ?_, ?_⟩
  · intro j name hm
    rw [names_setattr] at hm
    split at hm
    · cases hm
    · exact hl.no_marker j name hm
  · intro j hj k hk hne
    rw [hattr j hj, if_neg fun hn => hk.1.ne_mutableName hn.2] at hne
    rw [hattr j hj, if_neg]
    · exact hl.one j hj k hk hne
    · rintro ⟨rfl, hn⟩
      exact hne (mutableName_inj.1 hn ▸ hplain)
  · intro j hj k hne
    by_cases hn : mutableName k = mutableName key
    · rw [hn]
      exact hd
    · rw [hattr j hj, if_neg fun he => hn he.2] at hne
      exact hl.not_dunder j hj k hne

theorem Listed.copy : Listed (copy s i) := by
  have hlook := h.copy_looks hi
  have hold : ∀ j < (Cow.copy s i).count, ∃ l < s.count, ∀ name,
      attr (Cow.copy s i) j name = attr s l name := by
    intro j hj
    rw [hlook.count] at hj
    rcases Nat.lt_succ_iff_lt_or_eq.1 hj with hj | rfl
    · exact ⟨j, hj, hlook.attr_old j hj⟩
    · exact ⟨i, hi, hlook.attr_new⟩
  refine ⟨fun j name hm => hl.no_marker j name (hlook.stored j name _ hm), ?_, ?_⟩
  · intro j hj k hk hne
    obtain ⟨l, hlt, hl'⟩ := hold j hj
    rw [hl'] at hne ⊢
    exact hl.one l hlt k hk hne
  · intro j hj k hne
    obtain ⟨l, hlt, hl'⟩ := hold j hj
    rw [hl'] at hne
    exact hl.not_dunder l hlt k hne

end listed

theorem setArg_same_none {s s' : Classes α μ} {i : Nat} {key key' : Str}
    (h : getItem s i key' false = (none, s')) : setArg s i key (.same key') = s' := by
  simp only [setArg, h]

theorem setArg_same_some {s s' : Classes α μ} {i : Nat} {key key' : Str} {v : Value α}
    (h : getItem s i key' false = (some v, s')) :
    setArg s i key (.same key') = setItem s' i key v := by
  simp only [setArg, h]

theorem Listed.setSame {s : Classes α μ} {p : Plain α μ} (hl : Listed s) (h : Agree s p) {i : Nat}
    (hi : i < s.count) (hleaf : Leaf s i) {key key' : Str} (hkey : Usable key) (hkey' : Usable key')
    (hcond : key' = key ∨ attr s i (mutableName key) = none)
    (hval : key' = key ∨ ∀ m, shown s i key' true ≠ some (.contents m)) :
    Listed (setArg s i key (.same key')) := by
  obtain ⟨hread, hsame, -⟩ := h.read hi hkey' false
  rcases hres : getItem s i key' false with ⟨v, s'⟩
  rw [hres] at hread hsame
  have hl' : Listed s' := hl.same hsame
  have hi' : i < s'.count := hsame.count ▸ hi
  have hleaf' : Leaf s' i := by
    intro j hj hm
    rw [hsame.mro] at hm
    exact hleaf j (hsame.count ▸ hj) hm
  have hcases := h.read_cases hi hkey'
  rw [hres] at hcases
  rcases hcases with ⟨rfl, hget⟩ | ⟨a, rfl, hget⟩ | ⟨ref, ref', rfl, hget, -, hown⟩
  · rw [setArg_same_none hres]
    exact hl'
  · rw [setArg_same_some hres]
    refine hl'.setAtom hread.kept hi' hleaf' hkey ?_ a
    rcases hcond with rfl | hmut
    · refine hl'.one i hi' key' hkey' fun hnone => ?_
      -- what is read as an immutable value stands under the key itself
      have hseen := hread.seen i hi' key' hkey'
      unfold seenAt PlainDict.shown at hseen
      rw [hnone, hget] at hseen
      cases hm : attr s' i (mutableName key') with
      | none =>
        rw [hm] at hseen
        cases hseen
      | some w =>
        obtain ⟨ref, -, rfl⟩ := hread.kept.attr_mutable hm
        rw [hm] at hseen
        cases hseen
    · exact (hsame.none_iff i hi _).2 hmut
  · have hself : key' = key := by
      refine hval.resolve_right fun hno => ?_
      refine hno ((p.dict i).heap ref') ((h.read hi hkey' true).2.2.trans ?_)
      unfold PlainDict.shown
      rw [hget]
      rfl
    subst hself
    rw [setArg_same_some hres]
    have hnames := attr_setattr_same hown
    have hattr : ∀ j name, attr (setattr s' i (mutableName key') (.object ref)) j name =
        attr s' j name := fun j name => findName_congr fun k _ => hnames k name
    refine ⟨fun j name hm => hl'.no_marker j name ((hnames j name).symm.trans hm), ?_, ?_⟩
    · intro j hj k hk hne
      exact (hattr j _).trans (hl'.one j hj k hk fun hn => hne ((hattr j k).trans hn))
    · intro j hj k hne
      exact hl'.not_dunder j hj k fun hn => hne ((hattr j _).trans hn)

theorem Listed.step {s : Classes α μ} {p : Plain α μ} (hl : Listed s) (h : Agree s p) {op : Op α μ}
    (hlegal : Legal s op) (hok : KeepsValues s op) (hkeys : KeepsKeys s op) :
    Listed (step s op) := by
  cases op with
  | copy i => exact hl.copy h.kept hlegal
  | set i key arg =>
    obtain ⟨hi, hleaf, hkey, hsame⟩ := hlegal
    obtain ⟨hmeta, harg⟩ := hok
    cases arg with
    | emptyTuple => exact harg.elim
    | atom a => exact hl.setAtom h.kept hi hleaf ⟨hkey, hmeta⟩ hkeys a
    | new m => exact hl.setNew h.kept hi hleaf harg hkeys m
    | same key' =>
      exact hl.setSame h hi hleaf ⟨hkey, hmeta⟩ ⟨hsame key' rfl, harg.1⟩ hkeys harg.2
  | del i key => exact hkeys.elim
  | read i key readonly => exact hl.same (h.read hlegal.1 ⟨hlegal.2, hok⟩ readonly).2.1
  | contains i key => exact hl
  | update i key f =>
    have hl' := hl.same (h.read hlegal.1 ⟨hlegal.2.2, hok⟩ false).2.1
    show Listed (updateItem s i key f)
    unfold updateItem
    split
    · rename_i hres
      rw [hres] at hl'
      exact ⟨hl'.no_marker, hl'.one, hl'.not_dunder⟩
    · rename_i hres
      rw [hres] at hl'
      exact hl'
  | iterate i readonly =>
    show Listed (if callable s i "iter" then _ else s)
    rw [if_pos (h.kept.callable i (by decide))]
    exact hl.same
      (h.iterNames hlegal readonly _ fun name hname => (h.kept.nameKey_usable hname).1).2.1

/-! ### Runs -/

/-- The states reached from an empty dictionary by legal operations that satisfy `ok`. -/
inductive Runs (ok : Classes α μ → Op α μ → Prop) : Classes α μ → Plain α μ → Prop
  | start (m m' : μ) : Runs ok (start m) (plainStart m')
  | step {s : Classes α μ} {p : Plain α μ} {op : Op α μ} : Runs ok s p → Legal s op → ok s op →
    Runs ok (step s op) (plainStep p op)

/-- Reads and membership tests give what the plain dictionary has. -/
def Reads (s : Classes α μ) (p : Plain α μ) : Prop :=
  p.count = s.count ∧ ∀ i < s.count, ∀ key, Usable key →
    (∀ readonly, shown s i key readonly = (p.dict i).shown key) ∧
    contains s i key = .ok ((p.dict i).shown key).isSome

/-- The iterations list exactly the keys, and the items, that are present, each once. -/
def Lists (s : Classes α μ) (p : Plain α μ) : Prop :=
  ∀ i < s.count,
    (∃ keys, iterKeys s i = .ok keys ∧ keys.Nodup ∧ ∀ k, k ∈ keys ↔ k ∈ (p.dict i).items) ∧
    ∀ readonly, ∃ items, iterItems s i readonly = .ok items ∧ (items.map Prod.fst).Nodup ∧
      ∀ k v, (k, v) ∈ items ↔ (p.dict i).shown k = some v

theorem start_agree (m m' : μ) : Agree (start m : Classes α μ) (plainStart m') where
  kept :=
    { tree :=
        { self := fun i _ => ⟨[], rfl⟩
          lt := fun i hi j hj => List.mem_singleton.1 hj ▸ hi
          nodup := fun i _ => List.nodup_singleton i
          tail := fun i _ j hj => ⟨[], by rw [List.mem_singleton.1 hj, List.nil_append]⟩ }
      name := fun _ _ _ h => absurd h (Option.some_ne_none _).symm
      distinct := fun _ _ _ _ _ h => absurd h (Option.some_ne_none _).symm }
  plain := fun _ => ⟨fun _ _ h => absurd h (Option.some_ne_none _).symm,
    fun _ _ _ h => absurd h (Option.some_ne_none _).symm⟩
  count := rfl
  seen := fun _ _ _ _ => rfl

theorem start_listed (m : μ) : Listed (start m : Classes α μ) where
  no_marker := fun _ _ h => absurd h (Option.some_ne_none _).symm
  one := fun _ _ _ _ _ => rfl
  not_dunder := fun _ _ _ h => absurd rfl h

theorem Agree.reads {s : Classes α μ} {p : Plain α μ} (h : Agree s p) : Reads s p := by
  refine ⟨h.count, fun i hi key hkey => ⟨fun readonly => (h.read hi hkey readonly).2.2, ?_⟩⟩
  have hshown := (h.read hi hkey true).2.2
  unfold contains
  rw [if_pos (h.kept.callable i (by decide)), ← hshown, shown, Option.isSome_map]

/-- A key is seen if it is stored under one of its names. -/
theorem Listed.seen_iff {s : Classes α μ} (hl : Listed s) {i : Nat} {key : Str} :
    seenAt s i key ≠ none ↔ attr s i key ≠ none ∨ attr s i (mutableName key) ≠ none := by
  unfold seenAt
  cases hattr : attr s i key with
  | none => simp
  | some v =>
    have hv : unmark (some v) = some v := by
      cases v with
      | marker =>
        obtain ⟨j, -, hj⟩ := findName_some hattr
        exact absurd hj (hl.no_marker j key)
      | atom a => rfl
      | object ref => rfl
      | method name => rfl
    simp [hv]

/-- The items among keys that may not be readable. -/
theorem mem_items {f : Str → Option (Seen α μ)} {keys : List Str} {k : Str} {v : Seen α μ} :
    (k, v) ∈ (keys.map fun k => (k, f k)).filterMap (fun e => e.2.map (e.1, ·)) ↔
      k ∈ keys ∧ f k = some v := by
  rw [List.filterMap_map, List.mem_filterMap]
  constructor
  · rintro ⟨k', hk', he⟩
    obtain ⟨w, hw, heq⟩ := Option.map_eq_some_iff.1 he
    obtain ⟨rfl, rfl⟩ := Prod.mk.inj heq
    exact ⟨hk', hw⟩
  · rintro ⟨hk, hv⟩
    exact ⟨k, hk, Option.map_eq_some_iff.2 ⟨v, hv, rfl⟩⟩

theorem keys_items (f : Str → Option (Seen α μ)) (keys : List Str) :
    ((keys.map fun k => (k, f k)).filterMap fun e => e.2.map (e.1, ·)).map Prod.fst =
      keys.filter fun k => (f k).isSome := by
  induction keys with
  | nil => rfl
  | cons k keys ih =>
    rw [List.map_cons]
    cases hf : f k with
    | none => rw [List.filterMap_cons_none (by rfl), ih, List.filter_cons_of_neg (by simp [hf])]
    | some v =>
      rw [List.filterMap_cons_some (by rfl), List.map_cons, ih,
        List.filter_cons_of_pos (by simp [hf])]

/-- The names that the iterations come to are those of the keys that are present. -/
theorem Agree.lists {s : Classes α μ} {p : Plain α μ} (h : Agree s p) (hl : Listed s) :
    Lists s p := by
  intro i hi
  have hiter := fun readonly => (h.iterNames hi readonly (dirNames s i)
    fun name hname => (h.kept.nameKey_usable hname).1).2.2
  have hpresent : ∀ k, k ∈ (p.dict i).items ↔ (p.dict i).shown k ≠ none := by
    intro k
    rw [PlainDict.shown, Ne, Option.map_eq_none_iff, Dict.get?_eq_none_iff, not_not]
  have hmem : ∀ k, k ∈ ((dirNames s i).filter fun name => !isDunder name).map nameKey ↔
      k ∈ (p.dict i).items := by
    intro k
    rw [List.mem_map, hpresent]
    constructor
    · rintro ⟨name, hname, rfl⟩
      have hname := (List.mem_filter.1 hname).1
      obtain ⟨hkey, hcase⟩ := h.kept.nameKey_usable hname
      rw [← h.seen i hi _ hkey, hl.seen_iff]
      have hne := mem_dirNames.1 hname
      rcases hcase with hn | hn
      · exact .inl (hn ▸ hne)
      · exact .inr (hn ▸ hne)
    · intro hk
      obtain ⟨v, hv⟩ := Dict.mem_iff_get?_isSome.1 ((hpresent k).2 hk)
      have hkey := ((h.plain i).value k v hv).1
      rw [← h.seen i hi k hkey, hl.seen_iff] at hk
      rcases hk with hk | hk
      · refine ⟨k, List.mem_filter.2 ⟨mem_dirNames.2 hk, ?_⟩, hkey.1.nameKey⟩
        rw [hkey.1.1]
        rfl
      · refine ⟨mutableName k, List.mem_filter.2 ⟨mem_dirNames.2 hk, ?_⟩, nameKey_mutableName k⟩
        rw [hl.not_dunder i hi k hk]
        rfl
  -- two names of one key would be its own and that of a mutable value
  have hinj : ∀ n ∈ (dirNames s i).filter fun name => !isDunder name,
      ∀ m ∈ (dirNames s i).filter fun name => !isDunder name, nameKey n = nameKey m → n = m := by
    intro n hn m hm heq
    have hn := (List.mem_filter.1 hn).1
    have hm := (List.mem_filter.1 hm).1
    obtain ⟨hkey, hcase⟩ := h.kept.nameKey_usable hn
    obtain ⟨-, hcase'⟩ := h.kept.nameKey_usable hm
    rw [← heq] at hcase'
    have hone := hl.one i hi _ hkey
    rcases hcase with hc | hc <;> rcases hcase' with hc' | hc'
    · exact hc.trans hc'.symm
    · exact absurd (hone (hc ▸ mem_dirNames.1 hn)) (hc' ▸ mem_dirNames.1 hm)
    · exact absurd (hone (hc' ▸ mem_dirNames.1 hm)) (hc ▸ mem_dirNames.1 hn)
    · exact hc.trans hc'.symm
  have hnodup : (((dirNames s i).filter fun name => !isDunder name).map nameKey).Nodup :=
    List.Nodup.map_on hinj ((Py.nodup_sorted _).filter _)
  have hsplit : ∀ readonly, (Cow.iterNames i readonly (dirNames s i) s).1 =
      (((dirNames s i).filter fun name => !isDunder name).map nameKey).map
        fun k => (k, (p.dict i).shown k) := by
    intro readonly
    rw [hiter, List.map_map]
    rfl
  constructor
  · refine ⟨_, if_pos ?_, ?_, ?_⟩
    · rw [h.kept.callable i (by decide), h.kept.callable i (by decide)]
      rfl
    · rw [hiter, List.map_map]
      exact hnodup
    · intro k
      rw [hiter, List.map_map]
      exact hmem k
  · intro readonly
    refine ⟨_, if_pos ?_, ?_, ?_⟩
    · rw [h.kept.callable i (by decide), h.kept.callable i (by decide)]
      rfl
    · rw [hsplit, keys_items]
      exact hnodup.filter _
    · intro k v
      rw [hsplit, mem_items, hmem]
      exact and_iff_right_of_imp fun hv =>
        (hpresent k).2 (hv ▸ Option.some_ne_none v)

theorem Runs.agree {s : Classes α μ} {p : Plain α μ} (h : Runs KeepsValues s p) : Agree s p := by
  induction h with
  | start m m' => exact start_agree m m'
  | step _ hlegal hok ih => exact ih.step hlegal hok

theorem Runs.mono {ok ok' : Classes α μ → Op α μ → Prop} (hok : ∀ s op, ok s op → ok' s op)
    {s : Classes α μ} {p : Plain α μ} (h : Runs ok s p) : Runs ok' s p := by
  induction h with
  | start m m' => exact .start m m'
  | step _ hlegal hstep ih => exact ih.step hlegal (hok _ _ hstep)

theorem Runs.listed {s : Classes α μ} {p : Plain α μ}
    (h : Runs (fun s op => KeepsValues s op ∧ KeepsKeys s op) s p) : Listed s := by
  induction h with
  | start m m' => exact start_listed m
  | step hrun hlegal hok ih =>
    exact ih.step (hrun.mono fun _ _ => And.left).agree hlegal hok.1 hok.2

/-- Copy-on-write dictionaries behave like dictionaries in runs that stay clear of the corners: the
values as long as assignments keep the values, the keys when no value changes its kind either. -/
theorem cow_plain :
    (∀ (s : Classes α μ) p, Runs KeepsValues s p → Reads s p) ∧
      ∀ (s : Classes α μ) p, Runs (fun s op => KeepsValues s op ∧ KeepsKeys s op) s p →
        Reads s p ∧ Lists s p := by
  refine ⟨fun s p h => h.agree.reads, fun s p h => ?_⟩
  have hagree := (h.mono fun _ _ => And.left).agree
  exact ⟨hagree.reads, hagree.lists h.listed⟩

/-- An object is stored, the dictionary copied, and the object changed in the copy. -/
theorem cow_plain_update : Reads
      (step (step (step (start 0 : Classes Nat Nat) (.set 0 ['k'] (.new 5))) (.copy 0))
        (.update 1 ['k'] (· + 1)))
      (plainStep (plainStep (plainStep (plainStart 0) (.set 0 ['k'] (.new 5))) (.copy 0))
        (.update 1 ['k'] (· + 1))) ∧
    Lists
      (step (step (step (start 0 : Classes Nat Nat) (.set 0 ['k'] (.new 5))) (.copy 0))
        (.update 1 ['k'] (· + 1)))
      (plainStep (plainStep (plainStep (plainStart 0) (.set 0 ['k'] (.new 5))) (.copy 0))
        (.update 1 ['k'] (· + 1))) := by
  have hkey : IsKey ['k'] := ⟨by decide, by decide⟩
  have hmeta : ['k'] ∉ metaNames := by decide
  refine cow_plain.2 _ _ (.step (.step (.step (.start 0 0) ⟨?_, ?_, hkey, ?_⟩ ?_) ?_ ?_) ?_ ?_)
  · decide
  · unfold Leaf
    decide
  · intro _ h
    cases h
  · refine ⟨⟨hmeta, rfl⟩, ?_⟩
    show isDunder (mutableName ['k']) = false
    decide
  · exact Nat.one_pos
  · exact ⟨trivial, trivial⟩
  · refine ⟨by decide, ?_, hkey⟩
    unfold Leaf
    decide
  · exact ⟨hmeta, trivial⟩

/-- A mutable value assigned over an immutable one is not seen, and a deleted key is still listed. -/
theorem cow_not_plain :
    ¬ (∀ (s : Classes Nat Nat) p, Runs (fun _ _ => True) s p → Reads s p) ∧
      ¬ ∀ (s : Classes Nat Nat) p, Runs KeepsValues s p → Lists s p := by
  have hkey : IsKey ['k'] := ⟨by decide, by decide⟩
  have hmeta : ['k'] ∉ metaNames := by decide
  have hleaf : Leaf (start 0 : Classes Nat Nat) 0 ∧
      Leaf (step (start 0 : Classes Nat Nat) (.set 0 ['k'] (.atom 1))) 0 := by
    unfold Leaf
    decide
  have hset : Legal (start 0 : Classes Nat Nat) (.set 0 ['k'] (.atom 1)) :=
    ⟨Nat.one_pos, hleaf.1, hkey, fun _ h => by cases h⟩
  constructor
  · intro h
    have hrun : Runs (fun _ _ => True)
        (step (step (start 0 : Classes Nat Nat) (.set 0 ['k'] (.atom 1))) (.set 0 ['k'] (.new 5))) _ :=
      .step (.step (.start 0 0) hset trivial)
        ⟨Nat.one_pos, hleaf.2, hkey, fun _ h => by cases h⟩ trivial
    exact absurd (((h _ _ hrun).2 0 Nat.one_pos ['k'] ⟨hkey, hmeta⟩).1 true) (by decide)
  · intro h
    have hrun : Runs KeepsValues
        (step (step (start 0 : Classes Nat Nat) (.set 0 ['k'] (.atom 1))) (.del 0 ['k'])) _ :=
      .step (.step (.start 0 0) hset ⟨hmeta, trivial⟩) ⟨Nat.one_pos, hleaf.2, hkey⟩ hmeta
    obtain ⟨keys, hkeys, -, hmem⟩ := (h _ _ hrun 0 Nat.one_pos).1
    have hlist : iterKeys (step (step (start 0 : Classes Nat Nat) (.set 0 ['k'] (.atom 1)))
        (.del 0 ['k'])) 0 = .ok [['k']] := by rfl
    cases hkeys.symm.trans hlist
    exact absurd ((hmem ['k']).1 List.mem_cons_self) (by decide)

end Cow
end BitBake
end OpenBmc
