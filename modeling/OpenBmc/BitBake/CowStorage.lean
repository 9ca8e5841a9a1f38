import OpenBmc.BitBake.Cow

/-!
# The storage of copy-on-write dictionaries

`Kept` says what is stored where; `seenAt` what a key shows. `Kept.read` is the law of reading: it
shows `seenAt` and, although it may copy an object into the class, is not seen itself. The laws of
writing are for a class that was not copied (`Leaf`): there the change is seen in that class only.
-/

namespace OpenBmc
namespace BitBake
namespace Cow

variable {α μ : Type}

/-! ### Names -/

/-- A key as the dictionaries take it: no dunder name, and no name of a mutable value. -/
def IsKey (key : Str) : Prop := isDunder key = false ∧ ¬ mutableSuffix <:+ key

/-- A key that is no attribute of the metaclass. -/
def Usable (key : Str) : Prop := IsKey key ∧ key ∉ metaNames

theorem mutableName_inj {key key' : Str} : mutableName key = mutableName key' ↔ key = key' :=
  List.append_left_inj _

theorem IsKey.ne_mutableName {key key' : Str} (h : IsKey key) : key ≠ mutableName key' :=
  fun he => h.2 (he ▸ List.suffix_append key' mutableSuffix)

theorem mutableName_not_meta (key : Str) : mutableName key ∉ metaNames := by
  have hnone : ∀ name ∈ metaNames, mutableSuffix.isSuffixOf name = false := by decide
  intro hmem
  have hsuffix := List.isSuffixOf_iff_suffix.2 (List.suffix_append key mutableSuffix)
  exact absurd hsuffix (Bool.eq_false_iff.1 (hnone _ hmem))

theorem nameKey_mutableName (key : Str) : nameKey (mutableName key) = key := by
  have hsuffix := List.isSuffixOf_iff_suffix.2 (List.suffix_append key mutableSuffix)
  rw [nameKey, if_pos (by exact hsuffix), mutableName, List.length_append, Nat.add_sub_cancel,
    List.take_left]

theorem IsKey.nameKey {key : Str} (h : IsKey key) : nameKey key = key :=
  if_neg fun hs => h.2 (List.isSuffixOf_iff_suffix.1 hs)

/-! ### Lookup -/

section lookup
variable {s : Classes α μ}

theorem findName_append (name : Str) (l l' : List Nat) :
    findName s name (l ++ l') = (findName s name l).or (findName s name l') :=
  List.findSome?_append

theorem findName_cons (name : Str) (j : Nat) (l : List Nat) :
    findName s name (j :: l) = ((s.names j).get? name).or (findName s name l) := by
  unfold findName
  rw [List.findSome?_cons]
  cases (s.names j).get? name <;> rfl

theorem findName_some {name : Str} {l : List Nat} {v : Value α} (h : findName s name l = some v) :
    ∃ j ∈ l, (s.names j).get? name = some v :=
  List.exists_of_findSome?_eq_some h

theorem findName_eq_none {name : Str} {l : List Nat} :
    findName s name l = none ↔ ∀ j ∈ l, (s.names j).get? name = none :=
  List.findSome?_eq_none_iff

theorem findName_congr {s' : Classes α μ} {name : Str} {l : List Nat}
    (h : ∀ j ∈ l, (s'.names j).get? name = (s.names j).get? name) :
    findName s' name l = findName s name l := by
  induction l with
  | nil => rfl
  | cons j l ih =>
    rw [findName_cons, findName_cons, h j List.mem_cons_self,
      ih fun k hk => h k (List.mem_cons_of_mem j hk)]

theorem names_setattr (i : Nat) (name : Str) (v : Value α) (j : Nat) (name' : Str) :
    ((setattr s i name v).names j).get? name' =
      if j = i ∧ name' = name then some v else (s.names j).get? name' := by
  unfold setattr
  by_cases hj : j = i
  · subst hj
    simp only [Function.update_self, Dict.get?_set, true_and]
  · simp only [Function.update_of_ne hj, hj, false_and, if_false]

end lookup

/-- The classes form a tree. -/
structure Tree (s : Classes α μ) : Prop where
  self : ∀ i < s.count, ∃ rest, s.mro i = i :: rest
  lt : ∀ i < s.count, ∀ j ∈ s.mro i, j < s.count
  nodup : ∀ i < s.count, (s.mro i).Nodup
  tail : ∀ i < s.count, ∀ j ∈ s.mro i, ∃ before, s.mro i = before ++ s.mro j

/-- No class was copied from this one. -/
def Leaf (s : Classes α μ) (i : Nat) : Prop := ∀ j < s.count, i ∈ s.mro j → j = i

/-- What `key` shows: the value under its own name hides the mutable one. -/
def seenAt (s : Classes α μ) (i : Nat) (key : Str) : Option (Seen α μ) :=
  match attr s i key with
  | some v => (unmark (some v)).map (Value.see s.heap)
  | none => (attr s i (mutableName key)).map (Value.see s.heap)

/-- The storage: immutable values under keys, objects under the names of mutable values, and no object
in two places. -/
structure Kept (s : Classes α μ) : Prop where
  tree : Tree s
  name : ∀ j name v, (s.names j).get? name = some v → ∃ key, Usable key ∧
    (name = key ∧ v.isMutable = false ∨ name = mutableName key ∧ ∃ ref < s.next, v = .object ref)
  distinct : ∀ i j n m ref, (s.names i).get? n = some (.object ref) →
    (s.names j).get? m = some (.object ref) → i = j ∧ n = m

section kept
variable {s : Classes α μ}

theorem Tree.attr_cons (h : Tree s) {i : Nat} (hi : i < s.count) (name : Str) :
    ∃ rest, s.mro i = i :: rest ∧
      attr s i name = ((s.names i).get? name).or (findName s name rest) := by
  obtain ⟨rest, hrest⟩ := h.self i hi
  refine ⟨rest, hrest, ?_⟩
  rw [attr, hrest, findName_cons]

/-- Setting an attribute of a leaf is seen there only. -/
theorem attr_setattr_leaf (h : Tree s) {i : Nat} (hi : i < s.count) (hleaf : Leaf s i) (name : Str)
    (v : Value α) {j : Nat} (hj : j < s.count) (name' : Str) :
    attr (setattr s i name v) j name' = if j = i ∧ name' = name then some v else attr s j name' := by
  by_cases hji : j = i ∧ name' = name
  · obtain ⟨rfl, rfl⟩ := hji
    obtain ⟨rest, hrest⟩ := h.self j hi
    rw [if_pos ⟨rfl, rfl⟩]
    show findName _ _ (s.mro j) = _
    rw [hrest, findName_cons, names_setattr, if_pos ⟨rfl, rfl⟩]
    rfl
  · rw [if_neg hji]
    refine findName_congr fun k hk => ?_
    rw [names_setattr, if_neg]
    rintro ⟨rfl, hname⟩
    exact hji ⟨hleaf j hj hk, hname⟩

/-- Setting an attribute to what is seen of it anyway changes nothing below either. -/
theorem attr_setattr_seen (h : Tree s) {i : Nat} (hi : i < s.count) {name : Str} {v w : Value α}
    (hv : attr s i name = some v) {j : Nat} (hj : j < s.count) (name' : Str) :
    attr (setattr s i name w) j name' = attr s j name' ∨
      name' = name ∧ attr (setattr s i name w) j name' = some w ∧ attr s j name' = some v := by
  by_cases hname : name' = name
  · subst hname
    by_cases hmem : i ∈ s.mro j
    · obtain ⟨before, hbefore⟩ := h.tail j hj i hmem
      obtain ⟨rest, hrest⟩ := h.self i hi
      have hnot : i ∉ before := by
        have hnd := h.nodup j hj
        rw [hbefore, hrest, List.nodup_append] at hnd
        exact fun hm => hnd.2.2 i hm i List.mem_cons_self rfl
      have hsame : findName (setattr s i name' w) name' before = findName s name' before := by
        refine findName_congr fun k hk => ?_
        rw [names_setattr, if_neg]
        rintro ⟨rfl, -⟩
        exact hnot hk
      have hnew : attr (setattr s i name' w) j name' = (findName s name' before).or (some w) := by
        show findName _ _ (s.mro j) = _
        rw [hbefore, findName_append, hsame, hrest, findName_cons, names_setattr, if_pos ⟨rfl, rfl⟩]
        rfl
      have hold : attr s j name' = (findName s name' before).or (some v) := by
        rw [attr, hbefore, findName_append]
        exact congrArg _ hv
      rw [hnew, hold]
      cases findName s name' before with
      | none => exact .inr ⟨rfl, rfl, rfl⟩
      | some u => exact .inl rfl
    · refine .inl (findName_congr fun k hk => ?_)
      rw [names_setattr, if_neg]
      rintro ⟨rfl, -⟩
      exact hmem hk
  · refine .inl (findName_congr fun k _ => ?_)
    rw [names_setattr, if_neg fun hk => hname hk.2]

namespace Kept
variable (h : Kept s)
include h

theorem attr_key {i : Nat} {key : Str} (hkey : IsKey key) {v : Value α}
    (hv : attr s i key = some v) : v.isMutable = false := by
  obtain ⟨j, -, hj⟩ := findName_some hv
  obtain ⟨k, -, ⟨-, hmut⟩ | ⟨hname, -⟩⟩ := h.name j key v hj
  · exact hmut
  · exact absurd hname hkey.ne_mutableName

theorem name_mutable {j : Nat} {key : Str} {v : Value α}
    (hj : (s.names j).get? (mutableName key) = some v) : ∃ ref < s.next, v = .object ref := by
  obtain ⟨k, hk, ⟨hname, -⟩ | ⟨-, hobj⟩⟩ := h.name j _ v hj
  · exact absurd hname.symm hk.1.ne_mutableName
  · exact hobj

theorem attr_mutable {i : Nat} {key : Str} {v : Value α}
    (hv : attr s i (mutableName key) = some v) : ∃ ref < s.next, v = .object ref := by
  obtain ⟨j, -, hj⟩ := findName_some hv
  exact h.name_mutable hj

/-- No method of the metaclass is hidden. -/
theorem callable (i : Nat) {name : String} (hname : name.toList ∈ metaNames) :
    callable s i name = true := by
  unfold Cow.callable
  rw [Option.isNone_iff_eq_none]
  refine Option.eq_none_iff_forall_ne_some.2 fun v hv => ?_
  obtain ⟨j, -, hj⟩ := findName_some hv
  obtain ⟨key, hkey, ⟨rfl, -⟩ | ⟨hn, -⟩⟩ := h.name j _ v hj
  · exact hkey.2 hname
  · exact mutableName_not_meta key (hn ▸ hname)

end Kept
end kept

/-! ### Reading -/

/-- The state in which the object `ref`, seen at `i`, has been copied there. -/
def copied (s : Classes α μ) (i : Nat) (key : Str) (ref : Nat) : Classes α μ :=
  setattr (alloc s (s.heap ref)) i (mutableName key) (.object s.next)

/-- The outcomes of a reading access. -/
inductive Got (s : Classes α μ) (i : Nat) (key : Str) (readonly : Bool) :
    Option (Value α) → Classes α μ → Prop
  | plain {v : Value α} (hattr : attr s i key = some v) : Got s i key readonly (unmark (some v)) s
  | missing (hattr : attr s i key = none) (hmut : attr s i (mutableName key) = none) :
    Got s i key readonly none s
  | object {ref : Nat} (hattr : attr s i key = none)
    (hmut : attr s i (mutableName key) = some (.object ref))
    (hown : readonly = false → (s.names i).get? (mutableName key) = some (.object ref)) :
    Got s i key readonly (some (.object ref)) s
  | copied {ref : Nat} (hattr : attr s i key = none) (hro : readonly = false)
    (hown : (s.names i).get? (mutableName key) = none)
    (hmut : attr s i (mutableName key) = some (.object ref)) :
    Got s i key readonly (some (.object s.next)) (copied s i key ref)

/-- `s'` shows what `s` shows. -/
structure Same (s s' : Classes α μ) : Prop where
  count : s'.count = s.count
  mro : s'.mro = s.mro
  seen : ∀ j < s.count, ∀ key, Usable key → seenAt s' j key = seenAt s j key
  none_iff : ∀ j < s.count, ∀ name, attr s' j name = none ↔ attr s j name = none
  marker : ∀ j name, (s'.names j).get? name = some .marker → (s.names j).get? name = some .marker

theorem Same.refl (s : Classes α μ) : Same s s :=
  ⟨rfl, rfl, fun _ _ _ _ => rfl, fun _ _ _ => Iff.rfl, fun _ _ h => h⟩

theorem Same.trans {s s' s'' : Classes α μ} (h : Same s s') (h' : Same s' s'') : Same s s'' where
  count := h'.count.trans h.count
  mro := h'.mro.trans h.mro
  seen := fun j hj key hkey => (h'.seen j (h.count ▸ hj) key hkey).trans (h.seen j hj key hkey)
  none_iff := fun j hj name => (h'.none_iff j (h.count ▸ hj) name).trans (h.none_iff j hj name)
  marker := fun j name hm => h.marker j name (h'.marker j name hm)

section reading
variable {s : Classes α μ} (h : Kept s) {i : Nat} (hi : i < s.count) {key : Str} (hkey : Usable key)
include h hi hkey

theorem getItem_got (readonly : Bool) :
    Got s i key readonly (getItem s i key readonly).1 (getItem s i key readonly).2 := by
  unfold getItem getattr
  cases hattr : attr s i key with
  | some v => exact .plain hattr
  | none =>
    rw [if_neg hkey.2]
    obtain ⟨rest, -, hcons⟩ := h.tree.attr_cons hi (mutableName key)
    unfold getMutable
    cases hown : (s.names i).get? (mutableName key) with
    | some v =>
      obtain ⟨ref, -, rfl⟩ := h.name_mutable hown
      have hmut : attr s i (mutableName key) = some (.object ref) := by
        rw [hcons, hown]
        rfl
      dsimp only
      exact .object hattr hmut fun _ => hown
    | none =>
      dsimp only
      unfold getattr
      cases hmut : attr s i (mutableName key) with
      | none =>
        simp only [mutableName_not_meta, if_false]
        exact .missing hattr hmut
      | some v =>
        obtain ⟨ref, -, rfl⟩ := h.attr_mutable hmut
        cases readonly with
        | true => exact .object hattr hmut fun hf => absurd hf (Bool.noConfusion)
        | false => exact .copied hattr rfl hown hmut

end reading

theorem Tree.congr {s s' : Classes α μ} (h : Tree s) (hcount : s'.count = s.count)
    (hmro : s'.mro = s.mro) : Tree s' where
  self := by rw [hcount, hmro]; exact h.self
  lt := by rw [hcount, hmro]; exact h.lt
  nodup := by rw [hcount, hmro]; exact h.nodup
  tail := by rw [hcount, hmro]; exact h.tail

/-- A new object is not seen anywhere. -/
theorem see_alloc (s : Classes α μ) {v : Value α} (hv : ∀ ref, v = .object ref → ref < s.next)
    (m : μ) : v.see (alloc s m).heap = v.see s.heap := by
  cases v with
  | object ref =>
    have hne : ref ≠ s.next := (hv ref rfl).ne
    show Seen.contents (Function.update s.heap s.next m ref) = _
    rw [Function.update_of_ne hne]
    rfl
  | marker => rfl
  | atom a => rfl
  | method name => rfl

theorem Kept.attr_lt {s : Classes α μ} (h : Kept s) {i : Nat} {name : Str} {ref : Nat}
    (hv : attr s i name = some (.object ref)) : ref < s.next := by
  obtain ⟨j, -, hj⟩ := findName_some hv
  obtain ⟨key, -, ⟨-, hmut⟩ | ⟨-, ref', hlt, hobj⟩⟩ := h.name j name _ hj
  · exact absurd hmut Bool.noConfusion
  · cases hobj
    exact hlt

/-- A new object under the name of a mutable value. -/
theorem Kept.setNew {s : Classes α μ} (h : Kept s) (i : Nat) {key : Str} (hkey : Usable key) (m : μ) :
    Kept (setattr (alloc s m) i (mutableName key) (.object s.next)) where
  tree := h.tree.congr rfl rfl
  name := by
    intro j name v hj
    rw [names_setattr] at hj
    split at hj
    · rename_i hn
      cases hj
      exact ⟨key, hkey, .inr ⟨hn.2, s.next, Nat.lt_succ_self _, rfl⟩⟩
    · obtain ⟨k, hk, hcase⟩ := h.name j name v hj
      refine ⟨k, hk, hcase.imp_right ?_⟩
      rintro ⟨hn, ref, hlt, hv⟩
      exact ⟨hn, ref, Nat.lt_succ_of_lt hlt, hv⟩
  distinct := by
    have hold : ∀ j name, ((alloc s m).names j).get? name ≠ some (.object s.next) := by
      intro j name hj
      obtain ⟨k, -, ⟨-, hmut⟩ | ⟨-, ref, hlt, hv⟩⟩ := h.name j name _ hj
      · exact absurd hmut Bool.noConfusion
      · cases hv
        exact lt_irrefl _ hlt
    intro j k n n' ref hj hk
    rw [names_setattr] at hj hk
    split at hj <;> split at hk
    · rename_i hn hn'
      exact ⟨hn.1.trans hn'.1.symm, hn.2.trans hn'.2.symm⟩
    · cases hj
      exact absurd hk (hold k n')
    · cases hk
      exact absurd hj (hold j n)
    · exact h.distinct j k n n' ref hj hk

/-- An immutable value, or the marker, under a key. -/
theorem Kept.setPlain {s : Classes α μ} (h : Kept s) (i : Nat) {key : Str} (hkey : Usable key)
    {v : Value α} (hv : v.isMutable = false) : Kept (setattr s i key v) where
  tree := h.tree.congr rfl rfl
  name := by
    intro j name w hj
    rw [names_setattr] at hj
    split at hj
    · rename_i hn
      cases hj
      exact ⟨key, hkey, .inl ⟨hn.2, hv⟩⟩
    · exact h.name j name w hj
  distinct := by
    have hne : ∀ ref, some v ≠ some (.object ref) := by
      rintro ref ⟨⟩
      exact absurd hv Bool.noConfusion
    intro j k n n' ref hj hk
    rw [names_setattr] at hj hk
    split at hj
    · exact absurd hj (hne ref)
    · split at hk
      · exact absurd hk (hne ref)
      · exact h.distinct j k n n' ref hj hk

theorem see_attr_alloc {s : Classes α μ} (h : Kept s) (i : Nat) (name : Str) (m : μ) :
    (attr s i name).map (Value.see (alloc s m).heap) = (attr s i name).map (Value.see s.heap) := by
  cases hv : attr s i name with
  | none => rfl
  | some v =>
    refine congrArg some (see_alloc s ?_ m)
    rintro ref rfl
    exact h.attr_lt hv

/-- `seenAt` from the two lookups. -/
theorem seenAt_congr {s s' : Classes α μ} (h : Kept s) {j : Nat} {key : Str} (hkey : Usable key)
    (hattr : attr s' j key = attr s j key)
    (hmut : (attr s' j (mutableName key)).map (Value.see s'.heap) =
      (attr s j (mutableName key)).map (Value.see s.heap)) : seenAt s' j key = seenAt s j key := by
  unfold seenAt
  rw [hattr]
  cases hv : attr s j key with
  | none => exact hmut
  | some v =>
    have hm := h.attr_key hkey.1 hv
    cases v with
    | object ref => exact absurd hm Bool.noConfusion
    | method name => exact absurd hm Bool.noConfusion
    | marker => rfl
    | atom a => rfl

/-- Copying an object on reading is not seen. -/
theorem Kept.same_copied {s : Classes α μ} (h : Kept s) {i : Nat} (hi : i < s.count) {key : Str}
    {ref : Nat} (hmut : attr s i (mutableName key) = some (.object ref)) :
    Same s (copied s i key ref) := by
  have htree : Tree (alloc s (s.heap ref)) := h.tree.congr rfl rfl
  have hseen := fun j hj name' => attr_setattr_seen (s := alloc s (s.heap ref)) htree hi
    (w := .object s.next) hmut (j := j) hj name'
  refine ⟨rfl, rfl, ?_, ?_, ?_⟩
  · intro j hj k hk
    refine seenAt_congr h hk ?_ ?_
    · rcases hseen j hj k with heq | ⟨hname, -⟩
      · exact heq
      · exact absurd hname hk.1.ne_mutableName
    · rcases hseen j hj (mutableName k) with heq | ⟨-, hnew, hold⟩
      · exact (congrArg _ heq).trans (see_attr_alloc h j _ _)
      · rw [copied, hnew]
        refine Eq.trans ?_ (congrArg (Option.map _) hold).symm
        show some (Seen.contents (Function.update s.heap s.next (s.heap ref) s.next)) = _
        rw [Function.update_self]
        rfl
  · intro j hj name
    rcases hseen j hj name with heq | ⟨-, hnew, hold⟩
    · rw [copied, heq]
      rfl
    · rw [copied, hnew]
      refine ⟨fun hn => absurd hn (Option.some_ne_none _), fun hn => ?_⟩
      exact absurd (hold.symm.trans hn) (Option.some_ne_none _)
  · intro j name hm
    rw [copied, names_setattr] at hm
    split at hm
    · cases hm
    · exact hm

/-- After `cls[key]` an object that was read is stored in the class itself. -/
def Owns (s : Classes α μ) (i : Nat) (key : Str) (v : Option (Value α)) : Prop :=
  ∀ ref, v = some (.object ref) → (s.names i).get? (mutableName key) = some (.object ref)

theorem Got.spec {s : Classes α μ} (h : Kept s) {i : Nat} (hi : i < s.count) {key : Str}
    (hkey : Usable key) {readonly : Bool} {v : Option (Value α)} {s' : Classes α μ}
    (hgot : Got s i key readonly v s') :
    Kept s' ∧ Same s s' ∧ v.map (Value.see s'.heap) = seenAt s i key ∧
      (readonly = false → Owns s' i key v) := by
  cases hgot with
  | @plain v hattr =>
    have hmut := h.attr_key hkey.1 hattr
    refine ⟨h, .refl s, ?_, ?_⟩
    · rw [seenAt, hattr]
    · rintro - ref hv
      cases v with
      | object ref => exact absurd hmut Bool.noConfusion
      | method name => exact absurd hmut Bool.noConfusion
      | marker => cases hv
      | atom a => cases hv
  | missing hattr hmut =>
    refine ⟨h, .refl s, ?_, fun _ ref hv => absurd hv (Option.some_ne_none _).symm⟩
    rw [seenAt, hattr, hmut]
  | object hattr hmut hown =>
    refine ⟨h, .refl s, ?_, ?_⟩
    · rw [seenAt, hattr, hmut]
    · rintro hro ref ⟨⟩
      exact hown hro
  | copied hattr hro hown hmut =>
    refine ⟨h.setNew i hkey _, h.same_copied hi hmut, ?_, ?_⟩
    · rw [seenAt, hattr, hmut]
      show some (Seen.contents (Function.update s.heap s.next _ s.next)) = _
      rw [Function.update_self]
      rfl
    · rintro - ref ⟨⟩
      rw [Cow.copied, names_setattr, if_pos ⟨rfl, rfl⟩]

/-- Reading shows what is stored and is not seen itself. -/
theorem Kept.read {s : Classes α μ} (h : Kept s) {i : Nat} (hi : i < s.count) {key : Str}
    (hkey : Usable key) (readonly : Bool) :
    Kept (getItem s i key readonly).2 ∧ Same s (getItem s i key readonly).2 ∧
      shown s i key readonly = seenAt s i key ∧
      (readonly = false → Owns (getItem s i key readonly).2 i key (getItem s i key readonly).1) :=
  (getItem_got h hi hkey readonly).spec h hi hkey

/-! ### Writing to a class that was not copied -/

section writing
variable {s : Classes α μ} (h : Kept s) {i : Nat} (hi : i < s.count) (hleaf : Leaf s i) {key : Str}
include h hi hleaf

theorem seenAt_setPlain {v : Value α} {j : Nat} (hj : j < s.count)
    {k : Str} (hk : Usable k) (hkey : Usable key) : seenAt (setattr s i key v) j k =
      if j = i ∧ k = key then (unmark (some v)).map (Value.see s.heap) else seenAt s j k := by
  by_cases hjk : j = i ∧ k = key
  · obtain ⟨rfl, rfl⟩ := hjk
    rw [if_pos ⟨rfl, rfl⟩, seenAt, attr_setattr_leaf h.tree hi hleaf _ _ hi, if_pos ⟨rfl, rfl⟩]
    rfl
  · rw [if_neg hjk]
    refine seenAt_congr h hk ?_ ?_
    · rw [attr_setattr_leaf h.tree hi hleaf _ _ hj, if_neg hjk]
    · rw [attr_setattr_leaf h.tree hi hleaf _ _ hj,
        if_neg fun hn => hkey.1.ne_mutableName hn.2.symm]
      rfl

theorem seenAt_setNew (hplain : attr s i key = none) (m : μ) {j : Nat} (hj : j < s.count)
    {k : Str} (hk : Usable k) :
    seenAt (setattr (alloc s m) i (mutableName key) (.object s.next)) j k =
      if j = i ∧ k = key then some (.contents m) else seenAt s j k := by
  have htree : Tree (alloc s m) := h.tree.congr rfl rfl
  have hattr : ∀ name, attr (setattr (alloc s m) i (mutableName key) (.object s.next)) j name =
      if j = i ∧ name = mutableName key then some (.object s.next) else attr s j name :=
    attr_setattr_leaf htree hi hleaf _ _ hj
  have hname : attr (setattr (alloc s m) i (mutableName key) (.object s.next)) j k = attr s j k := by
    rw [hattr, if_neg fun hn => hk.1.ne_mutableName hn.2]
  by_cases hjk : j = i ∧ k = key
  · obtain ⟨rfl, rfl⟩ := hjk
    rw [if_pos ⟨rfl, rfl⟩, seenAt, hname, hplain, hattr, if_pos ⟨rfl, rfl⟩]
    show some (Seen.contents (Function.update s.heap s.next m s.next)) = _
    rw [Function.update_self]
  · rw [if_neg hjk]
    refine seenAt_congr h hk hname ?_
    rw [hattr, if_neg fun hn => hjk ⟨hn.1, mutableName_inj.1 hn.2⟩]
    exact see_attr_alloc h j _ m

/-- A change in place of an object that the class owns. -/
theorem seenAt_update {ref : Nat} (hplain : attr s i key = none)
    (hown : (s.names i).get? (mutableName key) = some (.object ref)) (m : μ) {j : Nat}
    (hj : j < s.count) {k : Str} (hk : Usable k) :
    seenAt { s with heap := Function.update s.heap ref m } j k =
      if j = i ∧ k = key then some (.contents m) else seenAt s j k := by
  by_cases hjk : j = i ∧ k = key
  · obtain ⟨rfl, rfl⟩ := hjk
    obtain ⟨rest, -, hcons⟩ := h.tree.attr_cons hi (mutableName k)
    have hmut : attr s j (mutableName k) = some (.object ref) := by
      rw [hcons, hown]
      rfl
    have hplain' : attr { s with heap := Function.update s.heap ref m } j k = none := hplain
    have hmut' : attr { s with heap := Function.update s.heap ref m } j (mutableName k) =
      some (.object ref) := hmut
    rw [if_pos ⟨rfl, rfl⟩, seenAt, hplain', hmut']
    show some (Seen.contents (Function.update s.heap ref m ref)) = _
    rw [Function.update_self]
  · rw [if_neg hjk]
    refine seenAt_congr h hk rfl ?_
    show (attr s j (mutableName k)).map (Value.see (Function.update s.heap ref m)) = _
    cases hv : attr s j (mutableName k) with
    | none => rfl
    | some v =>
      obtain ⟨l, hl, hstored⟩ := findName_some hv
      obtain ⟨ref', -, rfl⟩ := h.name_mutable hstored
      have hne : ref' ≠ ref := by
        rintro rfl
        obtain ⟨rfl, hn⟩ := h.distinct l i _ _ ref' hstored hown
        exact hjk ⟨hleaf j hj hl, mutableName_inj.1 hn⟩
      show some (Seen.contents (Function.update s.heap ref m ref')) = _
      rw [Function.update_of_ne hne]
      rfl

end writing

/-- The place in which an object is stored is set to it again. -/
theorem attr_setattr_same {s : Classes α μ} {i : Nat} {name : Str} {v : Value α}
    (hown : (s.names i).get? name = some v) (j : Nat) (name' : Str) :
    ((setattr s i name v).names j).get? name' = (s.names j).get? name' := by
  rw [names_setattr]
  split
  · rename_i hn
    rw [hn.1, hn.2, hown]
  · rfl

/-! ### Copying -/

/-- What is found where in a state with a copy of `i`. -/
structure Copies (s : Classes α μ) (i : Nat) (s' : Classes α μ) : Prop where
  count : s'.count = s.count + 1
  heap : s'.heap = s.heap
  next : s'.next = s.next
  mro_new : s'.mro s.count = s.count :: s.mro i
  mro_old : ∀ j < s.count, s'.mro j = s.mro j
  stored : ∀ j name v, (s'.names j).get? name = some v → (s.names j).get? name = some v
  attr_new : ∀ name, attr s' s.count name = attr s i name
  attr_old : ∀ j < s.count, ∀ name, attr s' j name = attr s j name

theorem Kept.copy_looks {s : Classes α μ} (h : Kept s) {i : Nat} (hi : i < s.count) :
    Copies s i (copy s i) := by
  have htree := h.tree
  unfold copy
  rw [if_pos (h.callable i (by decide))]
  have hmro : ∀ j < s.count,
      Function.update s.mro s.count (s.count :: s.mro i) j = s.mro j :=
    fun j hj => Function.update_of_ne hj.ne ..
  set s' : Classes α μ := ⟨s.count + 1, Function.update s.mro s.count (s.count :: s.mro i),
    Function.update s.names s.count .empty, s.heap, s.next⟩ with hs'
  have hself : s'.mro s.count = s.count :: s.mro i := Function.update_self ..
  have hempty : ∀ name, (s'.names s.count).get? name = none := fun name => by
    rw [hs']
    simp only [Function.update_self]
    rfl
  have hattr : ∀ j < s.count, ∀ name, findName s' name (s.mro j) = attr s j name := by
    intro j hj name
    refine findName_congr fun k hk => ?_
    exact congrArg (Dict.get? · name) (Function.update_of_ne (htree.lt j hj k hk).ne ..)
  refine ⟨rfl, rfl, rfl, hself, hmro, ?_, ?_, ?_⟩
  · intro j name v hj
    by_cases hjc : j = s.count
    · rw [hjc, hempty] at hj
      cases hj
    · have hj : ((Function.update s.names s.count .empty j).get? name) = some v := hj
      rwa [Function.update_of_ne hjc] at hj
  · intro name
    rw [attr, hself, findName_cons, hempty, Option.none_or, hattr i hi]
  · intro j hj name
    rw [← hattr j hj name]
    exact congrArg (findName s' name) (hmro j hj)

end Cow
end BitBake
end OpenBmc
