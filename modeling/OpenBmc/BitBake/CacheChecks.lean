import OpenBmc.BitBake.CacheDamage

/-!
# Checking the recipes of a damaged cache

`cacheValid` and `loadCached` over all recipes, after what is left of the cache files was loaded. An entry
is only ever removed by the check of its own recipe, so a recipe that was found valid keeps the entries
of its variants. A check raises in two cases: the first info is not that of the core, or it reaches a
name in `file_checksums` that has no colon.
-/

namespace OpenBmc
namespace BitBake
namespace RecipeCache
open Py Names

/-! ### One check -/

/-- What is recorded of the recipe is unchanged up to a file in `file_checksums` that has no colon. -/
def Malformed (env : Env) (mtime : Stamp) (core : Core) : Prop :=
  mtime = core.timestamp ∧ (core.fileDepends.getD []).all (fun f => !dependChanged env f) ∧
    ∃ before f after, core.checksumFiles = before ++ f :: after ∧ ':' ∉ f ∧
      ∀ g ∈ before, ∃ file exist, rpartition ':' g = (some file, exist) ∧
        existChanged env file exist = false

theorem checksumChanged_error {env : Env} {fs : List Str} :
    (∃ e, checksumChanged env fs = .error e) ↔
      ∃ before f after, fs = before ++ f :: after ∧ ':' ∉ f ∧
        ∀ g ∈ before, ∃ file exist, rpartition ':' g = (some file, exist) ∧
          existChanged env file exist = false := by
  induction fs with
  | nil => exact iff_of_false (by rintro ⟨e, h⟩; cases h) (by simp)
  | cons f fs ih =>
    rcases hpart : rpartition ':' f with ⟨_ | file, exist⟩
    · have hcolon : ':' ∉ f := (rpartition_none hpart).2
      refine iff_of_true ⟨.value, by rw [checksumChanged, hpart]⟩ ?_
      exact ⟨[], f, fs, rfl, hcolon, by simp⟩
    · have hcolon : ':' ∈ f := by
        rw [rpartition_some hpart]
        simp
      cases hex : existChanged env file exist with
      | true =>
        refine iff_of_false ?_ ?_
        · rintro ⟨e, h⟩
          rw [checksumChanged, hpart] at h
          simp [hex] at h
        · rintro ⟨_ | ⟨g, before⟩, f', after, hsplit, hf', hbefore⟩
          · obtain ⟨rfl, -⟩ := List.cons.inj hsplit
            exact hf' hcolon
          · obtain ⟨rfl, -⟩ := List.cons.inj hsplit
            obtain ⟨file', exist', hpart', hex'⟩ := hbefore f (List.mem_cons_self ..)
            rw [hpart] at hpart'
            cases hpart'
            rw [hex] at hex'
            cases hex'
      | false =>
        have hnext : checksumChanged env (f :: fs) = checksumChanged env fs := by
          rw [checksumChanged, hpart]
          simp [hex]
        rw [hnext, ih]
        constructor
        · rintro ⟨before, f', after, rfl, hf', hbefore⟩
          refine ⟨f :: before, f', after, rfl, hf', ?_⟩
          exact List.forall_mem_cons.2 ⟨⟨file, exist, hpart, hex⟩, hbefore⟩
        · rintro ⟨_ | ⟨g, before⟩, f', after, hsplit, hf', hbefore⟩
          · obtain ⟨rfl, -⟩ := List.cons.inj hsplit
            exact absurd hcolon hf'
          · obtain ⟨rfl, rfl⟩ := List.cons.inj hsplit
            exact ⟨before, f', after, rfl, hf', (List.forall_mem_cons.1 hbefore).2⟩

theorem changed_error {env : Env} {mtime : Stamp} {appends : List Str} {core : Core} :
    (∃ e, changed env mtime appends core = .error e) ↔ Malformed env mtime core := by
  unfold changed Malformed
  rw [← checksumChanged_error]
  by_cases hm : mtime = core.timestamp
  · by_cases hd : (core.fileDepends.getD []).any (dependChanged env)
    · refine iff_of_false ?_ ?_
      · rintro ⟨e, h⟩
        simp [hm, hd] at h
      · rintro ⟨-, hall, -⟩
        simp [List.all_eq_not_any_not, hd] at hall
    · have hall : (core.fileDepends.getD []).all (fun f => !dependChanged env f) := by
        simpa [List.all_eq_not_any_not] using hd
      simp only [hm, hd, hall, true_and, ne_eq, not_true_eq_false, if_false]
      rcases checksumChanged env core.checksumFiles with e | _ | _ <;> simp
  · refine iff_of_false ?_ ?_
    · rintro ⟨e, h⟩
      simp [hm] at h
    · rintro ⟨h, -⟩
      exact hm h

/-- The check of `fn` raises on the entries `dependsCache`. -/
def Fails (env : Env) (dependsCache : Dict Str (List Info)) (fn : Str) : Prop :=
  ∃ mtime, env.mtime fn = some mtime ∧ ∃ infoArray, dependsCache.get? fn = some infoArray ∧
    ((∃ name rest, infoArray = .extra name :: rest) ∨
      ∃ core rest, infoArray = .core core :: rest ∧ Malformed env mtime core)

/-- The variants of a recipe have an info of each class, in the order of the classes. -/
def Complete (caches : Caches) (dependsCache : Dict Str (List Info)) (fn : Str) : Prop :=
  ∃ core rest, dependsCache.get? fn = some (.core core :: rest) ∧
    ∀ variant ∈ core.variants, ∃ infoArray,
      dependsCache.get? (variant2virtual fn variant) = some infoArray ∧
        infoArray.map Info.className = caches.array

theorem variant2virtual_or (fn variant : Str) : variant2virtual fn variant = fn ∨
    "virtual:".toList <+: variant2virtual fn variant ∨ "mc:".toList <+: variant2virtual fn variant := by
  unfold variant2virtual
  split
  · exact .inl rfl
  · split
    · refine .inr (.inr ?_)
      dsimp only
      split
      · simp only [List.append_assoc]
        exact List.prefix_append _ _
      · simp only [List.append_assoc]
        exact List.prefix_append _ _
    · simp only [List.append_assoc]
      exact .inr (.inl (List.prefix_append _ _))

/-- A variant has the name of another recipe file never. -/
theorem variant2virtual_ne {fn g : RecipeFile} (h : g ≠ fn) (variant : Str) :
    variant2virtual g variant ≠ fn := by
  intro heq
  rcases variant2virtual_or g variant with hg | hv | hm
  · exact h (Subtype.ext (hg.symm.trans heq))
  · exact fn.2.1 (heq ▸ hv)
  · exact fn.2.2 (heq ▸ hm)

/-- What the entries of the others keep of a recipe that was found valid. -/
theorem Complete.frame {caches : Caches} {dependsCache dependsCache' : Dict Str (List Info)}
    {fn g : RecipeFile} (h : Complete caches dependsCache g) (hg : g ≠ fn)
    (hother : ∀ k ≠ fn.1, dependsCache'.get? k = dependsCache.get? k) :
    Complete caches dependsCache' g := by
  obtain ⟨core, rest, hget, hvariants⟩ := h
  refine ⟨core, rest, ?_, fun variant hv => ?_⟩
  · rw [hother g.1 fun h => hg (Subtype.ext h), hget]
  · obtain ⟨infoArray, harr, hclass⟩ := hvariants variant hv
    exact ⟨infoArray, by rw [hother _ (variant2virtual_ne hg variant), harr], hclass⟩

/-- What a check of `fn` that does not raise does to the cache. -/
structure Updated (caches : Caches) (fn : RecipeFile) (s s' : Cache) : Prop where
  checked : s'.checked = insert fn.1 s.checked
  others : ∀ k ≠ fn.1, s'.dependsCache.get? k = s.dependsCache.get? k
  own : s'.dependsCache.get? fn = s.dependsCache.get? fn ∨ s'.dependsCache.get? fn = none
  clean : ∀ g : RecipeFile, g ≠ fn → (g.1 ∈ s'.clean ↔ g.1 ∈ s.clean)
  valid : fn.1 ∈ s'.clean → fn.1 ∈ s.clean ∨ Complete caches s'.dependsCache fn

section Update
variable {env : Env} {caches : Caches} {s : Cache} {fn : RecipeFile} {appends : List Str}

theorem Updated.remove : Updated caches fn s
    ⟨s.dependsCache.erase fn, insert fn.1 s.checked, s.clean.erase fn⟩ where
  checked := rfl
  others := fun k hk => by rw [Dict.get?_erase, if_neg hk]
  own := .inr (by rw [Dict.get?_erase, if_pos rfl])
  clean := fun g hg => by
    rw [Finset.mem_erase]
    exact and_iff_right fun h => hg (Subtype.ext h)
  valid := fun h => absurd rfl (Finset.mem_erase.1 h).1

theorem not_mem_virtualfns {g : RecipeFile} (hg : g ≠ fn) (variants : List Str) :
    g.1 ∉ (variants.map (variant2virtual fn)).toFinset := by
  rw [List.mem_toFinset, List.mem_map]
  rintro ⟨variant, -, h⟩
  exact variant2virtual_ne hg.symm variant h

theorem extraMissing_eq_false {key : Str}
    (hs : ∀ k infoArray, s.dependsCache.get? k = some infoArray →
      (infoArray.map Info.className).Sublist caches.array)
    (h : s.extraMissing caches key = false) : ∃ infoArray,
      s.dependsCache.get? key = some infoArray ∧ infoArray.map Info.className = caches.array := by
  unfold Cache.extraMissing at h
  cases hget : s.dependsCache.get? key with
  | none => simp [hget] at h
  | some infoArray =>
    refine ⟨infoArray, rfl, (hs key infoArray hget).eq_of_length ?_⟩
    simpa [hget] using h

/-- The check raises on what `Fails` says, and otherwise it is an `Updated`. -/
theorem cacheValidUpdate_cases
    (hs : ∀ k infoArray, s.dependsCache.get? k = some infoArray →
      infoArray ≠ [] ∧ (infoArray.map Info.className).Sublist caches.array) :
    (Fails env s.dependsCache fn ∧ ∃ e, s.cacheValidUpdate env caches fn appends = .error e) ∨
      (¬ Fails env s.dependsCache fn ∧
        ∃ b s', s.cacheValidUpdate env caches fn appends = .ok (b, s') ∧ Updated caches fn s s') := by
  unfold Fails
  rcases hget : s.dependsCache.get? fn with _ | infoArray
  · refine .inr ⟨by simp, false, { s with checked := insert fn.1 s.checked }, ?_, ?_⟩
    · simp only [Cache.cacheValidUpdate, hget]
    · exact ⟨rfl, fun _ _ => rfl, .inl rfl, fun _ _ => Iff.rfl, .inl⟩
  rcases hm : env.mtime fn with _ | mtime
  · refine .inr ⟨by simp, false, _, ?_, Updated.remove⟩
    simp only [Cache.cacheValidUpdate, hget, hm, Cache.remove]
  rcases infoArray with _ | ⟨core | name, rest⟩
  · exact absurd rfl (hs _ _ hget).1
  · by_cases hmal : Malformed env mtime core
    · obtain ⟨e, he⟩ := (@changed_error env mtime appends core).2 hmal
      refine .inl ⟨⟨mtime, rfl, _, rfl, .inr ⟨core, rest, rfl, hmal⟩⟩, e, ?_⟩
      simp only [Cache.cacheValidUpdate, hget, hm, coreOf, he, bind, Except.bind]
    · refine .inr ⟨by simpa using hmal, ?_⟩
      rcases hc : changed env mtime appends core with e | _ | _
      · exact absurd (changed_error.1 ⟨e, hc⟩) hmal
      · have hout : ∀ g : RecipeFile, g ≠ fn → g.1 ∉ (core.variants.map (variant2virtual fn)).toFinset :=
          fun g hg => not_mem_virtualfns hg core.variants
        rcases hmiss : (core.variants.map (variant2virtual fn)).any (s.extraMissing caches) with _ | _
        · refine ⟨true, ⟨s.dependsCache, insert fn.1 s.checked,
            insert fn.1 (s.clean ∪ (core.variants.map (variant2virtual fn)).toFinset)⟩, ?_,
            rfl, fun _ _ => rfl, .inl rfl, fun g hg => ?_, fun _ => .inr ?_⟩
          · simp only [Cache.cacheValidUpdate, hget, hm, coreOf, hc, bind, Except.bind, pure,
              Except.pure, Bool.false_eq_true, if_false]
            exact if_neg (Bool.eq_false_iff.1 hmiss)
          · have hne : g.1 ≠ fn.1 := fun h => hg (Subtype.ext h)
            rw [Finset.mem_insert, Finset.mem_union, or_iff_right hne, or_iff_left (hout g hg)]
          · refine ⟨core, rest, hget, fun variant hv => ?_⟩
            refine extraMissing_eq_false (fun k arr h => (hs k arr h).2) ?_
            exact Bool.eq_false_iff.2 (List.any_eq_false.1 hmiss _ (List.mem_map_of_mem hv))
        · refine ⟨false, ⟨s.dependsCache, insert fn.1 s.checked,
            ((s.clean ∪ (core.variants.map (variant2virtual fn)).toFinset) \
              (core.variants.map (variant2virtual fn)).toFinset).erase fn.1⟩, ?_,
            rfl, fun _ _ => rfl, .inl rfl, fun g hg => ?_, fun h => ?_⟩
          · simp only [Cache.cacheValidUpdate, hget, hm, coreOf, hc, bind, Except.bind, pure,
              Except.pure, Bool.false_eq_true, if_false]
            exact if_pos hmiss
          · have hne : g.1 ≠ fn.1 := fun h => hg (Subtype.ext h)
            rw [Finset.mem_erase, Finset.mem_sdiff, Finset.mem_union, or_iff_left (hout g hg),
              and_iff_right hne, and_iff_left (hout g hg)]
          · exact absurd rfl (Finset.mem_erase.1 h).1
      · refine ⟨false, _, ?_, Updated.remove⟩
        simp only [Cache.cacheValidUpdate, hget, hm, coreOf, hc, bind, Except.bind, if_true, pure,
          Except.pure, Cache.remove]
  · refine .inl ⟨⟨mtime, rfl, _, rfl, .inl ⟨name, rest, rfl⟩⟩, .attribute, ?_⟩
    simp only [Cache.cacheValidUpdate, hget, hm, coreOf, bind, Except.bind]

end Update

/-! ### All recipes -/

/-- The cache after some checks, where `loaded` are the entries before them. -/
structure Inv (caches : Caches) (loaded : Dict Str (List Info)) (s : Cache) : Prop where
  entries : ∀ k, s.dependsCache.get? k = loaded.get? k ∨ s.dependsCache.get? k = none
  unchecked : ∀ fn : RecipeFile, fn.1 ∉ s.checked → s.dependsCache.get? fn = loaded.get? fn
  clean : ∀ fn : RecipeFile, fn.1 ∈ s.clean → fn.1 ∈ s.checked ∧ Complete caches s.dependsCache fn

namespace Inv
variable {env : Env} {caches : Caches} {loaded : Dict Str (List Info)} {s s' : Cache}
  {fn : RecipeFile}

theorem updated (h : Inv caches loaded s) (hfn : fn.1 ∉ s.checked) (hu : Updated caches fn s s') :
    Inv caches loaded s' where
  entries := fun k => by
    by_cases hk : k = fn.1
    · subst hk
      rcases hu.own with ho | ho
      · rw [ho]
        exact h.entries _
      · exact .inr ho
    · rw [hu.others k hk]
      exact h.entries k
  unchecked := fun g hg => by
    rw [hu.checked, Finset.mem_insert, not_or] at hg
    rw [hu.others g hg.1]
    exact h.unchecked g hg.2
  clean := fun g hg => by
    rw [hu.checked, Finset.mem_insert]
    by_cases hgf : g = fn
    · subst hgf
      have hnot : g.1 ∉ s.clean := fun hc => hfn (h.clean g hc).1
      exact ⟨.inl rfl, (hu.valid hg).resolve_left hnot⟩
    · obtain ⟨hchecked, hcomplete⟩ := h.clean g ((hu.clean g hgf).1 hg)
      exact ⟨.inr hchecked, hcomplete.frame hgf hu.others⟩

/-- One call: it raises on an unchecked recipe only, or the cache stays as it has to be. -/
theorem cacheValid (h : Inv caches loaded s)
    (hl : ∀ k infoArray, loaded.get? k = some infoArray →
      infoArray ≠ [] ∧ (infoArray.map Info.className).Sublist caches.array)
    (fn : RecipeFile) (appends : List Str) :
    ((fn.1 ∉ s.checked ∧ Fails env loaded fn) ∧
        ∃ e, s.cacheValid env caches fn appends = .error e) ∨
      (fn.1 ∉ s.checked → ¬ Fails env loaded fn) ∧
        ∃ s', s.cacheValid env caches fn appends = .ok (decide (fn.1 ∈ s'.clean), s') ∧
          Inv caches loaded s' ∧ s'.checked = insert fn.1 s.checked ∧
            ∀ g : RecipeFile, g.1 ∈ s.clean → g.1 ∈ s'.clean := by
  by_cases hfn : fn.1 ∈ s.checked
  · refine .inr ⟨fun hnot => absurd hfn hnot, s, ?_, h, ?_, fun _ hg => hg⟩
    · simp only [Cache.cacheValid, hfn, if_true, bind, Except.bind, pure, Except.pure]
    · exact (Finset.insert_eq_of_mem hfn).symm
  · have hs : ∀ k infoArray, s.dependsCache.get? k = some infoArray →
        infoArray ≠ [] ∧ (infoArray.map Info.className).Sublist caches.array := fun k infoArray hk =>
      hl k infoArray (((h.entries k).resolve_right (by simp [hk])).symm.trans hk)
    have hfails : Fails env s.dependsCache fn ↔ Fails env loaded fn := by
      unfold Fails
      rw [h.unchecked fn hfn]
    rcases @cacheValidUpdate_cases env _ _ fn appends hs with
      ⟨hf, e, he⟩ | ⟨hf, b, s', hrun, hu⟩
    · refine .inl ⟨⟨hfn, hfails.1 hf⟩, e, ?_⟩
      simp only [Cache.cacheValid, hfn, if_false, he, bind, Except.bind, Functor.map, Except.map]
    · refine .inr ⟨fun _ => hfails.not.1 hf, s', ?_, h.updated hfn hu, hu.checked, fun g hg => ?_⟩
      · simp only [Cache.cacheValid, hfn, if_false, hrun, bind, Except.bind, Functor.map, Except.map,
          pure, Except.pure]
      · by_cases hgf : g = fn
        · exact absurd (hgf ▸ (h.clean g hg).1) hfn
        · exact (hu.clean g hgf).2 hg

/-- All calls: they raise when one of the recipes does, and keep those that were found valid. -/
theorem fromCache (h : Inv caches loaded s)
    (hl : ∀ k infoArray, loaded.get? k = some infoArray →
      infoArray ≠ [] ∧ (infoArray.map Info.className).Sublist caches.array)
    (recipes : List (RecipeFile × List Str)) :
    ((∃ r ∈ recipes, r.1.1 ∉ s.checked ∧ Fails env loaded r.1) ∧
        ∃ e, fromCache env caches s recipes = .error e) ∨
      (∀ r ∈ recipes, r.1.1 ∉ s.checked → ¬ Fails env loaded r.1) ∧
        ∃ fns s', fromCache env caches s recipes = .ok (fns, s') ∧ Inv caches loaded s' ∧
          (∀ g : RecipeFile, g.1 ∈ s.clean → g.1 ∈ s'.clean) ∧ ∀ g ∈ fns, g.1 ∈ s'.clean := by
  induction recipes generalizing s with
  | nil => exact .inr ⟨by simp, [], s, rfl, h, fun _ hg => hg, by simp⟩
  | cons r recipes ih =>
    obtain ⟨fn, appends⟩ := r
    rcases h.cacheValid hl fn appends with ⟨⟨hfn, hf⟩, e, he⟩ | ⟨hf, s₁, hrun, h₁, hchecked, hclean⟩
    · refine .inl ⟨⟨_, List.mem_cons_self .., hfn, hf⟩, e, ?_⟩
      simp only [RecipeCache.fromCache, he, bind, Except.bind]
    · rcases ih h₁ with ⟨⟨r, hr, hrc, hrf⟩, e, he⟩ | ⟨hrest, fns, s₂, hrun₂, h₂, hclean₂, hfns⟩
      · have hnot : r.1.1 ∉ s.checked := fun hin => hrc (hchecked ▸ Finset.mem_insert_of_mem hin)
        refine .inl ⟨⟨r, List.mem_cons_of_mem _ hr, hnot, hrf⟩, e, ?_⟩
        simp only [RecipeCache.fromCache, hrun, he, bind, Except.bind]
      · refine .inr ⟨?_, if decide (fn.1 ∈ s₁.clean) then fn :: fns else fns, s₂, ?_, h₂,
          fun g hg => hclean₂ g (hclean g hg), ?_⟩
        · refine List.forall_mem_cons.2 ⟨hf, fun r hr hrc => ?_⟩
          by_cases hrf : r.1 = fn
          · exact hrf ▸ hf (hrf ▸ hrc)
          · refine hrest r hr ?_
            rw [hchecked, Finset.mem_insert, not_or]
            exact ⟨fun heq => hrf (Subtype.ext heq), hrc⟩
        · simp only [RecipeCache.fromCache, hrun, hrun₂, bind, Except.bind, pure, Except.pure]
        · intro g hg
          split at hg
          · next hvalid =>
            rcases List.mem_cons.1 hg with rfl | hg
            · exact hclean₂ g (of_decide_eq_true hvalid)
            · exact hfns g hg
          · exact hfns g hg

end Inv

theorem mapM_ok {α β : Type} {f : α → Except Error β} {l : List α} (h : ∀ a ∈ l, ∃ b, f a = .ok b) :
    ∃ bs, l.mapM f = .ok bs := by
  induction l with
  | nil => exact ⟨[], rfl⟩
  | cons a l ih =>
    obtain ⟨ha, hl⟩ := List.forall_mem_cons.1 h
    obtain ⟨b, hb⟩ := ha
    obtain ⟨bs, hbs⟩ := ih hl
    refine ⟨b :: bs, ?_⟩
    rw [List.mapM_cons, hb, hbs]
    rfl

theorem Complete.loadCached {caches : Caches} {s : Cache} {fn : Str}
    (h : Complete caches s.dependsCache fn) : ∃ infos, s.loadCached fn = .ok infos := by
  obtain ⟨core, rest, hget, hvariants⟩ := h
  simp only [Cache.loadCached, hget, Option.elim, coreOf, bind, Except.bind]
  refine mapM_ok fun variant hv => ?_
  obtain ⟨infoArray, harr, -⟩ := hvariants variant hv
  simp only [harr]
  exact ⟨_, rfl⟩

/-! ### Damage -/

/-- Loading and the checks do not raise, and each recipe that is taken from the cache has variants that
are complete and can be loaded. -/
def Survives (env : Env) (caches : Caches) (files : Str → Option (List Obj))
    (recipes : List (RecipeFile × List Str)) : Prop :=
  ∃ s fns s', prepareCache env caches files = .ok s ∧
    fromCache env caches s recipes = .ok (fns, s') ∧
      ∀ fn ∈ fns, Complete caches s'.dependsCache fn ∧ ∃ infos, s'.loadCached fn = .ok infos

section Damaged
variable {caches : Caches} (w : Written caches) (d : Damage) (env : Env)

/-- The recipe file exists, and its record was cut off in the file of the core but not in that of another
class, or the record of the core is reached at a malformed file list. -/
def Breaks (fn : Str) : Prop :=
  ∃ mtime, env.mtime fn = some mtime ∧ (Orphan w d env fn ∨
    ∃ core, coreName ∈ readClasses w d env ∧ (fn, .core core) ∈ records w d env coreName ∧
      Malformed env mtime core)

theorem fails_iff {dependsCache : Dict Str (List Info)} (h : Holds dependsCache (found w d env))
    (fn : Str) : Fails env dependsCache fn ↔ Breaks w d env fn := by
  have hget : ∀ info rest, dependsCache.get? fn = some (info :: rest) ↔
      found w d env fn = info :: rest := by
    intro info rest
    rw [h fn]
    by_cases hf : found w d env fn = []
    · simp [hf]
    · rw [if_neg hf, Option.some_inj]
  unfold Fails Breaks
  refine exists_congr fun mtime => and_congr_right fun _ => ?_
  rw [found_orphan]
  constructor
  · rintro ⟨_, hinfo, ⟨name, rest, rfl⟩ | ⟨core, rest, rfl, hmal⟩⟩
    · exact .inl ⟨name, rest, (hget _ _).1 hinfo⟩
    · have hmem : Info.core core ∈ found w d env fn := (hget _ _).1 hinfo ▸ List.mem_cons_self ..
      exact .inr ⟨core, (mem_found.1 hmem).1, (mem_found.1 hmem).2, hmal⟩
  · rintro (⟨name, rest, hf⟩ | ⟨core, hread, hrec, hmal⟩)
    · exact ⟨_, (hget _ _).2 hf, .inl ⟨name, rest, rfl⟩⟩
    · obtain ⟨rest, hf⟩ := found_core (mem_found.2 ⟨hread, hrec⟩)
      exact ⟨_, (hget _ _).2 hf, .inr ⟨core, rest, rfl, hmal⟩⟩

/-- The cache survives the damage exactly when no recipe is broken by it. -/
theorem recipes_survive_iff (recipes : List (RecipeFile × List Str)) :
    Survives env caches (files w d env) recipes ↔ ∀ r ∈ recipes, ¬ Breaks w d env r.1 := by
  obtain ⟨dependsCache, hprep, hholds⟩ := prepareCache_ok w d env
  have hl : ∀ k infoArray, dependsCache.get? k = some infoArray →
      infoArray ≠ [] ∧ (infoArray.map Info.className).Sublist caches.array := by
    intro k infoArray hk
    rw [hholds k] at hk
    split at hk
    · cases hk
    · next hne =>
      cases hk
      exact ⟨hne, className_found⟩
  have hinv : Inv caches dependsCache ⟨dependsCache, ∅, ∅⟩ :=
    ⟨fun _ => .inl rfl, fun _ _ => rfl, fun _ hg => absurd hg (Finset.notMem_empty _)⟩
  rcases @Inv.fromCache env _ _ _ hinv hl recipes with
    ⟨⟨r, hr, -, hf⟩, e, he⟩ | ⟨hnone, fns, s', hrun, hinv', -, hfns⟩
  · refine iff_of_false ?_ fun hall => hall r hr ((fails_iff w d env hholds r.1).1 hf)
    rintro ⟨s, fns, s', hs, hrun, -⟩
    rw [hprep] at hs
    cases hs
    rw [he] at hrun
    cases hrun
  · refine iff_of_true ⟨_, fns, s', hprep, hrun, fun fn hfn => ?_⟩ fun r hr hb => ?_
    · have hcomplete := (hinv'.clean fn (hfns fn hfn)).2
      exact ⟨hcomplete, hcomplete.loadCached⟩
    · exact hnone r hr (Finset.notMem_empty _) ((fails_iff w d env hholds r.1).2 hb)

end Damaged

/-! ### The core file cut behind its versions -/

def siggenName : Str := "SiggenRecipeInfo".toList

theorem siggenName_ne : siggenName ≠ coreName := by decide

theorem twoClasses_nodup : (coreName :: [siggenName]).Nodup := by decide

def twoClasses : Caches := ⟨[siggenName], twoClasses_nodup⟩

theorem oneRecipe_real : ¬ "virtual:".toList <+: "/a.bb".toList ∧ ¬ "mc:".toList <+: "/a.bb".toList := by
  decide

def oneRecipe : RecipeFile := ⟨"/a.bb".toList, oneRecipe_real⟩

def oneArray : List Info := [.core ⟨(1, 1, 1), none, [[]], [], none⟩, .extra ⟨siggenName, siggenName_ne⟩]

theorem oneArray_inOrder : ∀ e ∈ ((Dict.empty : Dict Str (List Info)).set oneRecipe oneArray).entries,
    (e.2.map Info.className).Sublist twoClasses.array := by
  intro e he
  obtain rfl := List.mem_singleton.1 he
  exact List.Sublist.refl _

def oneWritten : Written twoClasses := ⟨Dict.empty.set oneRecipe oneArray, oneArray_inOrder⟩

/-- Each object has one byte: the two versions are left of the core's file, all of the other file. -/
def coreCut : Damage := ⟨fun _ _ => 1, fun name => if name = coreName then some 2 else some 4⟩

def oneFile : Env := ⟨fun f => if f = oneRecipe.1 then some (1, 1, 1) else none, fun _ => false, "2".toList⟩

/-- The array of the recipe has the info of the other class only, and `timestamp` is looked up there. -/
theorem core_cut_raises :
    ¬ Survives oneFile twoClasses (files oneWritten coreCut oneFile) [(oneRecipe, [])] := by
  have hprep : prepareCache oneFile twoClasses (files oneWritten coreCut oneFile) =
      .ok ⟨Dict.empty.set oneRecipe [.extra ⟨siggenName, siggenName_ne⟩], ∅, ∅⟩ := by rfl
  have hraise : fromCache oneFile twoClasses
      ⟨Dict.empty.set oneRecipe [.extra ⟨siggenName, siggenName_ne⟩], ∅, ∅⟩ [(oneRecipe, [])] =
        .error .attribute := by rfl
  rintro ⟨s, fns, s', hs, hrun, -⟩
  rw [hprep] at hs
  obtain rfl := Except.ok.inj hs
  rw [hraise] at hrun
  cases hrun

end RecipeCache
end BitBake
end OpenBmc
