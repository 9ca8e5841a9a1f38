import OpenBmc.BitBake.LayerLines

/-!
# The passes over a `bblayers.conf`

What one assignment of `BBLAYERS` becomes: the entries of `removelayers` each take one layer, which
is all they match where they are not ambiguous (`TakesAll`), and the first assignment may get the
layers to add.
-/

namespace OpenBmc
namespace BitBake
open Py

/-! ### What a file says -/

def settingsOf (items : List Item) : List Setting :=
  items.filterMap fun
    | .line _ => none
    | .setting s => some s

/-- The lines of no assignment. -/
def othersOf (items : List Item) : List Str :=
  items.filterMap fun
    | .line l => some l
    | .setting _ => none

def MetaFile.settings (f : MetaFile) : List Setting := settingsOf f.items

def MetaFile.others (f : MetaFile) : List Str := othersOf f.items

abbrev readLayers (conf : List Str) : MetaFile := readMetaFile [bblayersName] conf

/-- The value behind some assignments: `=` sets it, `+=` adds to it. -/
def evalFrom : List Str → List (Str × List Str) → List Str
  | acc, [] => acc
  | acc, (op, layers) :: rest => evalFrom (if op = ['='] then layers else acc ++ layers) rest

section Says
variable (env : LayerEnv)

def LayerEnv.paths (s : Setting) : List Str := s.layers.map env.canonicalisePath

def LayerEnv.assigns (s : Setting) : Str × List Str := (s.op, env.paths s)

/-- The layers that the file evaluates to, as canonical paths. -/
def LayerEnv.layersOf (f : MetaFile) : List Str := evalFrom [] (f.settings.map env.assigns)

/-- An entry of `removelayers` matches the path. -/
def LayerEnv.hit (removelayers : List Str) (path : Str) : Bool :=
  removelayers.any fun r => fnmatch path (env.canonicalisePath r)

def LayerEnv.kept (removelayers paths : List Str) : List Str :=
  paths.filter fun c => !env.hit removelayers c

end Says

theorem evalFrom_append (xs ys : List (Str × List Str)) : ∀ acc : List Str,
    evalFrom acc (xs ++ ys) = evalFrom (evalFrom acc xs) ys := by
  induction xs with
  | nil => exact fun acc => rfl
  | cons x xs ih => exact fun acc => ih _

theorem evalFrom_filter (p : Str → Bool) (xs : List (Str × List Str)) : ∀ acc : List Str,
    (evalFrom acc xs).filter p = evalFrom (acc.filter p) (xs.map fun x => (x.1, x.2.filter p)) := by
  induction xs with
  | nil => exact fun acc => rfl
  | cons x xs ih =>
    intro acc
    rw [List.map_cons, evalFrom, evalFrom, ih]
    split
    · rfl
    · rw [List.filter_append]

/-- Behind the first assignment, `+=` only adds. -/
theorem evalFrom_of_appends {xs : List (Str × List Str)} (h : ∀ x ∈ xs, x.1 ≠ ['=']) :
    ∀ acc : List Str, evalFrom acc xs = acc ++ xs.flatMap Prod.snd := by
  induction xs with
  | nil => intro acc; simp [evalFrom]
  | cons x xs ih =>
    intro acc
    rw [evalFrom, if_neg (h x (by simp)), ih fun y hy => h y (by simp [hy])]
    simp

/-! ### Taking layers away -/

section Remove
variable {env : LayerEnv}

/-- The entries match no two layers of the list each, and no layer is matched by two of them. -/
structure TakesAll (env : LayerEnv) (removelayers layers : List Str) : Prop where
  once : ∀ r ∈ removelayers, layers.countP (env.layerMatches r) ≤ 1
  apart : ∀ r ∈ removelayers, ∀ r' ∈ removelayers, r ≠ r' → ∀ w ∈ layers,
    env.layerMatches r w → ¬ env.layerMatches r' w

theorem erase_find {α : Type} [BEq α] [LawfulBEq α] {p : α → Bool} {x : α} : ∀ {l : List α},
    l.countP p ≤ 1 → l.find? p = some x → l.erase x = l.filter fun y => !p y
  | [], _, h => by cases h
  | y :: ys, hc, h => by
    cases hy : p y with
    | true =>
      rw [List.find?_cons, hy] at h
      obtain rfl : y = x := Option.some.inj h
      rw [List.countP_cons_of_pos hy] at hc
      have h0 : ys.countP p = 0 := by omega
      have hnone := List.countP_eq_zero.1 h0
      rw [List.erase_cons_head, List.filter_cons, hy]
      refine (List.filter_eq_self.2 fun z hz => ?_).symm
      simpa using hnone z hz
    | false =>
      rw [List.find?_cons, hy] at h
      rw [List.countP_cons_of_neg (by simp [hy])] at hc
      have hne : y ≠ x := by
        rintro rfl
        have := List.find?_some h
        rw [hy] at this
        cases this
      rw [List.erase_cons_tail (by simpa using hne), List.filter_cons, hy, erase_find hc h]
      rfl

theorem remove_spec (r : Str) (p : LayerPass) (h : p.bblayers.countP (env.layerMatches r) ≤ 1) :
    p.remove env r = ⟨p.bblayers.filter fun w => !env.layerMatches r w,
      if p.bblayers.any (env.layerMatches r) then p.removed ++ [r] else p.removed,
      p.updated || p.bblayers.any (env.layerMatches r)⟩ := by
  unfold LayerPass.remove
  cases hf : p.bblayers.find? (env.layerMatches r) with
  | some x =>
    have hany : p.bblayers.any (env.layerMatches r) := List.any_eq_true.2
      ⟨x, List.mem_of_find?_eq_some hf, List.find?_some hf⟩
    show (⟨p.bblayers.erase x, p.removed ++ [r], true⟩ : LayerPass) = _
    rw [hany, erase_find h hf, if_pos rfl, Bool.or_true]
  | none =>
    have hnone := List.find?_eq_none.1 hf
    have hany : p.bblayers.any (env.layerMatches r) = false := by simpa using hnone
    have hself : (p.bblayers.filter fun w => !env.layerMatches r w) = p.bblayers :=
      List.filter_eq_self.2 fun w hw => by simpa using hnone w hw
    rw [hany, hself]
    simp

theorem layerMatches_hit (removelayers : List Str) (w : Str) :
    env.hit removelayers (env.canonicalisePath w) =
      removelayers.any fun r => env.layerMatches r w := rfl

theorem TakesAll.tail {r : Str} {rs layers : List Str} (h : TakesAll env (r :: rs) layers) :
    TakesAll env rs (layers.filter fun w => !env.layerMatches r w) := by
  refine ⟨fun r' hr' => ?_, fun r' hr' r'' hr'' hne w hw => ?_⟩
  · exact (List.Sublist.countP_le List.filter_sublist).trans (h.once r' (by simp [hr']))
  · exact h.apart r' (by simp [hr']) r'' (by simp [hr'']) hne w (List.mem_of_mem_filter hw)

/-- All entries together take what any of them matches. -/
theorem remove_all : ∀ (rs : List Str) (p : LayerPass), TakesAll env rs p.bblayers →
    (rs.foldl (LayerPass.remove env) p).bblayers =
        p.bblayers.filter (fun w => !env.hit rs (env.canonicalisePath w)) ∧
      (rs.foldl (LayerPass.remove env) p).updated =
        (p.updated || p.bblayers.any fun w => env.hit rs (env.canonicalisePath w)) ∧
      ∀ x, x ∈ (rs.foldl (LayerPass.remove env) p).removed ↔
        x ∈ p.removed ∨ x ∈ rs ∧ ∃ w ∈ p.bblayers, env.layerMatches x w
  | [], p, _ => by simp [LayerEnv.hit]
  | r :: rs, p, h => by
    have hspec := remove_spec r p (h.once r (by simp))
    have htail := h.tail
    obtain ⟨h₁, h₂, h₃⟩ := remove_all rs (p.remove env r) (by rw [hspec]; exact htail)
    rw [hspec] at h₁ h₂ h₃
    rw [List.foldl_cons, hspec]
    refine ⟨?_, ?_, fun x => ?_⟩
    · rw [h₁, List.filter_filter]
      refine List.filter_congr fun w _ => ?_
      rw [layerMatches_hit, layerMatches_hit, List.any_cons, Bool.not_or, Bool.and_comm]
    · rw [h₂, List.any_filter, Bool.or_assoc]
      congr 1
      rw [Bool.eq_iff_iff]
      simp only [Bool.or_eq_true, List.any_eq_true, Bool.and_eq_true, layerMatches_hit, List.any_cons]
      constructor
      · rintro (⟨w, hw, hm⟩ | ⟨w, hw, -, hm⟩)
        · exact ⟨w, hw, .inl hm⟩
        · exact ⟨w, hw, .inr hm⟩
      · rintro ⟨w, hw, hm | hm⟩
        · exact .inl ⟨w, hw, hm⟩
        · by_cases hr : env.layerMatches r w
          · exact .inl ⟨w, hw, hr⟩
          · exact .inr ⟨w, hw, by simpa using hr, hm⟩
    · rw [h₃]
      have hmem : x ∈ (if p.bblayers.any (env.layerMatches r) then p.removed ++ [r] else p.removed) ↔
          x ∈ p.removed ∨ x = r ∧ ∃ w ∈ p.bblayers, env.layerMatches r w := by
        rw [← List.any_eq_true]
        split
        · next ha => simp [ha]
        · next ha => simp [ha]
      rw [hmem, List.mem_cons]
      constructor
      · rintro ((hx | ⟨rfl, hw⟩) | ⟨hx, w, hw, hm⟩)
        · exact .inl hx
        · exact .inr ⟨.inl rfl, hw⟩
        · exact .inr ⟨.inr hx, w, List.mem_of_mem_filter hw, hm⟩
      · rintro (hx | ⟨hx, w, hw, hm⟩)
        · exact .inl (.inl hx)
        · by_cases hxr : x = r
          · exact .inl (.inr ⟨hxr, w, hw, hxr ▸ hm⟩)
          · have hx' := hx.resolve_left hxr
            have hr : ¬ env.layerMatches r w := h.apart x (by simp [hx']) r (by simp) hxr w hw hm
            exact .inr ⟨hx', w, List.mem_filter.2 ⟨hw, by simpa using hr⟩, hm⟩

theorem add_all : ∀ (adds : List Str) (p : LayerPass), (∀ a ∈ adds, a ∉ p.bblayers) → adds.Nodup →
    adds.foldl LayerPass.add p =
      { p with bblayers := p.bblayers ++ adds, updated := p.updated || adds ≠ [] }
  | [], p, _, _ => by simp
  | a :: adds, p, h, hd => by
    have ha : p.add a = { p with bblayers := p.bblayers ++ [a], updated := true } :=
      if_neg (h a (by simp))
    obtain ⟨hnot, hd'⟩ := List.nodup_cons.1 hd
    rw [List.foldl_cons, ha, add_all adds _ ?_ hd']
    · simp
    · intro b hb hmem
      rcases List.mem_append.1 hmem with hm | hm
      · exact h b (by simp [hb]) hm
      · exact hnot (List.mem_singleton.1 hm ▸ hb)

/-! ### One assignment -/

/-- A layer that keeps its canonical path when its trailing separator is removed, and is none but a
separator. -/
structure PlainLayer (w : Str) : Prop where
  ne_nil : removeTrailingSep w ≠ []
  twice : removeTrailingSep (removeTrailingSep w) = removeTrailingSep w

theorem PlainLayer.canonicalisePath {w : Str} (h : PlainLayer w) :
    env.canonicalisePath (removeTrailingSep w) = env.canonicalisePath w := by
  rw [LayerEnv.canonicalisePath, h.twice]
  rfl

theorem PlainLayer.isWord {w : Str} (h : PlainLayer w) (hw : IsWord w) :
    IsWord (removeTrailingSep w) := by
  refine ⟨h.ne_nil, fun c hc => hw.2 c ?_⟩
  unfold removeTrailingSep at hc
  split at hc
  · exact List.mem_of_mem_dropLast hc
  · exact hc

/-- The layers that an assignment is left with, before its value is written. -/
def LayerEnv.left (env : LayerEnv) (removelayers : List Str) (s : Setting) : List Str :=
  (s.layers.map removeTrailingSep).filter fun w => !env.hit removelayers (env.canonicalisePath w)

/-- What the second pass has in the place of an assignment that gets the layers `now`; nothing, if
it stays as it is. -/
def LayerEnv.newValue (env : LayerEnv) (removelayers now : List Str) (s : Setting) :
    Option (Option NewValue) :=
  if (env.paths s).any (env.hit removelayers) || now ≠ [] then
    some (if s.op = "+=".toList ∧ env.left removelayers s ++ now = [] then none
      else some (.items (env.left removelayers s ++ now)))
  else none

theorem map_left {s : Setting} (hp : ∀ w ∈ s.layers, PlainLayer w) (removelayers : List Str) :
    (env.left removelayers s).map env.canonicalisePath = env.kept removelayers (env.paths s) := by
  unfold LayerEnv.left LayerEnv.kept LayerEnv.paths
  rw [List.filter_map, List.filter_map, List.map_map]
  have hf : (s.layers.filter ((fun w => !env.hit removelayers (env.canonicalisePath w)) ∘
      removeTrailingSep)) = s.layers.filter ((fun c => !env.hit removelayers c) ∘
        env.canonicalisePath) :=
    List.filter_congr fun w hw => by
      show (!env.hit removelayers (env.canonicalisePath (removeTrailingSep w))) = _
      rw [(hp w hw).canonicalisePath]
      rfl
  rw [hf]
  exact List.map_congr_left fun w hw => (hp w (List.mem_of_mem_filter hw)).canonicalisePath

theorem layerMatches_removeTrailingSep {w : Str} (h : PlainLayer w) (r : Str) :
    env.layerMatches r (removeTrailingSep w) = env.layerMatches r w := by
  rw [LayerEnv.layerMatches, LayerEnv.layerMatches, h.canonicalisePath]

theorem TakesAll.map {removelayers layers : List Str} (h : TakesAll env removelayers layers)
    (hp : ∀ w ∈ layers, PlainLayer w) :
    TakesAll env removelayers (layers.map removeTrailingSep) := by
  refine ⟨fun r hr => ?_, fun r hr r' hr' hne w hw hm hm' => ?_⟩
  · rw [List.countP_map]
    refine le_of_eq_of_le (List.countP_congr fun w hw => ?_) (h.once r hr)
    rw [Function.comp_apply, layerMatches_removeTrailingSep (hp w hw)]
  · obtain ⟨x, hx, rfl⟩ := List.mem_map.1 hw
    rw [layerMatches_removeTrailingSep (hp x hx)] at hm hm'
    exact h.apart r hr r' hr' hne x hx hm hm'

/-- Behind the removal, the layers to add go into the list unless they get lines of their own. -/
theorem add_unless_several {adds : List Str} {several : Bool} {p : LayerPass}
    (hfresh : several = false → ∀ a ∈ adds, a ∉ p.bblayers) (hd : adds.Nodup) :
    (if adds ≠ [] && !several then (adds.foldl LayerPass.add p, []) else (p, adds)) =
      (({ p with
          bblayers := p.bblayers ++ if several then [] else adds
          updated := p.updated || (if several then [] else adds) ≠ [] } : LayerPass),
        if several then adds else []) := by
  cases several with
  | true => simp
  | false =>
    by_cases ha : adds = []
    · simp [ha]
    · simp only [ha, ne_eq, not_false_eq_true, decide_true, Bool.not_false, Bool.and_self, if_true,
        Bool.false_eq_true, if_false]
      rw [add_all adds p (hfresh rfl) hd]
      simp [ha]

/-- The second pass at one assignment. -/
theorem handleBblayers_spec {removelayers : List Str} {several : Bool} {s : Setting}
    {adds : List Str} (removed : List Str) (hp : ∀ w ∈ s.layers, PlainLayer w)
    (ht : TakesAll env removelayers s.layers)
    (hfresh : several = false → ∀ a ∈ adds, a ∉ env.left removelayers s) (hd : adds.Nodup)
    (name : Str) (newlines : List Str) :
    ∃ removed', handleBblayers env removelayers several none name s.value s.op newlines
        (removed, adds) =
        (⟨(env.newValue removelayers (if several then [] else adds) s).getD (some (.text s.value)),
          none, .spaces 2, false⟩, newlines, (removed', if several then adds else [])) ∧
      ∀ x, x ∈ removed' ↔ x ∈ removed ∨ x ∈ removelayers ∧ ∃ w ∈ s.layers, env.layerMatches x w := by
  obtain ⟨h₁, h₂, h₃⟩ := remove_all removelayers
    ⟨s.layers.map removeTrailingSep, removed, false⟩ (ht.map hp)
  have hpaths : (s.layers.map removeTrailingSep).map env.canonicalisePath = env.paths s := by
    rw [LayerEnv.paths, List.map_map]
    exact List.map_congr_left fun w hw => (hp w hw).canonicalisePath
  have hany : ((s.layers.map removeTrailingSep).any fun w =>
      env.hit removelayers (env.canonicalisePath w)) = (env.paths s).any (env.hit removelayers) := by
    rw [← hpaths, List.any_map, List.any_map, List.any_map]
    rfl
  generalize hP : removelayers.foldl (LayerPass.remove env)
    ⟨s.layers.map removeTrailingSep, removed, false⟩ = P at h₁ h₂ h₃
  have hb : P.bblayers = env.left removelayers s := h₁
  have hu : P.updated = (env.paths s).any (env.hit removelayers) := by
    rw [h₂, ← hany]
    rfl
  have hadd := @add_unless_several adds several P (by rw [hb]; exact hfresh) hd
  refine ⟨P.removed, ?_, fun x => (h₃ x).trans (or_congr_right (and_congr_right fun _ => ?_))⟩
  · unfold handleBblayers
    dsimp only
    rw [show words s.value = s.layers from rfl, hP, hadd]
    simp only [LayerPass.editCb, hb, hu, LayerEnv.newValue]
    generalize (if several then [] else adds) = now
    by_cases hc : ((env.paths s).any (env.hit removelayers) || decide (now ≠ [])) = true
    · rw [if_pos hc, if_pos hc]
      rfl
    · rw [if_neg hc, if_neg hc]
      rfl
  · constructor
    · rintro ⟨w, hw, hm⟩
      obtain ⟨y, hy, rfl⟩ := List.mem_map.1 hw
      exact ⟨y, hy, layerMatches_removeTrailingSep (hp y hy) x ▸ hm⟩
    · rintro ⟨y, hy, hm⟩
      exact ⟨_, List.mem_map_of_mem hy, (layerMatches_removeTrailingSep (hp y hy) x).symm ▸ hm⟩

end Remove

end BitBake
end OpenBmc
