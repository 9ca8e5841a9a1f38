import OpenBmc.BitBake.LayerPasses

/-!
# Layer edits

What `edit_bblayers_conf` reports is what it did where the arguments are not ambiguous: no entry of
`remove` matches two layers of an assignment, no two match the same layer, and nothing is to be
added in front of another `=`. Layers are compared by their canonical paths.
-/

namespace OpenBmc
namespace BitBake
open Py

/-! ### The claim -/

/-- The edit did what it reports. -/
structure DoesAsReported (env : LayerEnv) (conf add remove : List Str) (r : LayersEdit) : Prop where
  layers : env.layersOf (readLayers r.lines) =
    env.kept remove (env.layersOf (readLayers conf)) ++
      ((add.map env.canonicalisePath).filter fun c => c ∉ env.layersOf (readLayers conf)).dedup
  notadded : r.notadded = add.filter fun a =>
    env.canonicalisePath a ∈ env.layersOf (readLayers conf) ∧
      ¬ env.hit remove (env.canonicalisePath a)
  notremoved : ∀ x, x ∈ r.notremoved ↔ x ∈ remove ∧
    ∀ c ∈ env.layersOf (readLayers conf), ¬ fnmatch c (env.canonicalisePath x)
  others : (readLayers r.lines).others = (readLayers conf).others

/-! ### What is left of the other lines -/

section Pass
variable (env : LayerEnv) (removelayers : List Str)

/-- A `+=` that loses all its layers. -/
def LayerEnv.emptied (s : Setting) : Bool :=
  s.op = "+=".toList && s.layers ≠ [] && (env.paths s).all (env.hit removelayers)

/-- The lines of no assignment that are left: of two blank lines, one in front of assignments that
are removed and one behind them, only the first is. `now` says that the next assignment gets layers,
`blank` that the last thing kept is a blank line, `gap` that an assignment was removed behind it. -/
def LayerEnv.remaining : Bool → Bool → Bool → List Item → List Str
  | _, _, _, [] => []
  | now, blank, gap, .line l :: items =>
    if l = ['\n'] && blank && gap then remaining now true false items
    else l :: remaining now (l = ['\n']) false items
  | now, blank, _, .setting s :: items =>
    if !now && env.emptied removelayers s then remaining false blank true items
    else remaining false false false items

/-- What the assignments say when each has lost its layers and the first got the layers `now`. -/
def LayerEnv.planned : List Str → List Setting → List (Str × List Str)
  | _, [] => []
  | now, s :: ss =>
    (s.op, env.kept removelayers (env.paths s) ++ now.map env.canonicalisePath) :: planned [] ss

end Pass

/-! ### The second pass -/

/-- An assignment of a file of layers whose layers are left alone or taken by one entry each. -/
structure GoodSetting (env : LayerEnv) (removelayers : List Str) (s : Setting) : Prop where
  opening : LayerOpening s.opening
  op : s.op = ['='] ∨ s.op = "+=".toList
  isRead : (Item.setting s).IsRead opensLayers
  plain : ∀ w ∈ s.layers, PlainLayer w
  takesAll : TakesAll env removelayers s.layers

theorem keepsLines_handleBblayers (env : LayerEnv) (removelayers : List Str) (several : Bool) :
    KeepsLines (handleBblayers env removelayers several none) := by
  intro name value op newlines s
  unfold handleBblayers
  dsimp only

/-- The items that an assignment turns into, with their lines. -/
def Block (env : LayerEnv) (removelayers now : List Str) (s : Setting) : List Str × List Item :=
  match env.newValue removelayers now s with
  | none => (s.lines, [.setting s])
  | some none => ([], [])
  | some (some _) =>
    let s' := layerSetting s.opening (env.left removelayers s ++ now)
    (s'.lines, [.setting s'])

section Second
variable {env : LayerEnv} {removelayers : List Str} {several : Bool} {s : Setting}

theorem put_of_none {σ : Type} {varfunc : VarFunc σ} {e : Edited σ} {name start value : Str}
    {a : Answer} {newlines : List Str} {env : σ} (ls : List Str)
    (h : varfunc name value (strip (start.drop name.length)) e.newlines e.env = (a, newlines, env))
    (hr : a.replacement name start (strip (start.drop name.length)) value = none) :
    e.put varfunc name start value ls = { e with newlines := e.newlines ++ ls, env := env } := by
  simp only [Edited.put, h, hr]

theorem put_of_some {σ : Type} {varfunc : VarFunc σ} {e : Edited σ} {name start value : Str}
    {a : Answer} {newlines : List Str} {env : σ} {new : List Str} (ls : List Str)
    (h : varfunc name value (strip (start.drop name.length)) e.newlines e.env = (a, newlines, env))
    (hr : a.replacement name start (strip (start.drop name.length)) value = some new) :
    e.put varfunc name start value ls = ⟨true, e.newlines ++ new, true, env⟩ := by
  simp only [Edited.put, h, hr]

theorem replacement_text (name start op value : Str) :
    (⟨some (.text value), none, .spaces 2, false⟩ : Answer).replacement name start op value = none := by
  simp [Answer.replacement, Answer.changesOp]

theorem replacement_drop (name start op value : Str) :
    (⟨none, none, .spaces 2, false⟩ : Answer).replacement name start op value = some [] := rfl

theorem replacement_items {o : Opening} (h : LayerOpening o) (op value : Str) (layers : List Str) :
    (⟨some (.items layers), none, .spaces 2, false⟩ : Answer).replacement o.inVar o.varsetStart op
      value = some (layerSetting o layers).lines := by
  have hitems : NewValue.items layers ≠ .text value := nofun
  rw [lines_layerSetting]
  simp only [Answer.replacement, hitems, ne_eq, not_false_eq_true, true_or, if_true, Answer.render,
    h.not_isFunc, Bool.false_eq_true, if_false]
  rfl

variable (env removelayers s) in
theorem newValue_cases (now : List Str) : env.newValue removelayers now s = none ∨
    env.newValue removelayers now s = some none ∨
    env.newValue removelayers now s = some (some (.items (env.left removelayers s ++ now))) := by
  unfold LayerEnv.newValue
  split_ifs <;> simp

theorem item_setting (h : GoodSetting env removelayers s) (e : Edited (List Str × List Str))
    (hfresh : several = false → ∀ a ∈ e.env.2, a ∉ env.left removelayers s) (hd : e.env.2.Nodup) :
    let now := if several then [] else e.env.2
    let e' := e.item (handleBblayers env removelayers several none) (.setting s)
    e'.newlines = e.newlines ++ (Block env removelayers now s).1 ∧
      e'.afterChange = (e.afterChange || (env.newValue removelayers now s).isSome) ∧
      e'.env.2 = (if several then e.env.2 else []) ∧
      ∀ x, x ∈ e'.env.1 ↔ x ∈ e.env.1 ∨
        x ∈ removelayers ∧ ∃ w ∈ s.layers, env.layerMatches x w := by
  intro now e'
  obtain ⟨removed', hcall, hmem⟩ := handleBblayers_spec e.env.1 h.plain h.takesAll hfresh hd
    s.name e.newlines
  rcases newValue_cases env removelayers s now with hn | hn | hn
  · have hnv : env.newValue removelayers (if several then [] else e.env.2) s = none := hn
    rw [hnv] at hcall
    have he' : e' = _ := put_of_none s.lines hcall (replacement_text _ _ _ _)
    rw [he', Block, hn]
    exact ⟨rfl, (Bool.or_false _).symm, rfl, hmem⟩
  · have hnv : env.newValue removelayers (if several then [] else e.env.2) s = some none := hn
    rw [hnv] at hcall
    have he' : e' = _ := put_of_some s.lines hcall (replacement_drop _ _ _ _)
    rw [he', Block, hn]
    exact ⟨rfl, (Bool.or_true _).symm, rfl, hmem⟩
  · have hnv : env.newValue removelayers (if several then [] else e.env.2) s = _ := hn
    rw [hnv] at hcall
    have he' : e' = _ := put_of_some s.lines hcall (replacement_items h.opening _ _ _)
    rw [he', Block, hn]
    exact ⟨rfl, (Bool.or_true _).symm, rfl, hmem⟩

theorem left_isWord (h : GoodSetting env removelayers s) : ∀ w ∈ env.left removelayers s, IsWord w := by
  intro w hw
  obtain ⟨x, hx, rfl⟩ := List.mem_map.1 (List.mem_of_mem_filter hw)
  exact (h.plain x hx).isWord (isWord_of_mem_words hx)

theorem left_eq_nil_iff (h : GoodSetting env removelayers s) :
    env.left removelayers s = [] ↔ (env.paths s).all (env.hit removelayers) := by
  rw [← List.map_eq_nil_iff (f := env.canonicalisePath), map_left h.plain, LayerEnv.kept,
    List.filter_eq_nil_iff]
  simp

theorem newValue_drop {now : List Str} (hv : env.newValue removelayers now s = some none) :
    s.op = "+=".toList ∧ env.left removelayers s = [] ∧ now = [] ∧
      (env.paths s).any (env.hit removelayers) := by
  unfold LayerEnv.newValue at hv
  split_ifs at hv with hc hd
  · obtain ⟨hleft, rfl⟩ := List.append_eq_nil_iff.1 hd.2
    exact ⟨hd.1, hleft, rfl, by simpa using hc⟩
  · cases hv

/-- What an assignment turns into reads as that, and says what is planned. -/
theorem block_spec (h : GoodSetting env removelayers s) {now : List Str} (hn : ∀ a ∈ now, IsWord a) :
    Reads opensLayers (Block env removelayers now s).1 (Block env removelayers now s).2 ∧
      othersOf (Block env removelayers now s).2 = [] ∧
      ∀ acc, evalFrom acc ((settingsOf (Block env removelayers now s).2).map env.assigns) =
        evalFrom acc (env.planned removelayers now [s]) := by
  have hmap : (env.left removelayers s ++ now).map env.canonicalisePath =
      env.kept removelayers (env.paths s) ++ now.map env.canonicalisePath := by
    rw [List.map_append, map_left h.plain]
  have hplan : env.planned removelayers now [s] =
      [(s.op, (env.left removelayers s ++ now).map env.canonicalisePath)] := by
    rw [hmap]
    rfl
  rw [hplan]
  rcases newValue_cases env removelayers s now with hv | hv | hv
  · rw [Block, hv]
    refine ⟨h.isRead.2.2, rfl, fun acc => ?_⟩
    have hnone : ¬ ((env.paths s).any (env.hit removelayers) || decide (now ≠ [])) = true := by
      intro hc
      rw [LayerEnv.newValue, if_pos hc] at hv
      cases hv
    simp only [Bool.or_eq_true, decide_eq_true_eq, not_or, not_not] at hnone
    obtain ⟨hany, rfl⟩ := hnone
    have hkept : env.kept removelayers (env.paths s) = env.paths s :=
      List.filter_eq_self.2 fun c hc => by
        have := List.any_eq_true.not.1 hany
        push Not at this
        simpa using this c hc
    have he : (env.left removelayers s ++ []).map env.canonicalisePath = env.paths s := by
      rw [hmap, hkept, List.map_nil, List.append_nil]
    rw [he]
    rfl
  · rw [Block, hv]
    refine ⟨reads_nil, rfl, fun acc => ?_⟩
    obtain ⟨hop, hleft, rfl, -⟩ := newValue_drop hv
    rw [hleft, hop]
    exact (List.append_nil acc).symm
  · rw [Block, hv]
    have hw : ∀ w ∈ env.left removelayers s ++ now, IsWord w := by
      intro w hw
      rcases List.mem_append.1 hw with hw | hw
      · exact left_isWord h w hw
      · exact hn w hw
    refine ⟨(isRead_layerSetting h.opening _).2.2, rfl, fun acc => ?_⟩
    have hassigns : env.assigns (layerSetting s.opening (env.left removelayers s ++ now)) =
        (s.op, (env.left removelayers s ++ now).map env.canonicalisePath) := by
      rw [LayerEnv.assigns, LayerEnv.paths, layers_layerSetting h.opening hw]
      congr 1
      rw [Setting.op, Setting.name, layerSetting_opening]
      rfl
    show evalFrom acc [env.assigns _] = _
    rw [hassigns]

theorem block_emptied (h : GoodSetting env removelayers s) (hs : env.emptied removelayers s) :
    Block env removelayers [] s = ([], []) ∧ (env.newValue removelayers [] s).isSome := by
  unfold LayerEnv.emptied at hs
  simp only [Bool.and_eq_true, decide_eq_true_eq] at hs
  obtain ⟨⟨hop, hne⟩, hall⟩ := hs
  have hleft := (left_eq_nil_iff h).2 hall
  have hany : (env.paths s).any (env.hit removelayers) := by
    obtain ⟨w, hw⟩ := List.exists_mem_of_ne_nil _ hne
    have hmem : env.canonicalisePath w ∈ env.paths s := List.mem_map_of_mem hw
    exact List.any_eq_true.2 ⟨_, hmem, List.all_eq_true.1 hall _ hmem⟩
  have hv : env.newValue removelayers [] s = some none := by
    rw [LayerEnv.newValue, if_pos (by rw [hany]; rfl), if_pos ⟨hop, by rw [hleft]; rfl⟩]
  rw [Block, hv]
  exact ⟨rfl, rfl⟩

theorem block_last (h : GoodSetting env removelayers s) {now : List Str}
    (hs : (!decide (now ≠ []) && env.emptied removelayers s) = false) :
    (Block env removelayers now s).1 ≠ [] ∧
      (Block env removelayers now s).1.getLast? ≠ some ['\n'] := by
  rcases newValue_cases env removelayers s now with hv | hv | hv
  · rw [Block, hv]
    exact ⟨List.cons_ne_nil _ _, last_of_isRead h.opening.varEnd h.isRead⟩
  · exfalso
    obtain ⟨hop, hleft, rfl, hany⟩ := newValue_drop hv
    have hall := (left_eq_nil_iff h).1 hleft
    have hne : s.layers ≠ [] := by
      intro hn
      rw [LayerEnv.paths, hn] at hany
      cases hany
    rw [LayerEnv.emptied, hop, hall] at hs
    simp [hne] at hs
  · rw [Block, hv]
    refine ⟨List.cons_ne_nil _ _, last_of_isRead ?_ (isRead_layerSetting h.opening _)⟩
    exact (layerOpening_layerSetting h.opening _).varEnd

/-- An item of a file whose assignments the pass can edit. -/
def GoodItem (env : LayerEnv) (removelayers : List Str) : Item → Prop
  | .line l => opensLayers l = none
  | .setting s => GoodSetting env removelayers s

theorem planned_cons (now : List Str) (ss : List Setting) :
    env.planned removelayers now (s :: ss) =
      env.planned removelayers now [s] ++ env.planned removelayers [] ss := rfl

/-- The second pass went over the items from `e` to `e'`: the lines it wrote, what they say, the
layers it is left to add and the entries that took something. -/
def Passed (env : LayerEnv) (removelayers : List Str) (several blank gap : Bool) (items : List Item)
    (e e' : Edited (List Str × List Str)) : Prop :=
  ∃ ls items', e'.newlines = e.newlines ++ ls ∧ Reads opensLayers ls items' ∧
    othersOf items' = env.remaining removelayers ((if several then [] else e.env.2) ≠ []) blank gap
      items ∧
    (∀ acc, evalFrom acc ((settingsOf items').map env.assigns) =
      evalFrom acc (env.planned removelayers (if several then [] else e.env.2) (settingsOf items))) ∧
    e'.env.2 = (if several ∨ settingsOf items = [] then e.env.2 else []) ∧
    ∀ x, x ∈ e'.env.1 ↔ x ∈ e.env.1 ∨ x ∈ removelayers ∧
      ∃ s ∈ settingsOf items, ∃ w ∈ s.layers, env.layerMatches x w

theorem passed_squeezed {items : List Item} {e e' : Edited (List Str × List Str)} {l : Str}
    {blank gap : Bool} (hc : e.afterChange ∧ e.newlines.getLast? = some ['\n'] ∧ l = ['\n'])
    (hblank : blank = true) (hgap : gap = true)
    (h : Passed env removelayers several true false items (e.line l) e') :
    Passed env removelayers several blank gap (.line l :: items) e e' := by
  have hline : e.line l = { e with afterChange := false } := by rw [Edited.line, if_pos hc]
  rw [hline] at h
  obtain ⟨ls, items', h₁, h₂, h₃, h₄, h₅, h₆⟩ := h
  refine ⟨ls, items', h₁, h₂, ?_, h₄, h₅, h₆⟩
  rw [LayerEnv.remaining, if_pos (by simp [hblank, hgap, hc.2.2])]
  exact h₃

theorem passed_line {items : List Item} {e e' : Edited (List Str × List Str)} {l : Str}
    {blank gap : Bool} (hl : opensLayers l = none)
    (hc : ¬ (e.afterChange ∧ e.newlines.getLast? = some ['\n'] ∧ l = ['\n']))
    (hcond : ¬ (decide (l = ['\n']) && blank && gap) = true)
    (h : Passed env removelayers several (l = ['\n']) false items (e.line l) e') :
    Passed env removelayers several blank gap (.line l :: items) e e' := by
  have hline : e.line l = { e with afterChange := false, newlines := e.newlines ++ [l] } := by
    rw [Edited.line, if_neg hc]
  rw [hline] at h
  obtain ⟨ls, items', h₁, h₂, h₃, h₄, h₅, h₆⟩ := h
  refine ⟨l :: ls, .line l :: items', ?_, (reads_line hl).append h₂, ?_, h₄, h₅, h₆⟩
  · rw [h₁, List.append_assoc]
    rfl
  · rw [LayerEnv.remaining, if_neg hcond]
    exact congrArg (l :: ·) h₃

theorem passed_setting {items : List Item} {e e' : Edited (List Str × List Str)}
    {blank gap blank' gap' : Bool} (h : GoodSetting env removelayers s)
    (hadds : several = false → ∀ a ∈ e.env.2, IsWord a ∧ a ∉ env.left removelayers s)
    (hd : e.env.2.Nodup)
    (hrem : env.remaining removelayers ((if several then [] else e.env.2) ≠ []) blank gap
      (.setting s :: items) = env.remaining removelayers false blank' gap' items)
    (hpass : Passed env removelayers several blank' gap' items
      (e.item (handleBblayers env removelayers several none) (.setting s)) e') :
    Passed env removelayers several blank gap (.setting s :: items) e e' := by
  obtain ⟨hnew, -, hadds', hremoved⟩ := item_setting h e (fun hs a ha => (hadds hs a ha).2) hd
  obtain ⟨ls, items', h₁, h₂, h₃, h₄, h₅, h₆⟩ := hpass
  have hnow : (if several then [] else
      (e.item (handleBblayers env removelayers several none) (.setting s)).env.2) = [] := by
    rw [hadds']
    cases several <;> rfl
  have hwords : ∀ a ∈ (if several then [] else e.env.2), IsWord a := by
    intro a ha
    cases several with
    | true => cases ha
    | false => exact (hadds rfl a ha).1
  obtain ⟨hreads, hothers, heval⟩ := block_spec h hwords
  rw [hnow] at h₃ h₄
  refine ⟨_, _, ?_, hreads.append h₂, ?_, fun acc => ?_, ?_, fun x => ?_⟩
  · rw [h₁, hnew, List.append_assoc]
  · rw [hrem, othersOf, List.filterMap_append]
    exact congrArg₂ (· ++ ·) hothers h₃
  · rw [settingsOf, List.filterMap_append, List.map_append, evalFrom_append]
    show _ = evalFrom acc (env.planned removelayers _ (s :: settingsOf items))
    rw [planned_cons, evalFrom_append]
    exact (h₄ _).trans (congrArg (evalFrom · _) (heval acc))
  · rw [h₅, hadds']
    cases several <;> simp [settingsOf]
  · show _ ↔ _ ∨ x ∈ removelayers ∧ ∃ t ∈ s :: settingsOf items, _
    rw [h₆, hremoved, List.exists_mem_cons_iff, or_assoc, and_or_left]

/-- What the items behind an assignment are read with. -/
theorem remaining_setting (items : List Item) (gap : Bool) {e : Edited (List Str × List Str)} {blank : Bool}
    (h : GoodSetting env removelayers s)
    (hfresh : several = false → ∀ a ∈ e.env.2, a ∉ env.left removelayers s) (hd : e.env.2.Nodup)
    (hb : blank = true ↔ e.newlines.getLast? = some ['\n']) :
    let e' := e.item (handleBblayers env removelayers several none) (.setting s)
    ∃ blank' gap', (blank' = true ↔ e'.newlines.getLast? = some ['\n']) ∧
      (blank' = true → gap' = e'.afterChange) ∧
      env.remaining removelayers ((if several then [] else e.env.2) ≠ []) blank gap
        (.setting s :: items) = env.remaining removelayers false blank' gap' items := by
  intro e'
  obtain ⟨hnew, hchange, -, -⟩ := item_setting h e hfresh hd
  generalize (if several then [] else e.env.2) = now at hnew hchange ⊢
  cases hs : (!decide (now ≠ []) && env.emptied removelayers s) with
  | true =>
    have hs' := hs
    simp only [Bool.and_eq_true, Bool.not_eq_true', decide_eq_false_iff_not, not_not] at hs'
    obtain ⟨rfl, hempty⟩ := hs'
    obtain ⟨hblock, hsome⟩ := block_emptied h hempty
    rw [hblock, List.append_nil] at hnew
    rw [hsome, Bool.or_true] at hchange
    refine ⟨blank, true, hnew ▸ hb, fun _ => hchange.symm, ?_⟩
    rw [LayerEnv.remaining, if_pos hs]
  | false =>
    obtain ⟨hne, hlast⟩ := block_last h hs
    refine ⟨false, false, ?_, nofun, ?_⟩
    · rw [hnew, List.getLast?_append_of_ne_nil _ hne]
      simp only [Bool.false_eq_true, false_iff]
      exact hlast
    · rw [LayerEnv.remaining, if_neg (by rw [hs]; exact Bool.false_ne_true)]

/-- The second pass over some items. -/
theorem second_pass : ∀ (items : List Item) (e : Edited (List Str × List Str)) (blank gap : Bool),
    (∀ i ∈ items, GoodItem env removelayers i) →
    (blank = true ↔ e.newlines.getLast? = some ['\n']) → (blank = true → gap = e.afterChange) →
    (several = false → ∀ a ∈ e.env.2, IsWord a ∧
      ∀ s ss, settingsOf items = s :: ss → a ∉ env.left removelayers s) →
    e.env.2.Nodup →
    Passed env removelayers several blank gap items e
      (items.foldl (Edited.item (handleBblayers env removelayers several none)) e)
  | [], e, blank, gap, _, _, _, _, _ =>
    ⟨[], [], by simp, reads_nil, rfl, fun acc => rfl, by simp [settingsOf], by simp [settingsOf]⟩
  | .line l :: items, e, blank, gap, hg, hb, hgap, hadds, hd => by
    have hg' : ∀ i ∈ items, GoodItem env removelayers i := fun i hi => hg i (by simp [hi])
    have henv : (e.line l).env = e.env := Edited.line_env e l
    by_cases hc : e.afterChange ∧ e.newlines.getLast? = some ['\n'] ∧ l = ['\n']
    · have hline : e.line l = { e with afterChange := false } := by rw [Edited.line, if_pos hc]
      have hblank := hb.2 hc.2.1
      exact passed_squeezed hc hblank ((hgap hblank).trans hc.1)
        (second_pass items (e.line l) true false hg' (by rw [hline]; simp only [hc.2.1])
          (fun _ => by rw [hline]) (by rw [henv]; exact hadds) (by rw [henv]; exact hd))
    · have hline : e.line l = { e with afterChange := false, newlines := e.newlines ++ [l] } := by
        rw [Edited.line, if_neg hc]
      refine passed_line (hg (.line l) (by simp)) hc (fun ht => ?_)
        (second_pass items (e.line l) (l = ['\n']) false hg' (by rw [hline]; simp)
          (fun _ => by rw [hline]) (by rw [henv]; exact hadds) (by rw [henv]; exact hd))
      simp only [Bool.and_eq_true, decide_eq_true_eq] at ht
      exact hc ⟨hgap ht.1.2 ▸ ht.2, hb.1 ht.1.2, ht.1.1⟩
  | .setting s :: items, e, blank, gap, hg, hb, hgap, hadds, hd => by
    have h : GoodSetting env removelayers s := hg (.setting s) (by simp)
    have hadds' : several = false → ∀ a ∈ e.env.2, IsWord a ∧ a ∉ env.left removelayers s :=
      fun hsev a ha => ⟨(hadds hsev a ha).1, (hadds hsev a ha).2 s _ rfl⟩
    have hfresh : several = false → ∀ a ∈ e.env.2, a ∉ env.left removelayers s :=
      fun hsev a ha => (hadds' hsev a ha).2
    obtain ⟨-, -, henv, -⟩ := item_setting h e hfresh hd
    obtain ⟨blank', gap', hb', hgap', hrem⟩ :=
      remaining_setting items gap h hfresh hd hb
    refine passed_setting h hadds' hd hrem (second_pass items _ blank' gap'
      (fun i hi => hg i (by simp [hi])) hb' hgap' ?_ ?_)
    · intro hsev a ha
      rw [henv, hsev] at ha
      cases ha
    · rw [henv]
      split
      · exact hd
      · exact List.nodup_nil

end Second

/-! ### The first pass -/

section First
variable {env : LayerEnv}

theorem keepsLines_handleFirstpass (env : LayerEnv) : KeepsLines (handleFirstpass env) :=
  fun _ _ _ _ _ => rfl

theorem first_pass : ∀ (items : List Item) (e : Edited (List Str × List Str)), e.afterChange = false →
    items.foldl (Edited.item (handleFirstpass env)) e =
      { e with
        newlines := e.newlines ++ items.flatMap Item.lines
        env := (e.env.1 ++ (settingsOf items).map Setting.op,
          evalFrom e.env.2 ((settingsOf items).map env.assigns)) }
  | [], e, _ => by simp [settingsOf, evalFrom]
  | .line l :: items, e, he => by
    have hline : e.line l = { e with newlines := e.newlines ++ [l] } := by
      rw [Edited.line, if_neg (by simp [he]), he]
    rw [List.foldl_cons]
    show items.foldl _ (e.line l) = _
    rw [hline, first_pass items]
    · simp [settingsOf, Item.lines]
    · exact he
  | .setting s :: items, e, he => by
    have hput : e.put (handleFirstpass env) s.name s.opening.varsetStart s.value s.lines =
        { e with
          newlines := e.newlines ++ s.lines
          env := (e.env.1 ++ [s.op], (if s.op = ['='] then [] else e.env.2) ++ env.paths s) } := by
      exact put_of_none s.lines rfl (replacement_text _ _ _ _)
    have heval : evalFrom e.env.2 ((settingsOf (.setting s :: items)).map env.assigns) =
        evalFrom ((if s.op = ['='] then [] else e.env.2) ++ env.paths s)
          ((settingsOf items).map env.assigns) := by
      show evalFrom (if s.op = ['='] then env.paths s else e.env.2 ++ env.paths s) _ = _
      split <;> rfl
    have hitem : e.item (handleFirstpass env) (.setting s) =
        e.put (handleFirstpass env) s.name s.opening.varsetStart s.value s.lines := rfl
    rw [List.foldl_cons, hitem, hput, first_pass items, heval]
    · simp [settingsOf, Item.lines]
    · exact he

end First

/-! ### The edit -/

/-- The `BBLAYERS` settings are complete `=` and `+=` assignments of double-quoted lists. -/
structure LayerFile (f : MetaFile) : Prop where
  wellWritten : f.WellWritten
  found : f.settings ≠ []
  quoted : ∀ s ∈ f.settings, s.opening.varEnd = ['"']
  op : ∀ s ∈ f.settings, s.op = ['='] ∨ s.op = "+=".toList

def MetaFile.several (f : MetaFile) : Bool := decide ((f.settings.map Setting.op).count "+=".toList > 1)

section Plan
variable (env : LayerEnv) (f : MetaFile) (add remove : List Str)

/-- The layers to add: those that are not there, or that are removed. -/
def LayerEnv.adding : List Str :=
  add.filter fun a => env.canonicalisePath a ∉ env.layersOf f ∨ env.hit remove (env.canonicalisePath a)

/-- The layers behind the edit: those added stand behind all others if they get lines of their own,
and behind those of the first assignment otherwise. -/
def LayerEnv.layersAfter : List Str :=
  let new := (env.adding f add remove).map env.canonicalisePath
  if f.several ∨ env.adding f add remove = [] then env.kept remove (env.layersOf f) ++ new
  else match f.settings with
    | [] => []
    | s :: ss => env.kept remove (env.paths s) ++ new ++ ss.flatMap fun t => env.kept remove (env.paths t)

/-- Every entry of `remove` has one layer to take at most, and there is a place for the layers to
add. -/
structure Unambiguous : Prop where
  plain : ∀ s ∈ f.settings, ∀ w ∈ s.layers, PlainLayer w
  takesAll : ∀ s ∈ f.settings, TakesAll env remove s.layers
  /-- A layer to add that is there is matched by the entries that name it only. -/
  named : ∀ a ∈ add, env.canonicalisePath a ∈ env.layersOf f →
    (env.canonicalisePath a ∈ remove.map env.canonicalisePath ↔
      env.hit remove (env.canonicalisePath a))
  isWord : ∀ a ∈ env.adding f add remove, IsWord a
  distinct : ((env.adding f add remove).map env.canonicalisePath).Nodup
  order : env.adding f add remove = [] ∨ f.several ∨ ∀ s ∈ f.settings.tail, s.op ≠ ['=']

end Plan

/-- What the edit reports, and what it does. -/
structure Reported (env : LayerEnv) (conf add remove : List Str) (r : LayersEdit) : Prop where
  layers : env.layersOf (readLayers r.lines) = env.layersAfter (readLayers conf) add remove
  notadded : r.notadded = add.filter fun a =>
    env.canonicalisePath a ∈ env.layersOf (readLayers conf) ∧
      ¬ env.hit remove (env.canonicalisePath a)
  notremoved : ∀ x, x ∈ r.notremoved ↔ x ∈ remove ∧
    ∀ s ∈ (readLayers conf).settings, ∀ w ∈ s.layers, ¬ env.layerMatches x w
  others : (readLayers r.lines).others = env.remaining remove
    (!(readLayers conf).several && env.adding (readLayers conf) add remove ≠ []) false false
    (readLayers conf).items

section Edit
variable {env : LayerEnv} {f : MetaFile} {add remove : List Str}

theorem planned_nil (ss : List Setting) : env.planned remove [] ss =
    ss.map fun s => (s.op, env.kept remove (env.paths s)) := by
  induction ss with
  | nil => rfl
  | cons s ss ih =>
    rw [LayerEnv.planned, ih]
    simp

/-- Without layers to add, the file says what it said but for the layers taken. -/
theorem evalFrom_planned_nil (ss : List Setting) :
    evalFrom [] (env.planned remove [] ss) = env.kept remove (evalFrom [] (ss.map env.assigns)) := by
  rw [planned_nil, LayerEnv.kept, evalFrom_filter, List.map_map]
  rfl

theorem evalFrom_planned_cons {s : Setting} {ss : List Setting} (hs : ∀ t ∈ ss, t.op ≠ ['='])
    (now : List Str) : evalFrom [] (env.planned remove now (s :: ss)) =
      env.kept remove (env.paths s) ++ now.map env.canonicalisePath ++
        ss.flatMap fun t => env.kept remove (env.paths t) := by
  rw [LayerEnv.planned, evalFrom, planned_nil, evalFrom_of_appends]
  · rw [List.flatMap_map]
    split <;> rfl
  · intro x hx
    obtain ⟨t, ht, rfl⟩ := List.mem_map.1 hx
    exact hs t ht

theorem layersOf_cons {s : Setting} {ss : List Setting} (h : f.settings = s :: ss)
    (hs : ∀ t ∈ ss, t.op ≠ ['=']) : env.layersOf f = env.paths s ++ ss.flatMap env.paths := by
  rw [LayerEnv.layersOf, h, List.map_cons]
  show evalFrom (if s.op = ['='] then env.paths s else [] ++ env.paths s) _ = _
  rw [evalFrom_of_appends]
  · rw [List.flatMap_map]
    split <;> rfl
  · intro x hx
    obtain ⟨t, ht, rfl⟩ := List.mem_map.1 hx
    exact hs t ht

/-- No layer to add is left in the assignment that gets it. -/
theorem adding_fresh (hu : Unambiguous env f add remove) (hsev : f.several = false) {a : Str}
    (ha : a ∈ env.adding f add remove) {s : Setting} {ss : List Setting}
    (hs : f.settings = s :: ss) : a ∉ env.left remove s := by
  intro hleft
  have htail : ∀ t ∈ ss, t.op ≠ ['='] := by
    rcases hu.order with h | h | h
    · rw [h] at ha
      cases ha
    · rw [hsev] at h
      cases h
    · rw [hs] at h
      exact h
  obtain ⟨hmem, hnot⟩ := List.mem_filter.1 hleft
  obtain ⟨w, hw, rfl⟩ := List.mem_map.1 hmem
  have hplain := hu.plain s (by rw [hs]; simp) w hw
  have hthere : env.canonicalisePath (removeTrailingSep w) ∈ env.layersOf f := by
    rw [layersOf_cons hs htail, hplain.canonicalisePath]
    exact List.mem_append_left _ (List.mem_map_of_mem hw)
  obtain ⟨-, hadd⟩ := List.mem_filter.1 ha
  simp only [decide_eq_true_eq] at hadd
  rcases hadd with h | h
  · exact h hthere
  · rw [h] at hnot
    cases hnot

/-- What is left to add behind the layers that are not added. -/
theorem filter_notadded (hu : Unambiguous env f add remove) :
    (add.filter fun layer => env.canonicalisePath layer ∉
      (add.filter fun layer => env.canonicalisePath layer ∈ env.layersOf f ∧
        env.canonicalisePath layer ∉ remove.map env.canonicalisePath).map env.canonicalisePath) =
      env.adding f add remove := by
  refine List.filter_congr fun a ha => ?_
  rw [decide_eq_decide, List.mem_map]
  constructor
  · intro h
    by_contra hc
    rw [not_or, not_not] at hc
    refine h ⟨a, List.mem_filter.2 ⟨ha, ?_⟩, rfl⟩
    simp only [decide_eq_true_eq]
    exact ⟨hc.1, fun hm => hc.2 ((hu.named a ha hc.1).1 hm)⟩
  · rintro h ⟨b, hb, hab⟩
    obtain ⟨hb, hcond⟩ := List.mem_filter.1 hb
    simp only [decide_eq_true_eq] at hcond
    rw [hab] at hcond
    rcases h with h | h
    · exact h hcond.1
    · exact hcond.2 ((hu.named a ha hcond.1).2 h)

theorem plainName_bblayers : ∀ v ∈ [bblayersName], PlainName v := by
  intro v hv
  rw [List.mem_singleton.1 hv]
  exact plainName_of_isAlphanum rfl (by decide) rfl

theorem goodItem_of_mem {conf : List Str} (hf : LayerFile (readLayers conf))
    (hu : Unambiguous env (readLayers conf) add remove) :
    ∀ i ∈ (readLayers conf).items, GoodItem env remove i := by
  intro i hi
  have hread := isRead_of_mem conf none (fun s hs => by cases hs) i hi
  cases i with
  | line l => exact hread
  | setting s =>
    have hmem : s ∈ (readLayers conf).settings := List.mem_filterMap.2 ⟨_, hi, rfl⟩
    exact ⟨layerOpening_of_opens hread.1 (hf.quoted s hmem) rfl (hf.op s hmem),
      hf.op s hmem, hread, hu.plain s hmem, hu.takesAll s hmem⟩

/-- The first pass collects the operators and the layers, and changes nothing. -/
theorem firstPass_eq {conf : List Str} (hf : LayerFile (readLayers conf)) :
    editMetadata (handleFirstpass env) conf [bblayersName] false ([], []) =
      ((false, conf), ((readLayers conf).settings.map Setting.op, env.layersOf (readLayers conf))) := by
  have hlines := lines_readMetaFile [bblayersName] conf
  rw [MetaFile.lines, hf.wellWritten.closed, List.append_nil] at hlines
  rw [editMetadata_eq (keepsLines_handleFirstpass env) plainName_bblayers hf.wellWritten, MetaFile.edit,
    first_pass _ _ rfl]
  rw [List.nil_append, List.nil_append, hlines]
  rfl

/-- The lines of added layers. -/
theorem reads_addLines : ∀ adds : List Str,
    Reads opensLayers (adds.map addLine) (adds.map fun a => .setting (addSetting a))
  | [] => reads_nil
  | a :: adds => (reads_addSetting a).append (reads_addLines adds)

theorem assigns_addLines {adds : List Str} (h : ∀ a ∈ adds, IsWord a) :
    (settingsOf (adds.map fun a => .setting (addSetting a))).map env.assigns =
      adds.map fun a => ("+=".toList, [env.canonicalisePath a]) := by
  induction adds with
  | nil => rfl
  | cons a adds ih =>
    have ha : env.assigns (addSetting a) = ("+=".toList, [env.canonicalisePath a]) := by
      rw [LayerEnv.assigns, LayerEnv.paths, layers_addSetting (h a (by simp))]
      rfl
    show env.assigns (addSetting a) :: _ = _
    rw [ha, List.map_cons]
    exact congrArg _ (ih fun b hb => h b (by simp [hb]))

theorem othersOf_addLines (adds : List Str) :
    othersOf (adds.map fun a => .setting (addSetting a)) = [] := by
  induction adds with
  | nil => rfl
  | cons a adds ih => exact ih

/-- What the edited lines evaluate to. -/
theorem evalFrom_edited (hu : Unambiguous env f add remove) (hfound : f.settings ≠ []) :
    evalFrom (evalFrom [] (env.planned remove
      (if f.several then [] else env.adding f add remove) f.settings))
      ((if f.several then env.adding f add remove else []).map
        fun a => ("+=".toList, [env.canonicalisePath a])) = env.layersAfter f add remove := by
  have hadd : ∀ (acc adds : List Str), evalFrom acc (adds.map
      fun a => ("+=".toList, [env.canonicalisePath a])) = acc ++ adds.map env.canonicalisePath := by
    intro acc adds
    rw [evalFrom_of_appends]
    · rw [List.flatMap_map, List.map_eq_flatMap]
    · intro x hx
      obtain ⟨a, -, rfl⟩ := List.mem_map.1 hx
      show "+=".toList ≠ ['=']
      decide
  rw [hadd]
  unfold LayerEnv.layersAfter
  cases hsev : f.several with
  | true =>
    simp only [if_true, true_or, evalFrom_planned_nil]
    rfl
  | false =>
    by_cases hnil : env.adding f add remove = []
    · simp only [hnil, Bool.false_eq_true, if_false, or_true, if_true, evalFrom_planned_nil]
      rfl
    · simp only [hnil, Bool.false_eq_true, if_false, or_self, List.map_nil, List.append_nil]
      cases hs : f.settings with
      | nil => exact absurd hs hfound
      | cons s ss =>
        have htail : ∀ t ∈ ss, t.op ≠ ['='] := by
          rcases hu.order with h | h | h
          · exact absurd h hnil
          · rw [hsev] at h
            cases h
          · rw [hs] at h
            exact h
        exact evalFrom_planned_cons htail _

end Edit

/-- The file that the second pass and the added lines leave. -/
theorem edited_lines {env : LayerEnv} {conf add remove : List Str} (hf : LayerFile (readLayers conf))
    {e : Edited (List Str × List Str)}
    (he : e = (readLayers conf).edit (handleBblayers env remove (readLayers conf).several none)
      ([], env.adding (readLayers conf) add remove)) :
    (if (e.updated || decide (e.env.2 ≠ [])) = true then e.newlines ++ e.env.2.map addLine else conf) =
      e.newlines ++ e.env.2.map addLine := by
  split
  · rfl
  · next hc =>
    simp only [Bool.or_eq_true, decide_eq_true_eq, not_or, not_not, Bool.not_eq_true] at hc
    have hlines := lines_readMetaFile [bblayersName] conf
    rw [MetaFile.lines, hf.wellWritten.closed, List.append_nil] at hlines
    have hkept := items_of_not_updated (handleBblayers env remove (readLayers conf).several none)
      (readLayers conf).items ⟨false, [], false, ([], env.adding (readLayers conf) add remove)⟩ rfl
    have hnew : e.newlines = conf := by
      rw [he] at hc ⊢
      exact (hkept hc.1).trans hlines
    rw [hc.2, hnew]
    exact (List.append_nil conf).symm

theorem reported_of_passed {env : LayerEnv} {conf add remove : List Str}
    (hf : LayerFile (readLayers conf)) (hu : Unambiguous env (readLayers conf) add remove)
    {e e' : Edited (List Str × List Str)} (he : e.newlines = [])
    (henv : e.env = ([], env.adding (readLayers conf) add remove))
    (h : Passed env remove (readLayers conf).several false false (readLayers conf).items e e') :
    Reported env conf add remove ⟨e'.newlines ++ e'.env.2.map addLine, add.filter fun a =>
      env.canonicalisePath a ∈ env.layersOf (readLayers conf) ∧
        ¬ env.hit remove (env.canonicalisePath a), remove.toFinset \ e'.env.1.toFinset⟩ := by
  obtain ⟨ls, items, h₁, h₂, h₃, h₄, h₅, h₆⟩ := h
  rw [he, List.nil_append] at h₁
  rw [henv] at h₃ h₄ h₅ h₆
  have hfound : settingsOf (readLayers conf).items ≠ [] := hf.found
  have hadds : e'.env.2 =
      if (readLayers conf).several then env.adding (readLayers conf) add remove else [] := by
    rw [h₅]
    simp only [hfound, or_false]
  have hread : readLayers (e'.newlines ++ e'.env.2.map addLine) =
      ⟨items ++ e'.env.2.map fun a => .setting (addSetting a), []⟩ := by
    rw [h₁]
    exact (h₂.append (reads_addLines _)).readFrom
  have hwords : ∀ a ∈ e'.env.2, IsWord a := by
    intro a ha
    rw [hadds] at ha
    split at ha
    · exact hu.isWord a ha
    · cases ha
  refine ⟨?_, rfl, fun x => ?_, ?_⟩
  · rw [hread, LayerEnv.layersOf]
    show evalFrom [] ((settingsOf (items ++ _)).map env.assigns) = _
    rw [settingsOf, List.filterMap_append, List.map_append, evalFrom_append]
    rw [← settingsOf, ← settingsOf, h₄, assigns_addLines hwords, hadds]
    exact evalFrom_edited hu hf.found
  · rw [Finset.mem_sdiff, List.mem_toFinset, List.mem_toFinset, h₆]
    constructor
    · rintro ⟨hx, hnot⟩
      exact ⟨hx, fun s hs w hw hm => hnot (.inr ⟨hx, s, hs, w, hw, hm⟩)⟩
    · rintro ⟨hx, hnone⟩
      refine ⟨hx, ?_⟩
      rintro (h | ⟨-, s, hs, w, hw, hm⟩)
      · cases h
      · exact hnone s hs w hw hm
  · rw [hread]
    show othersOf (items ++ _) = _
    rw [othersOf, List.filterMap_append]
    rw [← othersOf, ← othersOf, othersOf_addLines, List.append_nil, h₃]
    congr 1
    cases (readLayers conf).several <;> simp

/-- After the edit the file evaluates to the layers it had, without those that some entry of
`remove` matches and with the layers that were to be added, and everything else is reported and left
as it was. -/
theorem edit_layers (env : LayerEnv) (conf : List Str) (add remove : LayerArg)
    (hf : LayerFile (readLayers conf))
    (hu : Unambiguous env (readLayers conf) (layerlistParam add) (layerlistParam remove)) :
    ∃ r, editBblayersConf env conf add remove none = some r ∧
      Reported env conf (layerlistParam add) (layerlistParam remove) r := by
  unfold editBblayersConf
  generalize layerlistParam add = addlayers at hu ⊢
  generalize layerlistParam remove = removelayers at hu ⊢
  have hcalls : (readLayers conf).settings.map Setting.op ≠ [] := by
    rw [ne_eq, List.map_eq_nil_iff]
    exact hf.found
  have hpass := @second_pass env removelayers (readLayers conf).several (readLayers conf).items
    ⟨false, [], false, ([], env.adding (readLayers conf) addlayers removelayers)⟩ false false
    (goodItem_of_mem hf hu) (by simp) nofun
    (fun hsev a ha => ⟨hu.isWord a ha, fun s ss hs => adding_fresh hu hsev ha hs⟩)
    (List.Nodup.of_map _ hu.distinct)
  have hnotadded : (addlayers.filter fun layer =>
      env.canonicalisePath layer ∈ env.layersOf (readLayers conf) ∧
        env.canonicalisePath layer ∉ removelayers.map env.canonicalisePath) =
      addlayers.filter fun a => env.canonicalisePath a ∈ env.layersOf (readLayers conf) ∧
        ¬ env.hit removelayers (env.canonicalisePath a) := by
    refine List.filter_congr fun a ha => ?_
    rw [decide_eq_decide]
    exact and_congr_right fun hthere => not_congr (hu.named a ha hthere)
  refine ⟨_, ?_, reported_of_passed hf hu rfl rfl hpass⟩
  rw [firstPass_eq hf]
  simp only [if_neg hcalls, filter_notadded hu,
    editMetadata_eq (keepsLines_handleBblayers env removelayers _) plainName_bblayers hf.wellWritten]
  rw [Option.some.injEq, LayersEdit.mk.injEq]
  exact ⟨edited_lines hf rfl, hnotadded, rfl⟩

def noHome : LayerEnv := ⟨false, none, fun _ => none⟩

/-- The layer is added in front of the last one. -/
theorem addedInFront_fails :
    ∃ r, editBblayersConf noHome ["BBLAYERS = \"a\"\n".toList, "BBLAYERS += \"b\"\n".toList]
        (.one "c".toList) .none none = some r ∧
      ¬ DoesAsReported noHome ["BBLAYERS = \"a\"\n".toList, "BBLAYERS += \"b\"\n".toList]
        ["c".toList] [] r := by
  refine ⟨_, rfl, fun h => ?_⟩
  have hlayers := h.layers
  revert hlayers
  decide

def twoLayers : Setting :=
  ⟨⟨bblayersName, ['"'], "BBLAYERS =".toList, "a b\"\n".toList⟩, "BBLAYERS = \"a b\"\n".toList, []⟩

theorem readLayers_twoLayers :
    readLayers ["BBLAYERS = \"a b\"\n".toList] = ⟨[.setting twoLayers], []⟩ := by
  decide

theorem layers_twoLayers : twoLayers.layers = ["a".toList, "b".toList] := by decide

theorem layerFile_twoLayers : LayerFile (readLayers ["BBLAYERS = \"a b\"\n".toList]) := by
  rw [readLayers_twoLayers]
  have hmem : ∀ s ∈ (⟨[.setting twoLayers], []⟩ : MetaFile).settings, s = twoLayers :=
    fun s hs => List.mem_singleton.1 hs
  refine ⟨⟨rfl, fun s hs => ?_⟩, List.cons_ne_nil _ _, fun s hs => ?_, fun s hs => ?_⟩
  · cases List.mem_singleton.1 hs
    exact continued_one_line _ _
  · rw [hmem s hs]
    rfl
  · rw [hmem s hs]
    exact .inl (by decide)

theorem adding_twoLayers : noHome.adding ⟨[.setting twoLayers], []⟩ ["c".toList] ["b".toList] =
    ["c".toList] := by decide

theorem unambiguous_twoLayers : Unambiguous noHome (readLayers ["BBLAYERS = \"a b\"\n".toList])
    (layerlistParam (.many ["c".toList])) (layerlistParam (.one "b".toList)) := by
  have hadd : layerlistParam (.many ["c".toList]) = ["c".toList] := by decide
  have hremove : layerlistParam (.one "b".toList) = ["b".toList] := by decide
  have hmem : ∀ s ∈ (⟨[.setting twoLayers], []⟩ : MetaFile).settings, s = twoLayers :=
    fun s hs => List.mem_singleton.1 hs
  rw [hadd, hremove, readLayers_twoLayers]
  refine ⟨fun s hs w hw => ?_, fun s hs => ⟨fun r hr => ?_, fun r hr r' hr' hne => ?_⟩,
    fun a ha hthere => ?_, fun a ha => ?_, ?_, .inr (.inr fun s hs => by cases hs)⟩
  · rw [hmem s hs, layers_twoLayers] at hw
    rcases List.mem_cons.1 hw with rfl | hw
    · exact ⟨by decide, by decide⟩
    · rw [List.mem_singleton.1 hw]
      exact ⟨by decide, by decide⟩
  · rw [hmem s hs, List.mem_singleton.1 hr, layers_twoLayers]
    decide
  · exact absurd ((List.mem_singleton.1 hr).trans (List.mem_singleton.1 hr').symm) hne
  · rw [List.mem_singleton.1 ha] at hthere
    exact absurd hthere (by decide)
  · rw [adding_twoLayers] at ha
    rw [List.mem_singleton.1 ha]
    exact ⟨by decide, fun c hc => by rw [List.mem_singleton.1 hc]; decide⟩
  · rw [adding_twoLayers]
    exact List.nodup_singleton _

theorem edit_layers_twoLayers :
    ∃ r, editBblayersConf noHome ["BBLAYERS = \"a b\"\n".toList] (.many ["c".toList])
        (.one "b".toList) none = some r ∧
      Reported noHome ["BBLAYERS = \"a b\"\n".toList] (layerlistParam (.many ["c".toList]))
        (layerlistParam (.one "b".toList)) r :=
  edit_layers noHome _ _ _ layerFile_twoLayers unambiguous_twoLayers

end BitBake
end OpenBmc
