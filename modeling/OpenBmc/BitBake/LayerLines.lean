import OpenBmc.BitBake.MetadataEdits
import OpenBmc.BitBake.EditLayers

/-!
# The lines of a `bblayers.conf`

Lines that read as some items read as these wherever they stand (`Reads`): so a file can be put
together from the lines of its old items and from those that an edit writes.
-/

namespace OpenBmc
namespace BitBake
open Py

/-! ### Reading a part of a file -/

section Reads
variable {opens : Str → Option Opening}

/-- The lines read as the items, whatever follows them. -/
def Reads (opens : Str → Option Opening) (ls : List Str) (items : List Item) : Prop :=
  ∀ rest, readFrom opens none (ls ++ rest) =
    ⟨items ++ (readFrom opens none rest).items, (readFrom opens none rest).tail⟩

theorem reads_nil : Reads opens [] [] := fun _ => rfl

theorem Reads.append {ls ls' : List Str} {is is' : List Item} (h : Reads opens ls is)
    (h' : Reads opens ls' is') : Reads opens (ls ++ ls') (is ++ is') := by
  intro rest
  rw [List.append_assoc, h, h', List.append_assoc]

theorem reads_line {l : Str} (h : opens l = none) : Reads opens [l] [.line l] :=
  fun _ => readFrom_line h

theorem Reads.readFrom {ls : List Str} {items : List Item} (h : Reads opens ls items) :
    readFrom opens none ls = ⟨items, []⟩ := by
  have := h []
  rw [List.append_nil] at this
  rw [this]
  show (⟨items ++ [], []⟩ : MetaFile) = _
  rw [List.append_nil]

/-- The lines read so far are those of the open assignment `s`. -/
def ReadsOpen (opens : Str → Option Opening) (s : Setting) : Prop :=
  opens s.first = some s.opening ∧
    ∀ rest, readFrom opens none (s.lines ++ rest) = readFrom opens (some s) rest

theorem readsOpen_first {o : Opening} {l : Str} (ho : opens l = some o)
    (hc : ¬ (⟨o, l, []⟩ : Setting).closed) : ReadsOpen opens ⟨o, l, []⟩ :=
  ⟨ho, fun _ => readFrom_open ho hc⟩

theorem ReadsOpen.add {s : Setting} {l : Str} (h : ReadsOpen opens s) (hc : ¬ (s.add l).closed) :
    ReadsOpen opens (s.add l) := by
  refine ⟨h.1, fun rest => ?_⟩
  rw [Setting.lines_add, List.append_assoc, h.2]
  exact readFrom_more hc

theorem ReadsOpen.close {s : Setting} {l : Str} (h : ReadsOpen opens s) (hc : (s.add l).closed) :
    Reads opens (s.add l).lines [.setting (s.add l)] := by
  intro rest
  rw [Setting.lines_add, List.append_assoc, h.2]
  exact readFrom_close hc

/-- An item of a file that was read. -/
def Item.IsRead (opens : Str → Option Opening) : Item → Prop
  | .line l => opens l = none
  | .setting s => opens s.first = some s.opening ∧ s.closed ∧ Reads opens s.lines [.setting s]

theorem isRead_of_mem : ∀ (ls : List Str) (p : Option Setting), (∀ s, p = some s → ReadsOpen opens s) →
    ∀ i ∈ (readFrom opens p ls).items, i.IsRead opens
  | [], none, _, i, hi => by cases hi
  | [], some s, _, i, hi => by cases hi
  | l :: ls, none, _, i, hi => by
    cases ho : opens l with
    | none =>
      rw [readFrom_line ho] at hi
      rcases List.mem_cons.1 hi with rfl | hi
      · exact ho
      · exact isRead_of_mem ls none (fun s hs => by cases hs) i hi
    | some o =>
      by_cases hc : (⟨o, l, []⟩ : Setting).closed
      · rw [readFrom_setting ho hc] at hi
        rcases List.mem_cons.1 hi with rfl | hi
        · exact ⟨ho, hc, fun _ => readFrom_setting ho hc⟩
        · exact isRead_of_mem ls none (fun s hs => by cases hs) i hi
      · rw [readFrom_open ho hc] at hi
        refine isRead_of_mem ls _ (fun s hs => ?_) i hi
        cases hs
        exact readsOpen_first ho hc
  | l :: ls, some s, hp, i, hi => by
    have hs := hp s rfl
    by_cases hc : (s.add l).closed
    · rw [readFrom_close hc] at hi
      rcases List.mem_cons.1 hi with rfl | hi
      · exact ⟨hs.1, hc, hs.close hc⟩
      · exact isRead_of_mem ls none (fun s hs => by cases hs) i hi
    · rw [readFrom_more hc] at hi
      refine isRead_of_mem ls _ (fun s' hs' => ?_) i hi
      cases hs'
      exact hs.add hc

end Reads

/-! ### The first line of an assignment of layers -/

/-- `o` begins an assignment of a double-quoted value to `BBLAYERS`, with `=` or `+=`. -/
structure LayerOpening (o : Opening) : Prop where
  inVar : o.inVar = bblayersName
  varEnd : o.varEnd = ['"']
  varsetStart : ∃ ws op, o.varsetStart = bblayersName ++ (ws ++ op) ∧ (∀ c ∈ ws, isBlankClass c) ∧
    (op = ['='] ∨ op = "+=".toList)

abbrev opensLayers : Str → Option Opening := findOpening false [bblayersName]

theorem dropWhile_append_of_all {α : Type} {p : α → Bool} : ∀ {l r : List α}, (∀ x ∈ l, p x) →
    (l ++ r).dropWhile p = r.dropWhile p
  | [], _, _ => rfl
  | x :: l, r, h => by
    rw [List.cons_append, List.dropWhile_cons, if_pos (h x (by simp))]
    exact dropWhile_append_of_all fun y hy => h y (by simp [hy])

theorem matchOperator_append {ws op : Str} (hws : ∀ c ∈ ws, isBlankClass c)
    (hop : op = ['='] ∨ op = "+=".toList) (r : Str) :
    matchOperator (ws ++ op ++ ' ' :: '"' :: r) = some '"' := by
  rw [matchOperator, List.append_assoc, dropWhile_append_of_all hws]
  rcases hop with rfl | rfl <;> rfl

theorem findOpening_layers (l : Str) : opensLayers l = openingOf false l bblayersName := by
  show findOpening false [bblayersName] l = _
  rw [findOpening, List.findSome?_cons]
  cases openingOf false l bblayersName <;> rfl

theorem matchVar_layers (t : Str) :
    matchVar false (bblayersName ++ t) bblayersName = (matchOperator t).map (bblayersName, ·) := by
  have hf : isFuncName bblayersName = false := rfl
  have hp : bblayersName.isPrefixOf (bblayersName ++ t) :=
    List.isPrefixOf_iff_prefix.2 (List.prefix_append _ _)
  rw [matchVar, hf]
  simp only [Bool.false_eq_true, if_false, if_pos hp, List.drop_left, List.findSome?_cons,
    List.drop_zero, List.take_zero, List.append_nil, List.findSome?_nil]
  cases matchOperator t <;> rfl

theorem not_mem_layersName : '"' ∉ bblayersName := by decide

theorem not_blankClass_quote {ws : Str} (hws : ∀ c ∈ ws, isBlankClass c) : '"' ∉ ws := fun h =>
  absurd (hws _ h) (by decide)

/-- A first line that an edit writes opens the assignment it is written for. -/
theorem LayerOpening.opens {o : Opening} (h : LayerOpening o) (r : Str) :
    opensLayers (o.varsetStart ++ ' ' :: '"' :: r) = some { o with rest := r } := by
  obtain ⟨ws, op, hstart, hws, hop⟩ := h.varsetStart
  have hop' : '"' ∉ op := by rcases hop with rfl | rfl <;> decide
  have hlast : rstrip (bblayersName ++ (ws ++ op) ++ [' ']) = bblayersName ++ (ws ++ op) := by
    have hend : ∃ x, bblayersName ++ (ws ++ op) = x ++ ['='] := by
      rcases hop with rfl | rfl
      · exact ⟨bblayersName ++ ws, by simp⟩
      · exact ⟨bblayersName ++ (ws ++ ['+']), by simp⟩
    obtain ⟨x, hx⟩ := hend
    rw [hx, rstrip, List.rdropWhile_concat_pos _ _ _ (by decide),
      List.rdropWhile_concat_neg _ _ _ (by decide)]
  have hpart : partition '"' (bblayersName ++ (ws ++ op) ++ ' ' :: '"' :: r) =
      (bblayersName ++ (ws ++ op) ++ [' '], some r) := by
    have hnot : '"' ∉ bblayersName ++ (ws ++ op) ++ [' '] := by
      simp [not_mem_layersName, not_blankClass_quote hws, hop']
    simpa using partition_append hnot (a := r)
  rw [findOpening_layers, openingOf, hstart]
  have hm : matchVar false (bblayersName ++ (ws ++ op) ++ ' ' :: '"' :: r) bblayersName =
      some (bblayersName, '"') := by
    rw [List.append_assoc, matchVar_layers, matchOperator_append hws hop]
    rfl
  rw [hm]
  simp only [Option.map_some, hpart, hlast]
  obtain ⟨inVar, varEnd, varsetStart, rest⟩ := o
  have h₁ : inVar = bblayersName := h.inVar
  have h₂ : varEnd = ['"'] := h.varEnd
  have h₃ : varsetStart = bblayersName ++ (ws ++ op) := hstart
  subst h₁ h₂ h₃
  rfl

/-- White space in front of an operator that was matched is of the pattern's class. -/
theorem blankClass_of_matchOperator {ws t : Str} {c : Char} (h : matchOperator (ws ++ t) = some c)
    (hws : ∀ x ∈ ws, isSpace x) : ∀ x ∈ ws, isBlankClass x := by
  induction ws with
  | nil => intro x hx; cases hx
  | cons y ws ih =>
    by_cases hy : isBlankClass y
    · have ht : matchOperator (y :: ws ++ t) = matchOperator (ws ++ t) := by
        rw [matchOperator, matchOperator, List.cons_append, List.dropWhile_cons, if_pos hy]
      rw [ht] at h
      have := ih h fun x hx => hws x (by simp [hx])
      intro x hx
      rcases List.mem_cons.1 hx with rfl | hx
      · exact hy
      · exact this x hx
    · exfalso
      have hsp := hws y (by simp)
      have hne : ("?+:.".toList.contains y) = false ∧ y ≠ '=' := by
        constructor
        · cases hc : "?+:.".toList.contains y with
          | false => rfl
          | true =>
            have hm : y ∈ ['?', '+', ':', '.'] := by simpa using hc
            rcases List.mem_cons.1 hm with rfl | hm
            · cases hsp
            rcases List.mem_cons.1 hm with rfl | hm
            · cases hsp
            rcases List.mem_cons.1 hm with rfl | hm
            · cases hsp
            rcases List.mem_cons.1 hm with rfl | hm
            · cases hsp
            · cases hm
        · rintro rfl
          cases hsp
      rw [matchOperator, List.cons_append, List.dropWhile_cons, if_neg hy, List.dropWhile_cons,
        if_neg (by rw [hne.1]; exact Bool.false_ne_true)] at h
      split at h
      · next heq =>
        exact hne.2 (List.cons.inj heq).1
      · cases h

theorem rstrip_append {a b : Str} (ha : ∀ c ∈ a.getLast?, isSpace c = false) :
    rstrip (a ++ b) = a ++ rstrip b := by
  unfold rstrip List.rdropWhile
  rw [List.reverse_append, List.dropWhile_append]
  split
  · next h =>
    have hb : b.reverse.dropWhile isSpace = [] := List.isEmpty_iff.1 h
    have hself : a.reverse.dropWhile isSpace = a.reverse := by
      cases hr : a.reverse with
      | nil => rfl
      | cons x xs =>
        have hx : isSpace x = false := by
          refine ha x ?_
          rw [← List.head?_reverse, hr]
          rfl
        rw [List.dropWhile_cons, hx]
        rfl
    rw [hself, hb]
    simp
  · simp

theorem strip_rstrip (u : Str) : strip (rstrip u) = (rstrip u).dropWhile isSpace := by
  rw [strip, stripBy, List.rdropWhile_eq_self_iff]
  intro hne
  have hu : rstrip u ≠ [] := fun h => hne (by rw [h]; rfl)
  have hsuf : (rstrip u).dropWhile isSpace <:+ rstrip u := List.dropWhile_suffix _
  rw [hsuf.getLast hne]
  exact List.rdropWhile_last_not isSpace u hu

theorem layerOpening_of_opens {l : Str} {o : Opening} (h : opensLayers l = some o)
    (hq : o.varEnd = ['"']) {op : Str} (hop : strip (o.varsetStart.drop o.inVar.length) = op)
    (ho : op = ['='] ∨ op = "+=".toList) : LayerOpening o := by
  rw [findOpening_layers] at h
  obtain ⟨⟨group, c⟩, hm, he⟩ := Option.map_eq_some_iff.1 h
  have hgroup : group = bblayersName := (matchVar_some hm).1
  subst hgroup
  obtain ⟨t, rfl⟩ : ∃ t, l = bblayersName ++ t := by
    by_contra hn
    have hp : ¬ bblayersName.isPrefixOf l := fun hp =>
      hn ((List.isPrefixOf_iff_prefix.1 hp).imp fun t ht => ht.symm)
    rw [matchVar] at hm
    have hf : isFuncName bblayersName = false := rfl
    simp only [hf, Bool.false_eq_true, if_false, if_neg hp] at hm
    cases hm
  rw [matchVar_layers] at hm
  obtain ⟨c', hc', hcc⟩ := Option.map_eq_some_iff.1 hm
  simp only [Prod.mk.injEq, true_and] at hcc
  subst hcc
  have hf : isFuncName bblayersName = false := rfl
  simp only [hf, Bool.false_eq_true, if_false] at he
  subst he
  have hq' : c' = '"' := by simpa using hq
  subst hq'
  have hpart := partition_append_left not_mem_layersName t
  obtain ⟨⟨u, r⟩, hur⟩ : ∃ p, partition '"' t = p := ⟨_, rfl⟩
  have hpre : u <+: t := by
    cases r with
    | none => exact (partition_none hur).1 ▸ List.prefix_rfl
    | some a => exact partition_some hur ▸ List.prefix_append _ _
  rw [hur] at hpart
  have hstart : rstrip (bblayersName ++ u) = bblayersName ++ rstrip u :=
    rstrip_append fun c hc => by
      obtain rfl : 'S' = c := Option.some.inj hc
      rfl
  simp only [hpart, hstart] at hop ⊢
  have hdrop : (bblayersName ++ rstrip u).drop bblayersName.length = rstrip u := List.drop_left
  rw [hdrop, strip_rstrip] at hop
  -- what is stripped off the operator in front
  have hcut : rstrip u = (rstrip u).takeWhile isSpace ++ op := by
    rw [← hop, List.takeWhile_append_dropWhile]
  obtain ⟨t', ht⟩ : (rstrip u).takeWhile isSpace <+: t :=
    (List.takeWhile_prefix _).trans ((List.rdropWhile_prefix _ _).trans hpre)
  rw [← ht] at hc'
  exact ⟨rfl, rfl, _, op, congrArg (bblayersName ++ ·) hcut,
    blankClass_of_matchOperator hc' fun x hx => List.mem_takeWhile_imp hx, ho⟩

/-! ### Written assignments -/

/-- The layers that an assignment sets or adds. -/
def Setting.layers (s : Setting) : List Str := words s.value

/-- An assignment that opens as `o` does, as an edit writes it for some layers. -/
def layerSetting (o : Opening) (layers : List Str) : Setting :=
  match layers with
  | [] => ⟨{ o with rest := "\"\n".toList }, o.varsetStart ++ " \"\"\n".toList, []⟩
  | w :: ws => ⟨{ o with rest := " \\\n".toList }, o.varsetStart ++ " \" \\\n".toList,
      (w :: ws).map (itemLine "  ".toList) ++ ["  \"\n".toList]⟩

theorem lines_layerSetting (o : Opening) (layers : List Str) :
    (layerSetting o layers).lines = variableLines o.varsetStart "  ".toList false (.items layers) := by
  cases layers <;> rfl

theorem layerSetting_opening (o : Opening) (layers : List Str) :
    (layerSetting o layers).opening = { o with rest := (layerSetting o layers).opening.rest } := by
  cases layers <;> rfl

theorem rstrip_itemLine (w : Str) : rstrip (itemLine "  ".toList w) = "  ".toList ++ w ++ " \\".toList := by
  have h : itemLine "  ".toList w = ("  ".toList ++ w ++ [' ']) ++ ['\\'] ++ ['\n'] := by
    simp [itemLine]
  rw [h, rstrip, List.rdropWhile_concat_pos _ _ _ (by decide),
    List.rdropWhile_concat_neg _ _ _ (by decide)]
  simp

theorem dropContinuation_itemLine (w : Str) :
    dropContinuation (rstrip (itemLine "  ".toList w)) = "  ".toList ++ w ++ " ".toList := by
  have h : "  ".toList ++ w ++ " \\".toList = ("  ".toList ++ w ++ [' ']) ++ ['\\'] := by simp
  rw [rstrip_itemLine, h, dropContinuation,
    if_pos (List.isSuffixOf_iff_suffix.2 (List.suffix_append _ _)), List.dropLast_concat]
  rfl

theorem not_closed_of_lastPiece {s : Setting} (h : ¬ s.opening.varEnd <:+ s.lastPiece) :
    ¬ s.closed := fun hc => h (Setting.closed_suffix hc)

theorem ReadsOpen.addAll {opens : Str → Option Opening} : ∀ (ls : List Str) {s : Setting},
    ReadsOpen opens s → (∀ l ∈ ls, ¬ s.opening.varEnd <:+ rstrip l) →
    ReadsOpen opens { s with more := s.more ++ ls }
  | [], s, h, _ => by simpa using h
  | l :: ls, s, h, hl => by
    have hc : ¬ (s.add l).closed := not_closed_of_lastPiece (by
      rw [Setting.lastPiece_add]
      exact hl l (by simp))
    have := ReadsOpen.addAll ls (h.add hc) fun l' hl' => hl l' (by simp [hl'])
    simpa [Setting.add] using this

theorem LayerOpening.not_isFunc {o : Opening} (h : LayerOpening o) : isFuncName o.inVar = false := by
  rw [h.inVar]
  rfl

theorem closed_of_quote {s : Setting} (h : LayerOpening s.opening) (hs : ['"'] <:+ s.lastPiece) :
    s.closed := by
  have hf : s.isFunc = false := h.not_isFunc
  rw [Setting.closed, h.varEnd, hf, List.isSuffixOf_iff_suffix.2 hs]
  rfl

theorem layerOpening_layerSetting {o : Opening} (h : LayerOpening o) (layers : List Str) :
    LayerOpening (layerSetting o layers).opening := by
  rw [layerSetting_opening]
  exact ⟨h.inVar, h.varEnd, h.varsetStart⟩

theorem isRead_layerSetting {o : Opening} (h : LayerOpening o) (layers : List Str) :
    (Item.setting (layerSetting o layers)).IsRead opensLayers := by
  cases layers with
  | nil =>
    have hopen : opensLayers (o.varsetStart ++ " \"\"\n".toList) =
        some { o with rest := "\"\n".toList } := h.opens _
    have hc : (layerSetting o []).closed :=
      closed_of_quote ⟨h.inVar, h.varEnd, h.varsetStart⟩ ⟨[], rfl⟩
    exact ⟨hopen, hc, fun rest => readFrom_setting hopen hc⟩
  | cons w ws =>
    have hopen : opensLayers (o.varsetStart ++ " \" \\\n".toList) =
        some { o with rest := " \\\n".toList } := h.opens _
    have hfirst : ReadsOpen opensLayers
        ⟨{ o with rest := " \\\n".toList }, o.varsetStart ++ " \" \\\n".toList, []⟩ := by
      refine readsOpen_first hopen (not_closed_of_lastPiece ?_)
      rw [h.varEnd]
      show ¬ ['"'] <:+ rstrip " \\\n".toList
      decide
    have hitems := ReadsOpen.addAll ((w :: ws).map (itemLine "  ".toList)) hfirst fun l hl => by
      obtain ⟨x, -, rfl⟩ := List.mem_map.1 hl
      have hend : "  ".toList ++ x ++ " \\".toList = ("  ".toList ++ x ++ [' ']) ++ ['\\'] := by simp
      rw [rstrip_itemLine, h.varEnd, hend, singleton_suffix_iff, List.getLast?_concat]
      simp
    have hc : (layerSetting o (w :: ws)).closed := by
      refine closed_of_quote ⟨h.inVar, h.varEnd, h.varsetStart⟩ ?_
      show ['"'] <:+ rstrip ((_ ++ ["  \"\n".toList]).getLast?.getD _)
      rw [List.getLast?_concat]
      exact ⟨"  ".toList, rfl⟩
    exact ⟨hopen, hc, hitems.close hc⟩

/-- The last line of an assignment is not blank. -/
theorem last_of_isRead {s : Setting} (hv : s.opening.varEnd = ['"'])
    (h : (Item.setting s).IsRead opensLayers) : s.lines.getLast? ≠ some ['\n'] := by
  obtain ⟨hopen, hc, -⟩ := h
  have hsuf := Setting.closed_suffix hc
  rw [hv, Setting.lastPiece] at hsuf
  rcases List.eq_nil_or_concat s.more with hm | ⟨init, l, hm⟩
  · rw [Setting.lines, hm]
    intro hl
    have hfirst : s.first = ['\n'] := Option.some.inj hl
    rw [hfirst] at hopen
    have hnone : opensLayers ['\n'] = none := rfl
    rw [hnone] at hopen
    cases hopen
  · rw [hm] at hsuf
    rw [Setting.lines, hm, List.concat_eq_append, ← List.cons_append, List.getLast?_concat]
    intro hl
    have hl' : l = ['\n'] := Option.some.inj hl
    rw [List.concat_eq_append, List.getLast?_concat, hl'] at hsuf
    have hnot : ¬ ['"'] <:+ rstrip ['\n'] := by decide
    exact hnot hsuf

theorem words_space (t : Str) : words (' ' :: t) = words t := words_append_space [] t

theorem words_items : ∀ {ws : List Str}, (∀ w ∈ ws, IsWord w) → ∀ t : Str,
    words (ws.flatMap (fun w => "  ".toList ++ w ++ " ".toList) ++ t) = ws ++ words t
  | [], _, _ => rfl
  | w :: ws, h, t => by
    have hw : words (("  ".toList ++ w ++ " ".toList) ++
        (ws.flatMap (fun w => "  ".toList ++ w ++ " ".toList) ++ t)) =
        w :: words (ws.flatMap (fun w => "  ".toList ++ w ++ " ".toList) ++ t) := by
      show words (' ' :: ' ' :: w ++ [' '] ++ _) = _
      rw [List.append_assoc, List.cons_append, words_space, List.cons_append, words_space]
      show words (w ++ ' ' :: _) = _
      rw [words_append_space, (h w (by simp)).words]
      rfl
    rw [List.flatMap_cons, List.append_assoc, hw, words_items fun x hx => h x (by simp [hx])]
    rfl

theorem layers_layerSetting {o : Opening} (h : LayerOpening o) {layers : List Str}
    (hw : ∀ w ∈ layers, IsWord w) : (layerSetting o layers).layers = layers := by
  have hf : (layerSetting o layers).isFunc = false := (layerOpening_layerSetting h layers).not_isFunc
  rw [Setting.layers, Setting.value, Setting.text, if_neg (by rw [hf]; exact Bool.false_ne_true)]
  cases layers with
  | nil => rfl
  | cons w ws =>
    show words (dropContinuation (rstrip " \\\n".toList) ++
      ((w :: ws).map (itemLine "  ".toList) ++ ["  \"\n".toList]).flatMap
        fun l => dropContinuation (rstrip l)).dropLast = _
    have hmore : (((w :: ws).map (itemLine "  ".toList) ++ ["  \"\n".toList]).flatMap
        fun l => dropContinuation (rstrip l)) =
        ((w :: ws).flatMap fun w => "  ".toList ++ w ++ " ".toList) ++ "  ".toList ++ ['"'] := by
      rw [List.flatMap_append, List.flatMap_map]
      simp only [dropContinuation_itemLine, List.append_assoc]
      rfl
    have hfirst : dropContinuation (rstrip " \\\n".toList) = [' '] := rfl
    rw [hmore, hfirst, ← List.append_assoc, List.dropLast_concat, List.singleton_append, words_space,
      words_items hw]
    simp [words_space, words_nil]

/-- The assignment that `addLine` is. -/
def addSetting (a : Str) : Setting :=
  ⟨⟨bblayersName, ['"'], bblayersName ++ " +=".toList, a ++ "\"\n".toList⟩, addLine a, []⟩

theorem layerOpening_addSetting (a : Str) : LayerOpening (addSetting a).opening :=
  ⟨rfl, rfl, [' '], "+=".toList, rfl, by simp [isBlankClass], .inr rfl⟩

theorem addLine_eq (a : Str) :
    addLine a = bblayersName ++ " +=".toList ++ ([' ', '"'] ++ (a ++ "\"\n".toList)) := by
  have h₁ : addLine a = ("BBLAYERS += \"".toList ++ a) ++ "\"\n".toList := Eq.refl _
  have h₂ : "BBLAYERS += \"".toList = bblayersName ++ " +=".toList ++ [' ', '"'] := rfl
  rw [h₁, h₂, List.append_assoc, List.append_assoc, List.append_assoc]

theorem rstrip_quote (a : Str) : rstrip (a ++ "\"\n".toList) = a ++ ['"'] := by
  have h : a ++ "\"\n".toList = a ++ ['"'] ++ ['\n'] := by simp
  rw [h, rstrip, List.rdropWhile_concat_pos _ _ _ (by decide),
    List.rdropWhile_concat_neg _ _ _ (by decide)]

theorem reads_addSetting (a : Str) :
    Reads opensLayers [addLine a] [.setting (addSetting a)] := by
  have hopen : opensLayers (addLine a) = some (addSetting a).opening := by
    rw [addLine_eq]
    exact (layerOpening_addSetting a).opens (a ++ "\"\n".toList)
  refine fun rest => readFrom_setting hopen (closed_of_quote (layerOpening_addSetting a) ?_)
  show ['"'] <:+ rstrip (a ++ "\"\n".toList)
  rw [rstrip_quote]
  exact List.suffix_append _ _

theorem layers_addSetting {a : Str} (ha : IsWord a) : (addSetting a).layers = [a] := by
  have hf : (addSetting a).isFunc = false := rfl
  have hc : dropContinuation (a ++ ['"']) = a ++ ['"'] :=
    dropContinuation_of_quote (by decide) (List.suffix_append _ _)
  rw [Setting.layers, Setting.value, Setting.text, if_neg (by rw [hf]; exact Bool.false_ne_true)]
  show words (dropContinuation (rstrip (a ++ "\"\n".toList)) ++ []).dropLast = [a]
  rw [rstrip_quote, hc, List.append_nil, List.dropLast_concat, ha.words]

end BitBake
end OpenBmc
