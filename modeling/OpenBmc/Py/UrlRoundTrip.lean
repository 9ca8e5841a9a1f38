import OpenBmc.Py.Url

/-!
# Reassembled URLs parse back

`Parsed p` says what the parts of an `urlparse` result may not contain. With a scheme and a network
location such a result is recovered from its `urlunparse` (`urlparse_urlunparse`), also after the
network location was replaced by another acceptable one.
-/

namespace OpenBmc
namespace Py

/-- Tab, carriage return, newline: `urlsplit` removes them anywhere. -/
def NoBreaks (s : Str) : Prop := ∀ c ∈ s, c ≠ '\t' ∧ c ≠ '\r' ∧ c ≠ '\n'

theorem NoBreaks.subset {s t : Str} (h : NoBreaks s) (hts : ∀ c ∈ t, c ∈ s) : NoBreaks t :=
  fun c hc => h c (hts c hc)

theorem noBreaks_append {s t : Str} : NoBreaks (s ++ t) ↔ NoBreaks s ∧ NoBreaks t :=
  List.forall_mem_append

theorem noBreaks_cleanUrl (url : Str) : NoBreaks (cleanUrl url) := fun c hc => by
  simpa using (List.mem_filter.1 hc).2

theorem cleanUrl_of_noBreaks {c : Char} {cs : Str} (hc : 32 < c.toNat) (h : NoBreaks (c :: cs)) :
    cleanUrl (c :: cs) = c :: cs := by
  rw [cleanUrl, List.dropWhile_cons_of_neg (by simpa using hc), List.filter_eq_self]
  exact fun d hd => by simpa using h d hd

theorem head?_cleanUrl (url : Str) : ∀ c ∈ (cleanUrl url).head?, 32 < c.toNat := by
  intro c hc
  have hdrop := List.head?_dropWhile_not (fun c : Char => decide (c.toNat ≤ 32)) url
  unfold cleanUrl at hc
  cases hd : url.dropWhile fun c => decide (c.toNat ≤ 32) with
  | nil =>
    rw [hd] at hc
    cases hc
  | cons d ds =>
    rw [hd] at hdrop hc
    have hgt : 32 < d.toNat := by simpa using hdrop
    rw [List.filter_cons_of_pos] at hc
    · cases hc
      exact hgt
    · have hne : ∀ e : Char, e.toNat ≤ 32 → d ≠ e := by
        rintro e he rfl
        omega
      simpa using ⟨hne '\t' (by decide), hne '\r' (by decide), hne '\n' (by decide)⟩

/-! ### Schemes -/

theorem isSchemeChar_toLower {c : Char} (h : isSchemeChar c) : isSchemeChar c.toLower := by
  by_cases hu : c.isUpper
  · simp [isSchemeChar, Char.isAlphanum, Char.isAlpha, isLower_toLower hu]
  · rwa [toLower_of_not_isUpper hu]

theorem isAlpha_toLower {c : Char} (h : c.isAlpha) : c.toLower.isAlpha := by
  by_cases hu : c.isUpper
  · simp [Char.isAlpha, isLower_toLower hu]
  · rwa [toLower_of_not_isUpper hu]

/-- A scheme as `urlsplit` returns it. -/
structure IsScheme (s : Str) : Prop where
  alpha : s.head?.any Char.isAlpha
  chars : s.all isSchemeChar
  lower : s.map Char.toLower = s

theorem isScheme_of_split {url s rest : Str} (h : splitScheme url = (s, rest)) :
    (s = [] ∧ rest = url) ∨ (IsScheme s ∧ ∀ c ∈ rest, c ∈ url) := by
  rw [splitScheme] at h
  split at h
  · rename_i before after hp
    split at h
    · rename_i hc
      obtain ⟨rfl, rfl⟩ := Prod.mk.inj h
      refine .inr ⟨⟨?_, ?_, ?_⟩, fun c hc => mem_of_partition_some hp hc⟩
      · obtain ⟨hc, -⟩ := hc
        cases before with
        | nil => simp at hc
        | cons c cs => simpa using isAlpha_toLower (by simpa using hc)
      · simp only [List.all_eq_true, List.mem_map] at hc ⊢
        rintro _ ⟨c, hm, rfl⟩
        exact isSchemeChar_toLower (hc.2 c hm)
      · simp
    · obtain ⟨rfl, rfl⟩ := Prod.mk.inj h
      exact .inl ⟨rfl, rfl⟩
  · obtain ⟨rfl, rfl⟩ := Prod.mk.inj h
    exact .inl ⟨rfl, rfl⟩

theorem IsScheme.not_mem {s : Str} (h : IsScheme s) {c : Char} (hc : isSchemeChar c = false) :
    c ∉ s := fun hm => by
  have := List.all_eq_true.1 h.chars c hm
  rw [hc] at this; cases this

theorem IsScheme.ne_nil {s : Str} (h : IsScheme s) : s ≠ [] := by
  rintro rfl
  simpa using h.alpha

theorem IsScheme.split {s rest : Str} (h : IsScheme s) :
    splitScheme (s ++ ':' :: rest) = (s, rest) := by
  rw [splitScheme, partition_append (h.not_mem rfl)]
  simp only [h.alpha, h.chars, and_self, if_true, h.lower]

/-- What stands before a colon is taken for a scheme. -/
def looksLikeScheme (s : Str) : Bool := s.head?.any Char.isAlpha && s.all isSchemeChar

theorem splitScheme_of_not {before rest : Str} (hc : ':' ∉ before) (h : looksLikeScheme before = false) :
    splitScheme (before ++ ':' :: rest) = ([], before ++ ':' :: rest) := by
  simp only [looksLikeScheme, Bool.and_eq_false_iff] at h
  rw [splitScheme, partition_append hc]
  simp only
  rw [if_neg]
  rintro ⟨ha, hs⟩
  rcases h with h | h
  · rw [ha] at h; cases h
  · rw [hs] at h; cases h

theorem splitScheme_of_looks {before : Str} (hc : ':' ∉ before) (h : looksLikeScheme before)
    (rest : Str) : splitScheme (before ++ ':' :: rest) = (before.map Char.toLower, rest) := by
  simp only [looksLikeScheme, Bool.and_eq_true] at h
  rw [splitScheme, partition_append hc]
  exact if_pos h

theorem splitScheme_of_no_colon {url : Str} (hc : ':' ∉ url) : splitScheme url = ([], url) := by
  rw [splitScheme, partition_of_not_mem hc]

theorem splitScheme_of_head {url : Str} {c : Char} (hc : c ≠ ':') (ha : c.isAlpha = false) :
    splitScheme (c :: url) = ([], c :: url) := by
  rw [splitScheme, partition, if_neg hc]
  rcases partition ':' url with ⟨before, _ | rest⟩
  · rfl
  · simp only [List.head?_cons, Option.any_some, ha, Bool.false_eq_true, false_and, if_false]

theorem IsScheme.noBreaks {s : Str} (h : IsScheme s) : NoBreaks s := fun c hc => by
  refine ⟨?_, ?_, ?_⟩ <;> rintro rfl <;> exact h.not_mem rfl hc

/-! ### The parts of a parsed URL -/

/-- What `urlparse` guarantees of its result, apart from the checks on the network location. -/
structure Shaped (p : ParseResult) : Prop where
  scheme : p.scheme = [] ∨ IsScheme p.scheme
  netloc : ∀ c ∈ p.netloc, isNetlocEnd c = false
  path : ∀ c ∈ p.path ++ optPart ';' p.params, c ≠ '?' ∧ c ≠ '#'
  slash : p.netloc ≠ [] → p.path ++ optPart ';' p.params = [] ∨
    (p.path ++ optPart ';' p.params).head? = some '/'
  params : (if p.scheme ∈ usesParams then splitParams (p.path ++ optPart ';' p.params)
    else (p.path ++ optPart ';' p.params, [])) = (p.path, p.params)
  query : '#' ∉ p.query
  breaks : NoBreaks (p.netloc ++ (p.path ++ optPart ';' p.params) ++ p.query ++ p.fragment)

/-- What `urlparse` guarantees of its result. -/
structure Parsed (p : ParseResult) : Prop extends Shaped p where
  check : checkNetloc p.netloc = .ok ()

theorem splitParams_spec {url a b : Str} (h : splitParams url = (a, b)) :
    (a ++ optPart ';' b = url ∨ (b = [] ∧ url = a ++ [';'])) ∧
      splitParams (a ++ optPart ';' b) = (a, b) := by
  have hlast : '/' ∉ (rpartition '/' url).2 := not_mem_rpartition_snd url
  have hurl : url = ((rpartition '/' url).1.map (· ++ ['/'])).getD [] ++ (rpartition '/' url).2 :=
    rpartition_join url
  rcases hp : partition ';' (rpartition '/' url).2 with ⟨head, _ | params⟩
  · simp only [splitParams, hp] at h
    obtain ⟨rfl, rfl⟩ := Prod.mk.inj h
    simp [optPart, splitParams, hp]
  · simp only [splitParams, hp] at h
    obtain ⟨rfl, rfl⟩ := Prod.mk.inj h
    rw [partition_some hp] at hurl hlast
    have hhead : ';' ∉ head := by
      have := @not_mem_partition_fst ';' (rpartition '/' url).2
      rwa [hp] at this
    by_cases hb : params = []
    · subst hb
      refine ⟨.inr ⟨rfl, by simpa using hurl⟩, ?_⟩
      have hslash : '/' ∉ head := fun hm => hlast (by simp [hm])
      simp only [show optPart ';' [] = [] from rfl, List.append_nil, splitParams,
        rpartition_rejoin _ hslash, partition_of_not_mem hhead]
    · have hu : ((rpartition '/' url).1.map (· ++ ['/'])).getD [] ++ head ++ optPart ';' params = url := by
        rw [optPart, if_neg hb, List.append_assoc, ← hurl]
      refine ⟨.inl hu, ?_⟩
      rw [hu]
      simp only [splitParams, hp]

theorem mem_of_mem_splitParams {url a b : Str} (h : splitParams url = (a, b)) {c : Char}
    (hc : c ∈ a ++ optPart ';' b) : c ∈ url := by
  rcases (splitParams_spec h).1 with hu | ⟨rfl, hu⟩
  · rwa [hu] at hc
  · rw [hu]
    simpa [optPart] using Or.inl (by simpa [optPart] using hc)

/-- The path, its parameters rejoined, is the path text or that without a final `;`. -/
theorem path_rejoin {scheme path0 path params : Str}
    (h : (if scheme ∈ usesParams then splitParams path0 else (path0, [])) = (path, params)) :
    (path ++ optPart ';' params = path0 ∨ path0 = path ++ optPart ';' params ++ [';']) ∧
      (if scheme ∈ usesParams then splitParams (path ++ optPart ';' params)
        else (path ++ optPart ';' params, [])) = (path, params) := by
  split at h
  · obtain ⟨hu, hs⟩ := splitParams_spec h
    rw [if_pos ‹_›]
    refine ⟨hu.imp id ?_, hs⟩
    rintro ⟨rfl, hpath⟩
    simp [optPart, hpath]
  · obtain ⟨rfl, rfl⟩ := Prod.mk.inj h
    simp [optPart, ‹scheme ∉ usesParams›]

theorem splitNetloc_spec {url netloc rest : Str} (h : splitNetloc url = (netloc, rest)) :
    (∀ c ∈ netloc, isNetlocEnd c = false) ∧ (∀ c ∈ netloc ++ rest, c ∈ url) ∧
      (netloc ≠ [] → ∀ c ∈ rest.head?, isNetlocEnd c) := by
  unfold splitNetloc at h
  split at h
  · rename_i after
    obtain ⟨rfl, rfl⟩ := Prod.mk.inj h
    refine ⟨fun c hc => by simpa using List.mem_takeWhile_imp hc, fun c hc => ?_, fun _ c hc => ?_⟩
    · rw [List.takeWhile_append_dropWhile] at hc; simp [hc]
    · have := List.head?_dropWhile_not (!isNetlocEnd ·) after
      rw [show (after.dropWhile (!isNetlocEnd ·)).head? = some c from hc] at this
      simpa using this
  · obtain ⟨rfl, rfl⟩ := Prod.mk.inj h
    simp

theorem parsed_of_urlparse {url : Str} {p : ParseResult} (h : urlparse url = .ok p) : Parsed p := by
  unfold urlparse at h
  rcases hs : splitScheme (cleanUrl url) with ⟨scheme, rest⟩
  rcases hn : splitNetloc rest with ⟨netloc, rest'⟩
  rcases hf : partition '#' rest' with ⟨body, fragment⟩
  rcases hq : partition '?' body with ⟨path0, query⟩
  simp only [hs, hn, hf, hq] at h
  split at h
  · cases h
  rename_i hcheck
  rcases hp : (if scheme ∈ usesParams then splitParams path0 else (path0, [])) with ⟨path, params⟩
  simp only [hp, Except.ok.injEq] at h
  subst h
  obtain ⟨hjoin, hparams⟩ := path_rejoin hp
  obtain ⟨hend, hsub, hslash⟩ := splitNetloc_spec hn
  have hbody : ∀ c ∈ body, c ∈ rest' := fun c hc =>
    @mem_of_mem_partition_fst '#' _ _ (by rw [hf]; exact hc)
  have hpath0 : ∀ c ∈ path0, c ∈ body := fun c hc =>
    @mem_of_mem_partition_fst '?' _ _ (by rw [hq]; exact hc)
  have hpathm : ∀ c ∈ path ++ optPart ';' params, c ∈ path0 := fun c hc => by
    rcases hjoin with hj | hj
    · rwa [hj] at hc
    · rw [hj]; exact List.mem_append_left _ hc
  have hbodyhash : '#' ∉ body := by
    have := @not_mem_partition_fst '#' rest'; rwa [hf] at this
  have hpathq : '?' ∉ path0 := by
    have := @not_mem_partition_fst '?' body; rwa [hq] at this
  have hquery : ∀ c ∈ query.getD [], c ∈ body := fun c hc => by
    cases query with
    | none => simp at hc
    | some q => exact mem_of_partition_some hq hc
  have hfrag : ∀ c ∈ fragment.getD [], c ∈ rest' := fun c hc => by
    cases fragment with
    | none => simp at hc
    | some f => exact mem_of_partition_some hf hc
  have hrest : ∀ c ∈ rest, c ∈ cleanUrl url := by
    rcases isScheme_of_split hs with ⟨-, rfl⟩ | ⟨-, h⟩
    · exact fun _ h => h
    · exact h
  refine ⟨⟨?_, hend, fun c hc => ⟨?_, ?_⟩, fun hne => ?_, hparams, ?_, ?_⟩, hcheck⟩
  · exact (isScheme_of_split hs).imp (·.1) (·.1)
  · rintro rfl; exact hpathq (hpathm _ hc)
  · rintro rfl; exact hbodyhash (hpath0 _ (hpathm _ hc))
  · have hhead := hslash hne
    have hpath : path0 = [] ∨ path0.head? = some '/' := by
      cases rest' with
      | nil =>
        obtain ⟨rfl, -⟩ := Prod.mk.inj hf
        obtain ⟨rfl, -⟩ := Prod.mk.inj hq
        exact .inl rfl
      | cons c cs =>
        have hc := hhead c rfl
        simp only [isNetlocEnd, Bool.or_eq_true, decide_eq_true_eq] at hc
        rcases hc with (rfl | rfl) | rfl
        · rw [partition, if_neg (by decide)] at hf
          obtain ⟨rfl, -⟩ := Prod.mk.inj hf
          rw [partition, if_neg (by decide)] at hq
          obtain ⟨rfl, -⟩ := Prod.mk.inj hq
          exact .inr rfl
        · rw [partition, if_neg (by decide)] at hf
          obtain ⟨rfl, -⟩ := Prod.mk.inj hf
          rw [partition, if_pos rfl] at hq
          obtain ⟨rfl, -⟩ := Prod.mk.inj hq
          exact .inl rfl
        · rw [partition, if_pos rfl] at hf
          obtain ⟨rfl, -⟩ := Prod.mk.inj hf
          obtain ⟨rfl, -⟩ := Prod.mk.inj hq
          exact .inl rfl
    rcases hjoin with hj | hj
    · rwa [hj]
    · rcases hpath with h | h
      · simp [hj] at h
      · cases hcase : path ++ optPart ';' params with
        | nil => exact .inl rfl
        | cons c cs =>
          rw [hj, hcase] at h
          exact .inr (by simpa using h)
  · exact fun hm => hbodyhash (hquery _ hm)
  · refine (noBreaks_cleanUrl url).subset fun c hc => hrest c ?_
    simp only [List.mem_append, or_assoc] at hc
    rcases hc with hc | hc | hc | hc | hc
    · exact hsub c (List.mem_append_left _ hc)
    · exact hsub c (List.mem_append_right _ (hbody _ (hpath0 _ (hpathm _ (by simp [hc])))))
    · exact hsub c (List.mem_append_right _ (hbody _ (hpath0 _ (hpathm _ (by simp [hc])))))
    · exact hsub c (List.mem_append_right _ (hbody _ (hquery _ hc)))
    · exact hsub c (List.mem_append_right _ (hfrag _ hc))

/-! ### Reassembly -/

theorem partition_optPart {sep : Char} {a b : Str} (h : sep ∉ a) :
    partition sep (a ++ optPart sep b) = (a, if b = [] then none else some b) := by
  by_cases hb : b = []
  · simp [optPart, hb, partition_of_not_mem h]
  · simp [optPart, hb, partition_append h]

theorem getD_optPart (b : Str) : (if b = [] then none else some b).getD [] = b := by
  split <;> simp [*]

theorem splitNetloc_append {netloc rest : Str} (hn : ∀ c ∈ netloc, isNetlocEnd c = false)
    (hr : ∀ c ∈ rest.head?, isNetlocEnd c) :
    splitNetloc ('/' :: '/' :: (netloc ++ rest)) = (netloc, rest) := by
  have hp : ∀ c ∈ netloc, (!isNetlocEnd c) = true := fun c hc => by simp [hn c hc]
  rw [splitNetloc, List.takeWhile_append_of_pos hp, List.dropWhile_append_of_pos hp]
  cases rest with
  | nil => simp
  | cons c cs => simp [hr c rfl]

theorem isNetlocEnd_head?_path {path q f : Str} (h : path = [] ∨ path.head? = some '/') :
    ∀ c ∈ (path ++ optPart '?' q ++ optPart '#' f).head?, isNetlocEnd c := fun c hc => by
  rcases h with rfl | h
  · by_cases hq : q = [] <;> by_cases hf : f = [] <;> simp [optPart, hq, hf] at hc <;>
      simp [isNetlocEnd, ← hc]
  · cases path with
    | nil => cases h
    | cons d ds =>
      simp only [List.head?_cons, Option.some.injEq] at h
      simp only [List.cons_append, List.head?_cons, Option.mem_def, Option.some.injEq] at hc
      simp [isNetlocEnd, ← hc, h]

theorem splitNetloc_path {path q f : Str} (h : path.take 2 ≠ ['/', '/']) :
    splitNetloc (path ++ optPart '?' q ++ optPart '#' f) = ([], path ++ optPart '?' q ++ optPart '#' f) := by
  have htail : ∀ c ∈ (optPart '?' q ++ optPart '#' f).head?, c ≠ '/' := fun c hc => by
    by_cases hq : q = [] <;> by_cases hf : f = [] <;> simp [optPart, hq, hf] at hc <;> simp [← hc]
  rw [List.append_assoc]
  generalize optPart '?' q ++ optPart '#' f = tail at htail
  match path, tail with
  | [], [] => rfl
  | [], c :: tail =>
    have := htail c rfl
    unfold splitNetloc
    split <;> simp_all
  | [c], [] => unfold splitNetloc; split <;> simp_all
  | [c], d :: tail =>
    have := htail d rfl
    unfold splitNetloc
    split <;> simp_all
  | c :: d :: path, tail =>
    unfold splitNetloc
    split <;> simp_all

namespace Shaped
variable {p : ParseResult}

theorem splitNetloc (h : Shaped p) :
    splitNetloc (unsplitPath p.scheme p.netloc (p.path ++ optPart ';' p.params) ++
      optPart '?' p.query ++ optPart '#' p.fragment) =
    (p.netloc, p.path ++ optPart ';' p.params ++ optPart '?' p.query ++ optPart '#' p.fragment) := by
  by_cases hn : p.netloc = []
  · rw [unsplitPath, if_neg (not_not.2 hn), hn]
    split
    · rename_i hslash
      have hhead : (p.path ++ optPart ';' p.params).head? = some '/' := by
        cases hx : p.path ++ optPart ';' p.params <;> simp_all
      exact @splitNetloc_append [] _ (by simp) (isNetlocEnd_head?_path (.inr hhead))
    · rename_i hslash
      split
      · exact @splitNetloc_append [] _ (by simp) (isNetlocEnd_head?_path (And.right (And.right ‹_›)))
      · exact splitNetloc_path hslash
  · have hpath : ¬ (p.path ++ optPart ';' p.params ≠ [] ∧
        (p.path ++ optPart ';' p.params).head? ≠ some '/') := by
      have := h.slash hn
      tauto
    rw [unsplitPath, if_pos hn, if_neg hpath]
    simpa using splitNetloc_append h.netloc (isNetlocEnd_head?_path (q := p.query) (f := p.fragment)
      (h.slash hn))

theorem urlunparse_eq (hs : p.scheme ≠ []) : urlunparse p = p.scheme ++ ':' ::
    (unsplitPath p.scheme p.netloc (p.path ++ optPart ';' p.params) ++ optPart '?' p.query ++
      optPart '#' p.fragment) := by
  rw [urlunparse, if_neg hs]
  simp

theorem noBreaks_urlunparse (h : Shaped p) : NoBreaks (urlunparse p) := fun c hc => by
  have hopt : ∀ sep part, c ∈ optPart sep part → c = sep ∨ c ∈ part := fun sep part hm => by
    unfold optPart at hm
    split at hm <;> simp_all
  have hun : ∀ x, c ∈ unsplitPath p.scheme p.netloc x → c = '/' ∨ c ∈ p.netloc ∨ c ∈ x := fun x hm => by
    unfold unsplitPath at hm
    split_ifs at hm
    · simp at hm; tauto
    · simp at hm; tauto
    · simp at hm; tauto
    · simp at hm; tauto
    · exact .inr (.inr hm)
  have hparts := h.breaks c
  simp only [urlunparse, List.mem_append] at hc hparts
  rcases hc with ((hc | hc) | hc) | hc
  · rcases h.scheme with hs | hs
    · rw [if_pos hs] at hc
      cases hc
    · rw [if_neg hs.ne_nil, List.mem_append, List.mem_singleton] at hc
      rcases hc with hc | rfl
      · exact hs.noBreaks c hc
      · decide
  · rcases hun _ hc with rfl | hc | hc
    · decide
    · exact hparts (.inl (.inl (.inl hc)))
    · exact hparts (.inl (.inl (.inr (List.mem_append.1 hc))))
  · rcases hopt _ _ hc with rfl | hc
    · decide
    · exact hparts (.inl (.inr hc))
  · rcases hopt _ _ hc with rfl | hc
    · decide
    · exact hparts (.inr hc)

theorem cleanUrl_urlunparse (h : Shaped p) (hs : IsScheme p.scheme) :
    cleanUrl (urlunparse p) = urlunparse p := by
  have hb := h.noBreaks_urlunparse
  obtain ⟨c, cs, hc⟩ := List.exists_cons_of_ne_nil hs.ne_nil
  have halpha : c.isAlpha := by simpa [hc] using hs.alpha
  have hgt : 32 < c.toNat := by
    simp only [Char.isAlpha, Bool.or_eq_true, isLower_iff, isUpper_iff] at halpha
    omega
  rw [urlunparse_eq hs.ne_nil] at hb ⊢
  generalize unsplitPath _ _ _ ++ _ ++ _ = rest at hb ⊢
  rw [hc, List.cons_append] at hb ⊢
  exact cleanUrl_of_noBreaks hgt hb

end Shaped

/-- The parts behind the scheme of a reassembled URL. -/
def ParseResult.tail (p : ParseResult) : Str :=
  unsplitPath p.scheme p.netloc (p.path ++ optPart ';' p.params) ++ optPart '?' p.query ++
    optPart '#' p.fragment

theorem urlparse_of_splitScheme {p : ParseResult} (h : Shaped p)
    (hsplit : splitScheme (cleanUrl (urlunparse p)) = (p.scheme, p.tail)) :
    urlparse (urlunparse p) = (checkNetloc p.netloc).map fun _ => p := by
  have hq : '?' ∉ p.path ++ optPart ';' p.params := fun hm => (h.path _ hm).1 rfl
  have hhash : '#' ∉ p.path ++ optPart ';' p.params ++ optPart '?' p.query := fun hm => by
    rcases List.mem_append.1 hm with hm | hm
    · exact (h.path _ hm).2 rfl
    · unfold optPart at hm
      split at hm
      · simp at hm
      · rcases List.mem_cons.1 hm with hm | hm
        · cases hm
        · exact h.query hm
  unfold urlparse
  rw [hsplit]
  simp only [ParseResult.tail, h.splitNetloc]
  cases checkNetloc p.netloc with
  | error e => rfl
  | ok u =>
    simp only [partition_optPart hhash, partition_optPart hq, h.params, getD_optPart, Except.map]

/-- A reassembled URL with a scheme or a network location parses to what it was made of, if its
network location passes the checks. -/
theorem urlparse_urlunparse {p : ParseResult} (h : Shaped p) (hs : p.scheme ≠ [] ∨ p.netloc ≠ []) :
    urlparse (urlunparse p) = (checkNetloc p.netloc).map fun _ => p := by
  refine urlparse_of_splitScheme h ?_
  rcases h.scheme with hsch | hsch
  · obtain ⟨rest, hrest⟩ : ∃ rest, p.tail = '/' :: rest := by
      rw [ParseResult.tail, unsplitPath, if_pos (hs.resolve_left fun hne => hne hsch)]
      exact ⟨_, rfl⟩
    have hu : urlunparse p = '/' :: rest := by
      rw [urlunparse, if_pos hsch, List.nil_append, ← hrest]
      rfl
    have hb := h.noBreaks_urlunparse
    rw [hu] at hb ⊢
    rw [cleanUrl_of_noBreaks (by decide) hb, splitScheme_of_head (by decide) (by decide), hsch, hrest]
  · rw [h.cleanUrl_urlunparse hsch, Shaped.urlunparse_eq hsch.ne_nil, hsch.split]
    rfl

/-! ### Without a scheme and a network location -/

theorem splitScheme_of_isPrefix {w x tail : Str} (hw : (splitScheme w).1 = []) (hx : x <+: w)
    (htail : ∀ c ∈ tail.head?, isSchemeChar c = false ∧ c ≠ ':') :
    splitScheme (x ++ tail) = ([], x ++ tail) := by
  obtain ⟨t, rfl⟩ := hx
  by_cases hcolon : ':' ∈ x
  · obtain ⟨a, b, rfl, ha⟩ := List.eq_append_cons_of_mem hcolon
    rw [List.append_assoc, List.cons_append] at hw ⊢
    by_cases hl : looksLikeScheme a
    · rw [splitScheme_of_looks ha hl] at hw
      rw [List.map_eq_nil_iff.1 hw] at hl
      cases hl
    · exact splitScheme_of_not ha (Bool.eq_false_iff.2 hl)
  · by_cases htc : ':' ∈ tail
    · obtain ⟨a, b, rfl, ha⟩ := List.eq_append_cons_of_mem htc
      rw [← List.append_assoc]
      refine splitScheme_of_not (fun hm => (List.mem_append.1 hm).elim hcolon ha) ?_
      cases a with
      | nil => exact absurd rfl (htail ':' rfl).2
      | cons c a =>
        have hc := (htail c rfl).1
        simp [looksLikeScheme, hc]
    · exact splitScheme_of_no_colon fun hm => (List.mem_append.1 hm).elim hcolon htc

theorem splitNetloc_snd (url : Str) : (splitNetloc url).2 = url ∨
    ∀ c ∈ (splitNetloc url).2.head?, isNetlocEnd c := by
  unfold splitNetloc
  split
  · rename_i rest
    refine .inr fun c hc => ?_
    have := List.head?_dropWhile_not (!isNetlocEnd ·) rest
    rw [show (rest.dropWhile (!isNetlocEnd ·)).head? = some c from hc] at this
    simpa using this
  · exact .inl rfl

/-- The path and its parameters stand at the start of what follows the network location. -/
theorem path_isPrefix {url : Str} {p : ParseResult} (h : urlparse url = .ok p) :
    p.scheme = (splitScheme (cleanUrl url)).1 ∧ p.path ++ optPart ';' p.params <+:
      (splitNetloc (splitScheme (cleanUrl url)).2).2 := by
  unfold urlparse at h
  rcases hf : partition '#' (splitNetloc (splitScheme (cleanUrl url)).2).2 with ⟨body, fragment⟩
  rcases hq : partition '?' body with ⟨path0, query⟩
  simp only [hf, hq] at h
  split at h
  · cases h
  rcases hp : (if (splitScheme (cleanUrl url)).1 ∈ usesParams then splitParams path0
    else (path0, [])) with ⟨path, params⟩
  simp only [hp, Except.ok.injEq] at h
  subst h
  have hpath : path ++ optPart ';' params <+: path0 := by
    rcases (path_rejoin hp).1 with hj | hj
    · rw [hj]
    · rw [hj]
      exact List.prefix_append _ _
  have hbefore : ∀ {sep : Char} {s b : Str} {a : Option Str}, partition sep s = (b, a) → b <+: s := by
    intro sep s b a hs
    cases a with
    | none => rw [(partition_none hs).1]
    | some a => rw [partition_some hs]; exact List.prefix_append _ _
  exact ⟨rfl, hpath.trans ((hbefore hq).trans (hbefore hf))⟩

/-- Without a scheme, and with no network location left, the URL still splits as before. -/
theorem splitScheme_path {url : Str} {p q : ParseResult} (h : urlparse url = .ok p)
    (hs : p.scheme = []) (hq : Shaped q) (hscheme : q.scheme = []) (hnet : q.netloc = [])
    (hpath : q.path ++ optPart ';' q.params = p.path ++ optPart ';' p.params) :
    splitScheme (cleanUrl (urlunparse q)) = (q.scheme, q.tail) := by
  have hb := hq.noBreaks_urlunparse
  have htail : urlunparse q = q.tail := by
    rw [urlunparse, if_pos hscheme, List.nil_append]
    rfl
  rw [htail] at hb ⊢
  rw [hscheme]
  by_cases hend : ∀ c ∈ q.tail.head?, isNetlocEnd c
  · cases hc : q.tail with
    | nil => rfl
    | cons c cs =>
      have hce := hend c (by rw [hc]; rfl)
      rw [hc] at hb
      have hgt : 32 < c.toNat ∧ c ≠ ':' ∧ c.isAlpha = false := by
        simp only [isNetlocEnd, Bool.or_eq_true, decide_eq_true_eq] at hce
        rcases hce with (rfl | rfl) | rfl <;> decide
      rw [cleanUrl_of_noBreaks hgt.1 hb, splitScheme_of_head hgt.2.1 hgt.2.2]
  · obtain ⟨hsc, hbefore⟩ := path_isPrefix h
    rw [← hpath] at hbefore
    have hclean : splitScheme (cleanUrl url) = ([], cleanUrl url) := by
      rcases hsp : splitScheme (cleanUrl url) with ⟨scheme, rest⟩
      rw [hs, hsp] at hsc
      cases hsc
      rcases isScheme_of_split hsp with ⟨-, rfl⟩ | ⟨hno, -⟩
      · rfl
      · exact absurd rfl hno.ne_nil
    generalize hx : q.path ++ optPart ';' q.params = x at hbefore
    have hjoin : q.tail = x ++ (optPart '?' q.query ++ optPart '#' q.fragment) := by
      rw [ParseResult.tail, hx, unsplitPath, hscheme, hnet, if_neg (not_not.2 rfl), if_neg ?_,
        if_neg (fun hc => hc.1 rfl), List.append_assoc]
      intro hslash
      refine hend fun c hc => ?_
      rw [ParseResult.tail, hx, unsplitPath, hscheme, hnet, if_neg (not_not.2 rfl),
        if_pos hslash] at hc
      cases hc
      rfl
    have hend' : ¬ ∀ c ∈ (x ++ optPart '?' q.query ++ optPart '#' q.fragment).head?,
        isNetlocEnd c := by
      rwa [hjoin, ← List.append_assoc] at hend
    have hx' : ¬ (x = [] ∨ x.head? = some '/') := fun hor => hend' (isNetlocEnd_head?_path hor)
    cases x with
    | nil => exact absurd (.inl rfl) hx'
    | cons c x =>
      have hslash : c ≠ '/' := by
        rintro rfl
        exact hx' (.inr rfl)
      have hhead : ∀ {l : Str}, c :: x <+: l → c ∈ l.head? := by
        rintro l ⟨t, rfl⟩
        rfl
      have hne := hq.path c (by rw [hx]; exact List.mem_cons_self)
      have hrest : (splitNetloc (splitScheme (cleanUrl url)).2).2 = cleanUrl url := by
        rcases splitNetloc_snd (splitScheme (cleanUrl url)).2 with hsame | hcut
        · rw [hsame, hclean]
        · have hce := hcut c (hhead hbefore)
          simp [isNetlocEnd, hslash, hne] at hce
      rw [hrest] at hbefore
      have hgt := head?_cleanUrl url c (hhead hbefore)
      rw [hjoin] at hb ⊢
      rw [List.cons_append] at hb
      rw [show cleanUrl (c :: x ++ _) = _ from cleanUrl_of_noBreaks hgt hb]
      refine splitScheme_of_isPrefix (congrArg Prod.fst hclean) hbefore fun d hd => ?_
      by_cases hqn : q.query = [] <;> by_cases hfn : q.fragment = [] <;>
        simp [optPart, hqn, hfn] at hd <;> subst hd <;> decide

theorem Parsed.urlparse_urlunparse {p : ParseResult} (h : Parsed p) (hs : p.scheme ≠ []) :
    urlparse (urlunparse p) = .ok p := by
  rw [Py.urlparse_urlunparse h.toShaped (.inl hs), h.check]
  rfl

end Py
end OpenBmc
