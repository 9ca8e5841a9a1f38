import OpenBmc.Py.JsonText

/-!
# Missing spaces in a JSON text

A text from which spaces are missing (`Thinned`) is read as before if they stood between tokens, and
as another value if one of them belonged to a string: the strings of what is read are shorter then
(`loads_thinned`).
-/

namespace OpenBmc
namespace Py

variable {l l' : List (Char × Bool)}

/-- Spaces are missing. -/
inductive Thinned : List (Char × Bool) → List (Char × Bool) → Prop
  | nil : Thinned [] []
  | keep {l l' : List (Char × Bool)} (e : Char × Bool) : Thinned l l' → Thinned (e :: l) (e :: l')
  | drop {l l' : List (Char × Bool)} (b : Bool) : Thinned l l' → Thinned ((' ', b) :: l) l'

theorem Thinned.refl (l : List (Char × Bool)) : Thinned l l := by
  induction l with
  | nil => exact .nil
  | cons e l ih => exact .keep e ih

theorem Thinned.append {a a' b b' : List (Char × Bool)} (ha : Thinned a a') (hb : Thinned b b') :
    Thinned (a ++ b) (a' ++ b') := by
  induction ha with
  | nil => exact hb
  | keep e _ ih => exact .keep e ih
  | drop c _ ih => exact .drop c ih

theorem Thinned.of_append {a b : List (Char × Bool)} (h : Thinned (a ++ b) l) :
    ∃ a' b', l = a' ++ b' ∧ Thinned a a' ∧ Thinned b b' := by
  induction a generalizing l with
  | nil => exact ⟨[], l, rfl, .nil, h⟩
  | cons e a ih =>
    cases h with
    | keep _ h =>
      obtain ⟨a', b', rfl, ha, hb⟩ := ih h
      exact ⟨e :: a', b', rfl, .keep e ha, hb⟩
    | drop c h =>
      obtain ⟨a', b', rfl, ha, hb⟩ := ih h
      exact ⟨a', b', rfl, .drop c ha, hb⟩

theorem Thinned.eq_of_no_space (h : Thinned l l') (hl : ∀ e ∈ l, e.1 ≠ ' ') : l' = l := by
  induction h with
  | nil => rfl
  | keep e _ ih => rw [ih fun e he => hl e (List.mem_cons_of_mem _ he)]
  | drop b => exact absurd rfl (hl (' ', b) List.mem_cons_self)

/-- The spaces of strings. -/
def stringSpaces (l : List (Char × Bool)) : Nat := l.count (' ', true)

theorem stringSpaces_append (a b : List (Char × Bool)) :
    stringSpaces (a ++ b) = stringSpaces a + stringSpaces b := List.count_append

theorem stringSpaces_of_no_space (hl : ∀ e ∈ l, e.1 ≠ ' ') : stringSpaces l = 0 :=
  List.count_eq_zero.2 fun h => hl _ h rfl

/-! ### The strings of tokens and values -/

namespace Token

def weight : Token → Nat
  | .str s => s.length
  | _ => 0

def isLit : Token → Bool
  | .lit _ => true
  | _ => false

def Valid : Token → Prop
  | .punct c => c ∈ ['{', '}', '[', ']', ',', ':']
  | .lit text => text ≠ [] ∧ ∀ c ∈ text, isLitChar c
  | .str _ => True

/-- The same token, or a string with spaces missing. -/
inductive Thins : Token → Token → Prop
  | refl (t : Token) : Thins t t
  | str {s s' : Str} : s'.Sublist s → Thins (.str s) (.str s')

theorem Thins.eq_of_weight {t t' : Token} (h : Thins t t') (hw : t'.weight = t.weight) : t' = t := by
  cases h with
  | refl => rfl
  | str h => rw [h.eq_of_length hw]

theorem Thins.weight_le {t t' : Token} (h : Thins t t') : t'.weight ≤ t.weight := by
  cases h with
  | refl => exact le_rfl
  | str h => exact h.length_le

end Token

def weights (ts : List Token) : Nat := (ts.map Token.weight).sum

theorem weights_le {ts ts' : List Token} (h : List.Forall₂ Token.Thins ts ts') :
    weights ts' ≤ weights ts := by
  induction h with
  | nil => exact le_rfl
  | cons ht _ ih =>
    have := ht.weight_le
    simp only [weights, List.map_cons, List.sum_cons] at ih ⊢
    omega

theorem eq_of_weights {ts ts' : List Token} (h : List.Forall₂ Token.Thins ts ts')
    (hw : weights ts' = weights ts) : ts' = ts := by
  induction h with
  | nil => rfl
  | cons ht hts ih =>
    have h₁ := ht.weight_le
    have h₂ := weights_le hts
    simp only [weights, List.map_cons, List.sum_cons] at hw h₂ ih
    rw [ht.eq_of_weight (by omega), ih (by omega)]

/-! ### Reading a text with spaces missing -/

theorem escapeChar_space : escapeChar ' ' = [' '] := by decide

theorem digitChar_mod_ne_space (n : Nat) : Nat.digitChar (n % 16) ≠ ' ' := by
  have hdigit : ∀ d < 16, Nat.digitChar d ≠ ' ' := by decide
  exact hdigit _ (Nat.mod_lt _ (by decide))

theorem not_mem_escapeChar {c : Char} (hc : c ≠ ' ') : ' ' ∉ escapeChar c := by
  have hescape : ∀ n, ' ' ∉ unicodeEscape n := by
    intro n
    simp only [unicodeEscape, hex4, List.mem_cons, List.not_mem_nil, or_false, not_or]
    exact ⟨by decide, by decide, (digitChar_mod_ne_space _).symm, (digitChar_mod_ne_space _).symm,
      (digitChar_mod_ne_space _).symm, (digitChar_mod_ne_space _).symm⟩
  unfold escapeChar
  split_ifs
  · decide
  · decide
  · decide
  · decide
  · decide
  · decide
  · decide
  · simpa using hc.symm
  · exact hescape _
  · rw [List.mem_append, not_or]
    exact ⟨hescape _, hescape _⟩

def markedStr (s : Str) : List (Char × Bool) := s.flatMap fun c => (escapeChar c).map fun d => (d, true)

theorem map_fst_markedStr (s : Str) : (markedStr s).map Prod.fst = s.flatMap escapeChar := by
  rw [markedStr, List.map_flatMap]
  congr 1
  funext c
  simp [Function.comp_def]

/-- A string with spaces missing is the text of a shorter string. -/
theorem thinned_markedStr {s : Str} (h : Thinned (markedStr s) l) :
    ∃ s' : Str, s'.Sublist s ∧ l.map Prod.fst = s'.flatMap escapeChar ∧
      s'.length + stringSpaces (markedStr s) = s.length + stringSpaces l := by
  induction s generalizing l with
  | nil =>
    cases h
    exact ⟨[], .refl _, rfl, rfl⟩
  | cons c s ih =>
    rw [markedStr, List.flatMap_cons, ← markedStr] at h ⊢
    obtain ⟨a, b, rfl, ha, hb⟩ := h.of_append
    obtain ⟨s', hs, hl, hlen⟩ := ih hb
    by_cases hc : c = ' '
    · subst hc
      rw [escapeChar_space] at ha ⊢
      have hone : stringSpaces [(' ', true)] = 1 := rfl
      have hnil : stringSpaces [] = 0 := rfl
      cases ha with
      | keep _ ha =>
        cases ha
        refine ⟨' ' :: s', hs.cons_cons _, ?_, ?_⟩
        · simp [hl, escapeChar_space]
        · simp only [stringSpaces_append, List.length_cons, List.map_cons, List.map_nil, hone]
          omega
      | drop _ ha =>
        cases ha
        refine ⟨s', hs.cons _, by simp [hl], ?_⟩
        simp only [stringSpaces_append, List.length_cons, List.map_cons, List.map_nil, hone, hnil]
        omega
    · have hne : ∀ e ∈ (escapeChar c).map fun d => (d, true), e.1 ≠ ' ' := by
        intro e he heq
        obtain ⟨d, hd, rfl⟩ := List.mem_map.1 he
        exact not_mem_escapeChar hc (heq ▸ hd)
      obtain rfl := ha.eq_of_no_space hne
      refine ⟨c :: s', hs.cons_cons _, by simp [hl, Function.comp_def], ?_⟩
      simp only [stringSpaces_append, List.length_cons]
      omega

/-! ### Reading a text with spaces missing, by tokens -/

theorem not_mem_of_isLitChar {text : Str} (h : ∀ c ∈ text, isLitChar c) : ' ' ∉ text :=
  fun hs => absurd (h ' ' hs) (by decide)

namespace Lexer

/-- A token that begins with `ts` may be read: no literal is open, or none comes. -/
def Opens (l : Lexer) (ts : List Token) : Prop :=
  l.mode = .ready ∨ (∃ text, l.mode = .lit text) ∧ ∀ t ∈ ts.head?, t.isLit = false

theorem step_of_opens {l : Lexer} {t : Token} {ts : List Token} {c : Char} (h : l.Opens (t :: ts))
    (hc : isLitChar c = false) : step l c = ready l.flush.tokens c := by
  obtain ⟨tokens, mode⟩ := l
  rcases h with h | ⟨⟨text, h⟩, -⟩
  · obtain rfl : mode = .ready := h
    rfl
  · obtain rfl : mode = .lit text := h
    simp [step, hc, flush]

theorem run_lit (tokens : List Token) (t text : Str) (h : ∀ c ∈ text, isLitChar c) :
    run ⟨tokens, .lit t⟩ text = some ⟨tokens, .lit (t ++ text)⟩ := by
  induction text generalizing t with
  | nil => simp
  | cons c text ih =>
    have hc := h c List.mem_cons_self
    rw [run_cons]
    simp only [step, hc, if_true, Option.bind_some]
    rw [ih _ fun d hd => h d (List.mem_cons_of_mem _ hd), List.append_assoc, List.singleton_append]

theorem ready_punct {c : Char} (hc : c ∈ ['{', '}', '[', ']', ',', ':']) (tokens : List Token) :
    isLitChar c = false ∧ c ≠ ' ' ∧ ready tokens c = some ⟨tokens ++ [.punct c], .ready⟩ := by
  simp only [List.mem_cons, List.not_mem_nil, or_false] at hc
  rcases hc with rfl | rfl | rfl | rfl | rfl | rfl <;> exact ⟨rfl, by decide, rfl⟩

theorem ready_lit {c : Char} (hc : isLitChar c) (tokens : List Token) :
    ready tokens c = some ⟨tokens, .lit [c]⟩ := by
  have hne : ∀ d, isLitChar d = false → c ≠ d := by
    rintro d hd rfl
    rw [hd] at hc
    cases hc
  have hpunct : c ∉ ['{', '}', '[', ']', ',', ':'] := by
    intro h
    rw [(ready_punct h []).1] at hc
    cases hc
  rw [ready, if_neg, if_neg hpunct, if_neg (hne _ rfl), if_pos hc]
  rintro (h | h | h | h)
  exacts [hne _ rfl h, hne _ rfl h, hne _ rfl h, hne _ rfl h]

/-- What is read of a token from whose text spaces are missing. -/
def Reads (l : Lexer) (t : Token) (text : List (Char × Bool)) : Prop :=
  ∃ t' l', t.Thins t' ∧ t'.weight + stringSpaces t.marked = t.weight + stringSpaces text ∧
    run l (text.map Prod.fst) = some l' ∧ l'.flush = ⟨l.flush.tokens ++ [t'], .ready⟩ ∧
    (l'.mode = .ready ∨ (∃ u, l'.mode = .lit u) ∧ t.isLit = true)

variable {l : Lexer} {ts : List Token} {text : List (Char × Bool)}

theorem thinned_punct {c : Char} (hc : c ≠ ' ') (h : Thinned (Token.punct c).marked text) :
    (text.map Prod.fst = [c] ∨ text.map Prod.fst = [c, ' ']) ∧
      stringSpaces (Token.punct c).marked = 0 ∧ stringSpaces text = 0 := by
  have hmarked : (Token.punct c).marked =
      if c = ',' ∨ c = ':' then [(c, false), (' ', false)] else [(c, false)] := rfl
  rw [hmarked] at h ⊢
  split at h
  · rename_i hsep
    rw [if_pos hsep]
    cases h with
    | keep _ h => cases h with
      | keep _ h =>
        cases h
        exact ⟨.inr rfl, by simp [stringSpaces], by simp [stringSpaces]⟩
      | drop _ h =>
        cases h
        exact ⟨.inl rfl, by simp [stringSpaces], by simp [stringSpaces]⟩
    | drop _ h => exact absurd rfl hc
  · rename_i hsep
    rw [if_neg hsep]
    cases h with
    | keep _ h =>
      cases h
      exact ⟨.inl rfl, by simp [stringSpaces], by simp [stringSpaces]⟩
    | drop _ h => exact absurd rfl hc

theorem reads_punct {c : Char} (hl : l.Opens (.punct c :: ts)) (hv : (Token.punct c).Valid)
    (h : Thinned (Token.punct c).marked text) : l.Reads (.punct c) text := by
  obtain ⟨hlit, hne, hready⟩ := ready_punct hv l.flush.tokens
  obtain ⟨htext, hcount, hcount'⟩ := thinned_punct hne h
  have hstep := (step_of_opens hl hlit).trans hready
  refine ⟨.punct c, ⟨l.flush.tokens ++ [.punct c], .ready⟩, .refl _, by rw [hcount, hcount'], ?_, rfl,
    .inl rfl⟩
  rcases htext with htext | htext
  · rw [htext, run_cons, hstep]
    rfl
  · rw [htext, run_cons, hstep]
    rfl

theorem reads_str {s : Str} (hl : l.Opens (.str s :: ts)) (h : Thinned (Token.str s).marked text) :
    l.Reads (.str s) text := by
  have hquote : step l '"' = some ⟨l.flush.tokens, .str []⟩ := step_of_opens hl (by decide)
  have hcount : ∀ m : List (Char × Bool),
      stringSpaces (('"', false) :: (m ++ [('"', false)])) = stringSpaces m := by
    intro m
    simp [stringSpaces, List.count_append]
  cases h with
  | keep _ h =>
    obtain ⟨a, b, rfl, ha, hb⟩ := h.of_append
    obtain ⟨s', hs, htext, hlen⟩ := thinned_markedStr ha
    cases hb with
    | keep _ hb =>
      cases hb
      refine ⟨.str s', ⟨l.flush.tokens ++ [.str s'], .ready⟩, .str hs, ?_, ?_, rfl, .inl rfl⟩
      · rw [hcount, Token.marked, hcount]
        exact hlen
      · rw [List.map_cons, List.map_append, htext, run_cons, hquote, Option.bind_some, run_append,
          run_flatMap_escapeChar]
        rfl

theorem reads_lit {u : Str} (hl : l.Opens (.lit u :: ts)) (hv : (Token.lit u).Valid)
    (h : Thinned (Token.lit u).marked text) : l.Reads (.lit u) text := by
  obtain ⟨hne, hchars⟩ := hv
  have hspace : ∀ e ∈ (Token.lit u).marked, e.1 ≠ ' ' := by
    intro e he heq
    obtain ⟨d, hd, rfl⟩ := List.mem_map.1 he
    exact not_mem_of_isLitChar hchars (heq ▸ hd)
  obtain rfl := h.eq_of_no_space hspace
  obtain ⟨tokens, mode⟩ := l
  rcases hl with hl | ⟨-, hl⟩
  · obtain rfl : mode = .ready := hl
    refine ⟨.lit u, ⟨tokens, .lit u⟩, .refl _, rfl, ?_, rfl, .inr ⟨⟨_, rfl⟩, rfl⟩⟩
    cases u with
    | nil => exact absurd rfl hne
    | cons c u =>
      have hstep : step ⟨tokens, .ready⟩ c = some ⟨tokens, .lit [c]⟩ :=
        ready_lit (hchars c List.mem_cons_self) tokens
      rw [Token.marked, List.map_map, Function.comp_def, List.map_id', run_cons, hstep,
        Option.bind_some, run_lit _ _ _ fun d hd => hchars d (List.mem_cons_of_mem _ hd)]
      rfl
  · cases hl _ rfl

theorem reads_thinned {t : Token} (hl : l.Opens (t :: ts)) (hv : t.Valid)
    (h : Thinned t.marked text) : l.Reads t text := by
  cases t with
  | punct c => exact reads_punct hl hv h
  | str s => exact reads_str hl h
  | lit u => exact reads_lit hl hv h

/-- Tokens from whose text spaces are missing are read as tokens with shorter strings. -/
theorem run_thinned (hv : ∀ t ∈ ts, t.Valid) (hchain : ts.IsChain fun a b => ¬ (a.isLit ∧ b.isLit))
    (hl : l.Opens ts) (h : Thinned (ts.flatMap Token.marked) text) :
    ∃ ts' l', List.Forall₂ Token.Thins ts ts' ∧
      weights ts' + stringSpaces (ts.flatMap Token.marked) = weights ts + stringSpaces text ∧
      run l (text.map Prod.fst) = some l' ∧ l'.flush = ⟨l.flush.tokens ++ ts', .ready⟩ := by
  induction ts generalizing l text with
  | nil =>
    cases h
    refine ⟨[], l, .nil, rfl, rfl, ?_⟩
    obtain ⟨tokens, mode⟩ := l
    rcases hl with hl | ⟨⟨u, hl⟩, -⟩
    · obtain rfl : mode = .ready := hl
      simp [flush]
    · obtain rfl : mode = .lit u := hl
      simp [flush]
  | cons t ts ih =>
    rw [List.flatMap_cons] at h ⊢
    obtain ⟨a, b, rfl, ha, hb⟩ := h.of_append
    obtain ⟨t', l', ht, hw, hrun, hflush, hmode⟩ := reads_thinned hl (hv t List.mem_cons_self) ha
    have hl' : l'.Opens ts := by
      rcases hmode with hmode | ⟨hmode, hlit⟩
      · exact .inl hmode
      · refine .inr ⟨hmode, fun t₂ ht₂ => ?_⟩
        cases ts with
        | nil => cases ht₂
        | cons t₃ ts =>
          obtain rfl := Option.some.inj ht₂
          simpa [hlit] using (List.isChain_cons_cons.1 hchain).1
    obtain ⟨ts', l'', hts, hws, hrun', hflush'⟩ := ih (fun t ht => hv t (List.mem_cons_of_mem _ ht))
      (List.IsChain.of_cons hchain) hl' hb
    refine ⟨t' :: ts', l'', .cons ht hts, ?_, ?_, ?_⟩
    · simp only [weights, List.map_cons, List.sum_cons, stringSpaces_append] at hws ⊢
      omega
    · rw [List.map_append, run_append, hrun, Option.bind_some, hrun']
    · rw [hflush', hflush, List.append_assoc, List.singleton_append]

end Lexer

/-! ### What is read has the strings of the tokens -/

theorem weights_append (a b : List Token) : weights (a ++ b) = weights a + weights b := by
  simp [weights]

theorem weights_cons (t : Token) (ts : List Token) : weights (t :: ts) = t.weight + weights ts := by
  simp [weights]

mutual
/-- The length of all strings of a value. -/
def Json.weight : Json → Nat
  | .str s => s.length
  | .arr elems => elemsWeight elems
  | .obj items => itemsWeight items
  | _ => 0
def elemsWeight : List Json → Nat
  | [] => 0
  | v :: vs => v.weight + elemsWeight vs
def itemsWeight : List (Str × Json) → Nat
  | [] => 0
  | (k, v) :: items => k.length + v.weight + itemsWeight items
end

mutual
theorem weights_tokens : ∀ v : Json, weights v.tokens = v.weight
  | .null | .bool true | .bool false | .int _ | .float _ | .arr [] | .obj [] => rfl
  | .str s => rfl
  | .arr (v :: vs) => by
    simp only [Json.tokens, weights_cons, weights_append, weights_tokens v, weights_tokensElems vs,
      Json.weight, elemsWeight, Token.weight]
    simp [weights]
  | .obj ((k, v) :: items) => by
    simp only [Json.tokens, weights_cons, weights_append, weights_tokens v, weights_tokensItems items,
      Json.weight, itemsWeight, Token.weight]
    simp [weights]
    omega
theorem weights_tokensElems : ∀ vs : List Json, weights (Json.tokensElems vs) = elemsWeight vs
  | [] => rfl
  | v :: vs => by
    simp only [Json.tokensElems, weights_cons, weights_append, weights_tokens v,
      weights_tokensElems vs, elemsWeight, Token.weight]
    omega
theorem weights_tokensItems : ∀ items : List (Str × Json),
    weights (Json.tokensItems items) = itemsWeight items
  | [] => rfl
  | (k, v) :: items => by
    simp only [Json.tokensItems, weights_cons, weights_append, weights_tokens v,
      weights_tokensItems items, itemsWeight, Token.weight]
    omega
end

theorem elemsWeight_concat (vs : List Json) (v : Json) :
    elemsWeight (vs ++ [v]) = elemsWeight vs + v.weight := by
  induction vs with
  | nil => simp [elemsWeight]
  | cons w vs ih =>
    simp only [List.cons_append, elemsWeight, ih]
    omega

theorem itemsWeight_setEntries (k : Str) (v : Json) (items : List (Str × Json)) :
    itemsWeight (Dict.setEntries k v items) ≤ itemsWeight items + k.length + v.weight := by
  induction items with
  | nil => simp [Dict.setEntries, itemsWeight]
  | cons e items ih =>
    rw [Dict.setEntries]
    split
    · simp only [itemsWeight]
      omega
    · simp only [itemsWeight]
      omega

namespace Parser

def frameWeight : Frame → Nat
  | .arr elems => elemsWeight elems
  | .obj items key => itemsWeight items + (key.getD []).length

def stackWeight (st : List Frame) : Nat := (st.map frameWeight).sum

def expectWeight : Expect → Nat
  | .done v => v.weight
  | _ => 0

def weight (p : Parser) : Nat := stackWeight p.stack + expectWeight p.expect

variable {p p' : Parser} {st : List Frame} {v : Json} {t : Token}

theorem stackWeight_cons (f : Frame) : stackWeight (f :: st) = frameWeight f + stackWeight st := by
  simp [stackWeight]

theorem weight_accept (h : accept st v = some p) : p.weight ≤ stackWeight st + v.weight := by
  unfold accept at h
  split at h
  · obtain rfl := Option.some.inj h
    simp [weight, expectWeight]
  · obtain rfl := Option.some.inj h
    simp only [weight, expectWeight, stackWeight_cons, frameWeight, elemsWeight_concat]
    omega
  · rename_i items k st
    obtain rfl := Option.some.inj h
    have := itemsWeight_setEntries k v items
    simp only [weight, expectWeight, stackWeight_cons, frameWeight, Option.getD_none, Option.getD_some,
      List.length_nil]
    omega
  · cases h

theorem weight_close {c : Char} (h : close st c = some p) : p.weight ≤ stackWeight st := by
  unfold close at h
  split at h
  · split at h
    · have := weight_accept h
      simpa [stackWeight_cons, frameWeight, Json.weight, Nat.add_comm] using this
    · cases h
  · split at h
    · have := weight_accept h
      simpa [stackWeight_cons, frameWeight, Json.weight, Nat.add_comm] using this
    · cases h
  · cases h

variable [FloatData]

theorem weight_literal? {text : Str} (h : literal? text = some v) : v.weight = 0 := by
  unfold literal? number? at h
  dsimp only at h
  split_ifs at h <;>
  · obtain rfl := Option.some.inj h
    rfl

theorem weight_value (h : value st t = some p) : p.weight ≤ stackWeight st + t.weight := by
  cases t with
  | lit text =>
    obtain ⟨v, hv, h⟩ := Option.bind_eq_some_iff.1 h
    have := weight_accept h
    rw [weight_literal? hv] at this
    exact this
  | str s => exact weight_accept h
  | punct c =>
    simp only [value] at h
    split_ifs at h
    · obtain rfl := Option.some.inj h
      simp [weight, expectWeight, stackWeight_cons, frameWeight, elemsWeight, Token.weight]
    · obtain rfl := Option.some.inj h
      simp [weight, expectWeight, stackWeight_cons, frameWeight, itemsWeight, Token.weight]

omit [FloatData] in
theorem weight_key (h : key st t = some p) : p.weight ≤ stackWeight st + t.weight := by
  unfold key at h
  split at h
  · split at h
    · obtain rfl := Option.some.inj h
      simp only [weight, expectWeight, stackWeight_cons, frameWeight, Option.getD_none,
        Option.getD_some, List.length_nil, Token.weight]
      omega
    · cases h
  · cases h

theorem weight_step (h : step p t = some p') : p'.weight ≤ p.weight + t.weight := by
  obtain ⟨st, e⟩ := p
  unfold step at h
  cases e with
  | value => exact (weight_value h).trans (by simp [weight, expectWeight])
  | elemOrEnd =>
    dsimp only at h
    split at h
    · exact (weight_close h).trans (by simp [weight, expectWeight])
    · exact (weight_value h).trans (by simp [weight, expectWeight])
  | keyOrEnd =>
    dsimp only at h
    split at h
    · exact (weight_close h).trans (by simp [weight, expectWeight])
    · exact (weight_key h).trans (by simp [weight, expectWeight])
  | key => exact (weight_key h).trans (by simp [weight, expectWeight])
  | colon =>
    dsimp only at h
    split at h
    · obtain rfl := Option.some.inj h
      simp [weight, expectWeight]
    · cases h
  | next =>
    dsimp only at h
    split at h
    · unfold next at h
      split at h
      · split at h
        · obtain rfl := Option.some.inj h
          simp [weight, expectWeight]
        · obtain rfl := Option.some.inj h
          simp [weight, expectWeight]
        · cases h
      · exact (weight_close h).trans (by simp [weight, expectWeight])
    · cases h
  | done => cases h

theorem weight_run {ts : List Token} (h : run p ts = some p') : p'.weight ≤ p.weight + weights ts := by
  induction ts generalizing p with
  | nil =>
    obtain rfl := Option.some.inj h
    simp [weights]
  | cons t ts ih =>
    rw [run_cons] at h
    obtain ⟨q, hq, h⟩ := Option.bind_eq_some_iff.1 h
    have h₁ := weight_step hq
    have h₂ := ih h
    rw [weights_cons]
    omega

/-- After a literal no literal can be read. -/
theorem isChain_of_run {ts : List Token} (h : run p ts = some p') :
    ts.IsChain fun a b => ¬ (a.isLit ∧ b.isLit) := by
  have hvalue : ∀ {st : List Frame} {u : Str} {q : Parser}, value st (.lit u) = some q →
      q.expect = .next ∨ ∃ v, q.expect = .done v := by
    intro st u q hq
    obtain ⟨v, -, hq⟩ := Option.bind_eq_some_iff.1 hq
    unfold accept at hq
    split at hq
    · obtain rfl := Option.some.inj hq
      exact .inr ⟨v, rfl⟩
    · obtain rfl := Option.some.inj hq
      exact .inl rfl
    · obtain rfl := Option.some.inj hq
      exact .inl rfl
    · cases hq
  have hlit : ∀ {p q : Parser} {u : Str}, step p (.lit u) = some q →
      q.expect = .next ∨ ∃ v, q.expect = .done v := by
    intro p q u hq
    obtain ⟨st, e⟩ := p
    cases e with
    | value => exact hvalue hq
    | elemOrEnd => exact hvalue hq
    | keyOrEnd => cases hq
    | key => cases hq
    | colon => cases hq
    | next => cases hq
    | done => cases hq
  induction ts generalizing p with
  | nil => exact .nil
  | cons t ts ih =>
    rw [run_cons] at h
    obtain ⟨q, hq, hrun⟩ := Option.bind_eq_some_iff.1 h
    cases ts with
    | nil => exact .singleton t
    | cons t₂ ts =>
      refine List.isChain_cons_cons.2 ⟨?_, ih hrun⟩
      rintro ⟨h₁, h₂⟩
      cases t with
      | lit u =>
        cases t₂ with
        | lit u₂ =>
          rw [run_cons] at hrun
          obtain ⟨q₂, hq₂, -⟩ := Option.bind_eq_some_iff.1 hrun
          obtain ⟨st, e⟩ := q
          rcases hlit hq with he | ⟨v, he⟩
          · obtain rfl : e = .next := he
            cases hq₂
          · obtain rfl : e = .done v := he
            cases hq₂
        | punct => cases h₂
        | str => cases h₂
      | punct => cases h₁
      | str => cases h₁

end Parser

/-! ### The characters of a text -/

/-- A printable ASCII character. -/
def IsText (c : Char) : Prop := 32 ≤ c.toNat ∧ c.toNat < 127

theorem isText_digitChar (n : Nat) : IsText (Nat.digitChar (n % 16)) := by
  have hdigit : ∀ d < 16, 32 ≤ (Nat.digitChar d).toNat ∧ (Nat.digitChar d).toNat < 127 := by decide
  exact hdigit _ (Nat.mod_lt _ (by decide))

theorem isText_escapeChar {c d : Char} (hd : d ∈ escapeChar c) : IsText d := by
  have hpair : ∀ e, IsText e → d ∈ ['\\', e] → IsText d := by
    intro e he hd
    rcases List.mem_cons.1 hd with rfl | hd
    · exact ⟨by decide, by decide⟩
    · rwa [List.mem_singleton.1 hd]
  have hescape : ∀ n, d ∈ unicodeEscape n → IsText d := by
    intro n hd
    simp only [unicodeEscape, hex4, List.mem_cons, List.not_mem_nil, or_false] at hd
    rcases hd with rfl | rfl | rfl | rfl | rfl | rfl
    · exact ⟨by decide, by decide⟩
    · exact ⟨by decide, by decide⟩
    all_goals exact isText_digitChar _
  unfold escapeChar at hd
  split_ifs at hd with h₁ h₂ h₃ h₄ h₅ h₆ h₇ h₈ h₉
  · exact hpair _ ⟨by decide, by decide⟩ hd
  · exact hpair _ ⟨by decide, by decide⟩ hd
  · exact hpair _ ⟨by decide, by decide⟩ hd
  · exact hpair _ ⟨by decide, by decide⟩ hd
  · exact hpair _ ⟨by decide, by decide⟩ hd
  · exact hpair _ ⟨by decide, by decide⟩ hd
  · exact hpair _ ⟨by decide, by decide⟩ hd
  · rwa [List.mem_singleton.1 hd]
  · exact hescape _ hd
  · rcases List.mem_append.1 hd with hd | hd
    · exact hescape _ hd
    · exact hescape _ hd

theorem isText_of_isLitChar {c : Char} (h : isLitChar c = true) : IsText c := by
  simp only [isLitChar, Char.isAlphanum, Char.isAlpha, Bool.or_eq_true, decide_eq_true_eq] at h
  rcases h with ((((h | h) | h) | rfl) | rfl) | rfl
  · have := isUpper_iff.1 h
    exact ⟨by omega, by omega⟩
  · have := isLower_iff.1 h
    exact ⟨by omega, by omega⟩
  · have := isDigit_iff.1 h
    exact ⟨by omega, by omega⟩
  · exact ⟨by decide, by decide⟩
  · exact ⟨by decide, by decide⟩
  · exact ⟨by decide, by decide⟩

theorem isText_token {t : Token} (hv : t.Valid) : ∀ e ∈ t.marked, IsText e.1 := by
  intro e he
  cases t with
  | punct c =>
    have hc : IsText c := by
      have hv : c ∈ ['{', '}', '[', ']', ',', ':'] := hv
      simp only [List.mem_cons, List.not_mem_nil, or_false] at hv
      rcases hv with rfl | rfl | rfl | rfl | rfl | rfl <;> exact ⟨by decide, by decide⟩
    have he : e = (c, false) ∨ e = (' ', false) := by
      have hm : e ∈ if c = ',' ∨ c = ':' then [(c, false), (' ', false)] else [(c, false)] := he
      split at hm
      · simpa using hm
      · exact .inl (List.mem_singleton.1 hm)
    rcases he with rfl | rfl
    · exact hc
    · exact ⟨by decide, by decide⟩
  | str s =>
    rcases List.mem_cons.1 he with rfl | he
    · exact ⟨by decide, by decide⟩
    · rcases List.mem_append.1 he with he | he
      · obtain ⟨c, -, he⟩ := List.mem_flatMap.1 he
        obtain ⟨d, hd, rfl⟩ := List.mem_map.1 he
        exact isText_escapeChar hd
      · obtain rfl := List.mem_singleton.1 he
        exact ⟨by decide, by decide⟩
  | lit text =>
    obtain ⟨c, hc, rfl⟩ := List.mem_map.1 he
    exact isText_of_isLitChar (hv.2 c hc)

/-- No space stands before a space that is of no string. -/
def Single (l : List (Char × Bool)) : Prop := l.IsChain fun a b => b = (' ', false) → a.1 ≠ ' '

theorem single_of_forall {l : List (Char × Bool)} (h : ∀ e ∈ l, e ≠ (' ', false)) : Single l := by
  induction l with
  | nil => exact .nil
  | cons e l ih =>
    refine (ih fun e he => h e (List.mem_cons_of_mem _ he)).cons fun y hy he => ?_
    exact absurd he (h y (List.mem_cons_of_mem _ (List.mem_of_head? hy)))

theorem single_token {t : Token} (hv : t.Valid) :
    Single t.marked ∧ ∀ e ∈ t.marked.head?, e ≠ (' ', false) := by
  cases t with
  | punct c =>
    have hne : c ≠ ' ' := (Lexer.ready_punct hv []).2.1
    have hmarked : (Token.punct c).marked =
        if c = ',' ∨ c = ':' then [(c, false), (' ', false)] else [(c, false)] := rfl
    rw [hmarked]
    split
    · exact ⟨List.isChain_pair.2 fun _ => hne, by simpa using hne⟩
    · exact ⟨.singleton _, by simpa using hne⟩
  | str s =>
    refine ⟨single_of_forall fun e he heq => ?_, by simp [Token.marked]⟩
    rcases List.mem_cons.1 he with rfl | he
    · cases heq
    · rcases List.mem_append.1 he with he | he
      · obtain ⟨c, -, he⟩ := List.mem_flatMap.1 he
        obtain ⟨d, hd, rfl⟩ := List.mem_map.1 he
        cases heq
      · obtain rfl := List.mem_singleton.1 he
        cases heq
  | lit text =>
    have hall : ∀ e ∈ (Token.lit text).marked, e ≠ (' ', false) := by
      rintro e he rfl
      obtain ⟨c, hc, he⟩ := List.mem_map.1 he
      obtain ⟨rfl, -⟩ := Prod.mk.inj he
      exact not_mem_of_isLitChar hv.2 hc
    exact ⟨single_of_forall hall, fun e he => hall e (List.mem_of_head? he)⟩

theorem single_tokens {ts : List Token} (hv : ∀ t ∈ ts, t.Valid) :
    Single (ts.flatMap Token.marked) ∧ ∀ e ∈ (ts.flatMap Token.marked).head?, e ≠ (' ', false) := by
  induction ts with
  | nil => exact ⟨.nil, by simp⟩
  | cons t ts ih =>
    obtain ⟨ht, hhead⟩ := single_token (hv t List.mem_cons_self)
    obtain ⟨hts, hhead'⟩ := ih fun t ht => hv t (List.mem_cons_of_mem _ ht)
    rw [List.flatMap_cons]
    refine ⟨ht.append hts fun x _ y hy he => absurd he (hhead' y hy), fun e he => ?_⟩
    rw [List.head?_append] at he
    cases hh : t.marked.head? with
    | none =>
      rw [hh] at he
      exact hhead' e he
    | some d =>
      rw [hh] at he hhead
      exact hhead e he

theorem isLitChar_intStr {i : Int} {c : Char} (hc : c ∈ intStr i) : isLitChar c = true := by
  have hdigit : ∀ {c : Char}, c.isDigit → isLitChar c = true := by
    intro c hc
    simp [isLitChar, Char.isAlphanum, hc]
  cases i with
  | ofNat n => exact hdigit (isDigit_of_mem_natStr hc)
  | negSucc n =>
    rcases List.mem_cons.1 hc with rfl | hc
    · rfl
    · exact hdigit (isDigit_of_mem_natStr hc)

theorem intStr_ne_nil (i : Int) : intStr i ≠ [] := by
  cases i with
  | ofNat n => exact natStr_ne_nil n
  | negSucc n => exact List.cons_ne_nil _ _

section Loads
variable [FloatData]

theorem weight_parse {ts : List Token} {v : Json} (h : parse ts = some v) : v.weight ≤ weights ts := by
  obtain ⟨p, hp, h⟩ := Option.bind_eq_some_iff.1 h
  have hw := Parser.weight_run hp
  obtain ⟨st, e⟩ := p
  cases e with
  | done w =>
    obtain rfl := Option.some.inj h
    simp only [Parser.weight, Parser.expectWeight, Parser.stackWeight, List.map_nil, List.sum_nil] at hw
    omega
  | _ => cases h

theorem isChain_tokens {v : Json} (h : v.Valid) : v.tokens.IsChain fun a b => ¬ (a.isLit ∧ b.isLit) := by
  have hrun := Parser.run_tokens v [] [] h
  rw [List.append_nil] at hrun
  exact Parser.isChain_of_run hrun

mutual
theorem valid_tokens : ∀ v : Json, v.Valid → ∀ t ∈ v.tokens, t.Valid
  | .null, _ | .bool true, _ | .bool false, _ => by
    intro t ht
    obtain rfl := List.mem_singleton.1 ht
    exact ⟨by decide, by simp [isLitChar]⟩
  | .int i, _ => by
    intro t ht
    obtain rfl := List.mem_singleton.1 ht
    exact ⟨intStr_ne_nil i, fun c hc => isLitChar_intStr hc⟩
  | .float r, h => by
    intro t ht
    rw [Json.Valid] at h
    obtain rfl := List.mem_singleton.1 ht
    exact ⟨h.1, h.2.1⟩
  | .str s, _ => by
    intro t ht
    obtain rfl := List.mem_singleton.1 ht
    trivial
  | .arr [], _ | .obj [], _ => by
    simp [Json.tokens, Token.Valid]
  | .arr (v :: vs), h => by
    rw [Json.Valid, ElemsValid] at h
    simp only [Json.tokens, List.forall_mem_cons, List.forall_mem_append]
    exact ⟨by simp [Token.Valid], valid_tokens v h.1, valid_tokensElems vs h.2, by simp [Token.Valid],
      by simp⟩
  | .obj ((k, v) :: items), h => by
    rw [Json.Valid, ItemsValid] at h
    simp only [Json.tokens, List.forall_mem_cons, List.forall_mem_append]
    exact ⟨by simp [Token.Valid], trivial, by simp [Token.Valid], valid_tokens v h.2.1,
      valid_tokensItems items h.2.2, by simp [Token.Valid], by simp⟩
theorem valid_tokensElems : ∀ vs : List Json, ElemsValid vs → ∀ t ∈ Json.tokensElems vs, t.Valid
  | [], _ => by simp [Json.tokensElems]
  | v :: vs, h => by
    rw [ElemsValid] at h
    simp only [Json.tokensElems, List.forall_mem_cons, List.forall_mem_append]
    exact ⟨by simp [Token.Valid], valid_tokens v h.1, valid_tokensElems vs h.2⟩
theorem valid_tokensItems : ∀ items : List (Str × Json), ItemsValid items →
    ∀ t ∈ Json.tokensItems items, t.Valid
  | [], _ => by simp [Json.tokensItems]
  | (k, v) :: items, h => by
    rw [ItemsValid] at h
    simp only [Json.tokensItems, List.forall_mem_cons, List.forall_mem_append]
    exact ⟨by simp [Token.Valid], trivial, by simp [Token.Valid], valid_tokens v h.1,
      valid_tokensItems items h.2⟩
end

/-- Where spaces are missing, the same value is read if and only if none of them was of a string. -/
theorem loads_thinned {v : Json} {text : List (Char × Bool)} (hv : v.Valid)
    (h : Thinned v.marked text) :
    loads (text.map Prod.fst) = some v ↔ stringSpaces text = stringSpaces v.marked := by
  obtain ⟨ts, l, hthins, hw, hrun, hflush⟩ := Lexer.run_thinned (l := ⟨[], .ready⟩)
    (valid_tokens v hv) (isChain_tokens hv) (.inl rfl) h
  have hloads : loads (text.map Prod.fst) = parse ts := by
    rw [loads, lex, hrun, Option.map_some, hflush]
    rfl
  rw [hloads]
  have hw : weights ts + stringSpaces v.marked = weights v.tokens + stringSpaces text := hw
  constructor
  · intro hp
    have hle := weight_parse hp
    have hge := weights_le hthins
    rw [← weights_tokens] at hle
    omega
  · intro hs
    rw [eq_of_weights hthins (by omega), parse_tokens hv]

/-- What is written is read back. -/
theorem loads_dumps {v : Json} (hv : v.Valid) : loads v.dumps = some v :=
  (loads_thinned hv (.refl _)).2 rfl

end Loads

end Py
end OpenBmc
