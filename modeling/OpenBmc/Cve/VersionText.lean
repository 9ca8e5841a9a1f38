import OpenBmc.Cve.Version

/-!
# What is read of a version

The groups of the expressions on the texts of the forms, one lemma for a group: behind the digits
stands a text that begins with a letter or with a separator and a letter, which ends them.
-/

namespace OpenBmc
namespace Cve
open Py

/-! ### Characters -/

theorem fold_of_isDigit {c : Char} (h : c.isDigit) : fold c = c := by
  have hd := isDigit_iff.1 h
  have hup : ¬ c.isUpper := fun hu => by
    have := isUpper_iff.1 hu
    omega
  rw [fold, if_neg (by omega), if_neg (by omega), if_neg (by omega), toLower_of_not_isUpper hup]

/-- What begins a word: no digit, no separator. -/
theorem not_isDigit_of_fold {c : Char} (h : (fold c).isLower) : ¬ c.isDigit := fun hd => by
  rw [fold_of_isDigit hd] at h
  have h1 := isLower_iff.1 h
  have h2 := isDigit_iff.1 hd
  omega

theorem ne_sep_of_fold {c : Char} (h : (fold c).isLower) : ¬ (c = '-' ∨ c = '_' ∨ c = '.') := by
  rintro (rfl | rfl | rfl) <;> exact absurd h (by decide)

theorem fold_isLower_of_isAlpha {c : Char} (h : c.isAlpha) : (fold c).isLower := by
  rw [Char.isAlpha, Bool.or_eq_true] at h
  have hrange : c.toNat < 0x130 := by
    rcases h with h | h
    · have := isUpper_iff.1 h
      omega
    · have := isLower_iff.1 h
      omega
  rw [fold, if_neg (by omega), if_neg (by omega), if_neg (by omega)]
  rcases h with h | h
  · exact isLower_toLower h
  · have hup : ¬ c.isUpper := fun hu => by
      have h1 := isUpper_iff.1 hu
      have h2 := isLower_iff.1 h
      omega
    rw [toLower_of_not_isUpper hup]
    exact h

/-! ### Texts between the parts -/

/-- A text that begins with a letter, or with a separator and a letter. -/
def Worded (s : Str) : Prop :=
  s = [] ∨ ∃ sep c t, s = sepText sep ++ c :: t ∧ (fold c).isLower

theorem skipSep_sepText (sep : Option Sep) {c : Char} (h : ¬ (c = '-' ∨ c = '_' ∨ c = '.')) (s : Str) :
    skipSep (sepText sep ++ c :: s) = c :: s := by
  rcases sep with _ | sep
  · exact if_neg h
  · cases sep <;> rfl

theorem skipSep_word (sep : Option Sep) {c : Char} (h : (fold c).isLower) (s : Str) :
    skipSep (sepText sep ++ c :: s) = c :: s := skipSep_sepText sep (ne_sep_of_fold h) s

/-- The head of such a text is no digit. -/
theorem Worded.head {s : Str} (h : Worded s) : ∀ c ∈ s.head?, ¬ c.isDigit := by
  rintro c hc
  rcases h with rfl | ⟨sep, d, t, rfl, hd⟩
  · cases hc
  · rcases sep with _ | sep
    · cases hc
      exact not_isDigit_of_fold hd
    · cases hc
      cases sep <;> decide

theorem takeWhile_eq_nil {s : Str} (h : ∀ c ∈ s.head?, ¬ c.isDigit) :
    s.takeWhile Char.isDigit = [] := by
  cases s with
  | nil => rfl
  | cons c s => exact List.takeWhile_cons_of_neg (h c rfl)

theorem takeWhile_digits (n : Digits) {s : Str} (h : ∀ c ∈ s.head?, ¬ c.isDigit) :
    (n.1 ++ s).takeWhile Char.isDigit = n.1 := by
  rw [List.takeWhile_append_of_pos n.2.2, takeWhile_eq_nil h, List.append_nil]

theorem dropWhile_digits (n : Digits) {s : Str} (h : ∀ c ∈ s.head?, ¬ c.isDigit) :
    (n.1 ++ s).dropWhile Char.isDigit = s := by
  have hsplit := List.takeWhile_append_dropWhile (p := Char.isDigit) (l := n.1 ++ s)
  rw [takeWhile_digits n h] at hsplit
  exact List.append_cancel_left hsplit

theorem digits_append (n : Digits) {s : Str} (h : ∀ c ∈ s.head?, ¬ c.isDigit) :
    digits (n.1 ++ s) = some (n.1, s) := by
  rw [digits, takeWhile_digits n h, dropWhile_digits n h, if_neg n.2.1]

theorem digits_eq_none {s : Str} (h : ∀ c ∈ s.head?, ¬ c.isDigit) : digits s = none :=
  if_pos (takeWhile_eq_nil h)

/-- The first digit of a number. -/
theorem exists_digit (n : Digits) : ∃ c t, n.1 = c :: t ∧ c.isDigit := by
  obtain ⟨c, t, h⟩ := List.exists_cons_of_ne_nil n.2.1
  exact ⟨c, t, h, n.2.2 c (h ▸ List.mem_cons_self ..)⟩

theorem not_sep_of_isDigit {c : Char} (h : c.isDigit) : ¬ (c = '-' ∨ c = '_' ∨ c = '.') := by
  rintro (rfl | rfl | rfl) <;> exact absurd h (by decide)

/-! ### The release -/

theorem components_worded {s : Str} (h : Worded s) (fuel : ℕ) : components fuel s = ([], s) := by
  cases fuel with
  | zero => rfl
  | succ fuel =>
    rcases h with rfl | ⟨sep, c, t, rfl, hc⟩
    · rfl
    · have hnone : (c :: t).takeWhile Char.isDigit = [] :=
        List.takeWhile_cons_of_neg (not_isDigit_of_fold hc)
      rcases sep with _ | sep
      · exact if_neg fun hsep => ne_sep_of_fold hc (hsep.1.imp_right .inr)
      · exact if_neg fun hsep => hsep.2 hnone

theorem head_components {rest : List (Joint × Digits)} {s : Str} (h : Worded s) :
    ∀ c ∈ ((rest.flatMap fun c => c.1.char :: c.2.1) ++ s).head?, ¬ c.isDigit := by
  cases rest with
  | nil => exact h.head
  | cons c rest =>
    rintro d hd
    cases hd
    cases c.1 <;> decide

theorem components_append {s : Str} (h : Worded s) (rest : List (Joint × Digits)) {fuel : ℕ}
    (hfuel : rest.length ≤ fuel) :
    components fuel ((rest.flatMap fun c => c.1.char :: c.2.1) ++ s) =
      (rest.map fun c => c.2.1, s) := by
  induction rest generalizing fuel with
  | nil => exact components_worded h fuel
  | cons c rest ih =>
    obtain ⟨fuel, rfl⟩ : ∃ k, fuel = k + 1 := ⟨fuel - 1, by rw [List.length_cons] at hfuel; omega⟩
    have hle : rest.length ≤ fuel := by rw [List.length_cons] at hfuel; omega
    have hrest := ih hle
    have hhead : ∀ c ∈ ((rest.flatMap fun c => c.1.char :: c.2.1) ++ s).head?, ¬ c.isDigit :=
      head_components h
    have htake := takeWhile_digits c.2 hhead
    have hdrop := dropWhile_digits c.2 hhead
    have hjoint : c.1.char = '-' ∨ c.1.char = '.' := by cases c.1 <;> simp [Joint.char]
    rw [List.flatMap_cons, List.append_assoc, List.cons_append, components, htake, hdrop, hrest,
      if_pos ⟨hjoint, c.2.2.1⟩]
    rfl

/-! ### Words -/

theorem lit_append {t w : Str} (h : t.map fold = w) (r : Str) : lit w (t ++ r) = some r := by
  have hlen : w.length = t.length := by rw [← h, List.length_map]
  rw [lit, hlen, List.take_left, List.drop_left, if_pos h]

theorem lit_of_ne {a c : Char} (h : fold c ≠ a) (w s : Str) : lit (a :: w) (c :: s) = none :=
  if_neg fun heq => h (List.cons.inj heq).1

theorem lit_nil (a : Char) (w : Str) : lit (a :: w) [] = none := if_neg (by simp)

theorem Stage.exists_word (stage : Stage) : ∃ a w, stage.word = a :: w ∧ a.isLower := by
  cases stage <;> exact ⟨_, _, rfl, by decide⟩

/-- Of the words of the expression the first letters tell which one a stage is. -/
theorem Stage.eq_word_of_head (stage : Stage) : ∀ w ∈ stages, w.head? = stage.word.head? →
    w = stage.word := by
  cases stage <;> decide

theorem exists_cons_of_mem_stages : ∀ w ∈ stages, ∃ a v, w = a :: v := by
  intro w hw
  have hne : ∀ w ∈ stages, w ≠ [] := by decide
  exact List.exists_cons_of_ne_nil (hne w hw)

/-- The word of a pre-release is a letter and more letters. -/
theorem Pre.exists_word (p : Pre) : ∃ c t, p.word = c :: t ∧ (fold c).isLower ∧
    p.stage.word = fold c :: t.map fold := by
  obtain ⟨a, w, hword, ha⟩ := p.stage.exists_word
  cases hp : p.word with
  | nil =>
    have hnil := p.word_eq
    rw [hp, hword] at hnil
    cases hnil
  | cons c t =>
    have hcons := p.word_eq
    rw [hp] at hcons
    have hc : fold c = a := by rw [hword] at hcons; exact (List.cons.inj hcons).1
    exact ⟨c, t, rfl, hc ▸ ha, hcons.symm⟩

theorem findSome?_of_unique {α β : Type*} {l : List α} {f : α → Option β} {a : α} {b : β}
    (ha : a ∈ l) (hb : f a = some b) (h : ∀ x ∈ l, x ≠ a → f x = none) : l.findSome? f = some b := by
  obtain ⟨c, hc⟩ := Option.isSome_iff_exists.1
    (List.findSome?_isSome_iff (f := f).2 ⟨a, ha, by rw [hb]; rfl⟩)
  obtain ⟨x, hx, hfx⟩ := List.exists_of_findSome?_eq_some hc
  by_cases hxa : x = a
  · rw [hc, ← hfx, hxa, hb]
  · rw [h x hx hxa] at hfx
    cases hfx

theorem Stage.mem_stages (stage : Stage) : stage.word ∈ stages := by cases stage <;> decide

theorem digits_numberText (n : Option (Option Sep × Digits)) :
    digits (skipSep (numberText n)) = n.map fun n => (n.2.1, []) := by
  rcases n with _ | ⟨sep, n⟩
  · rfl
  · obtain ⟨c, t, hn, hc⟩ := exists_digit n
    rw [numberText, hn, skipSep_sepText sep (not_sep_of_isDigit hc), ← hn, ← List.append_nil n.1,
      digits_append n (by simp)]
    simp

theorem skipSep_numberText_none : skipSep (numberText none) = [] := rfl

/-- The group reads a pre-release as it is. -/
theorem preGroup_text (p : Pre) :
    preGroup p.text = some (p.word, p.number.map fun n => n.2.1, []) := by
  obtain ⟨c, t, hw, hc, hstage⟩ := p.exists_word
  have hskip : skipSep p.text = p.word ++ numberText p.number := by
    rw [Pre.text, hw]
    exact skipSep_word p.sep hc _
  have hlen : p.stage.word.length = p.word.length := by rw [← p.word_eq, List.length_map]
  rw [preGroup, hskip]
  refine findSome?_of_unique p.stage.mem_stages ?_ fun w hmem hne => ?_
  · rw [lit_append p.word_eq, Option.map_some, digits_numberText, hlen, List.take_left]
    cases p.number <;> rfl
  · obtain ⟨a, v, rfl⟩ := exists_cons_of_mem_stages w hmem
    have ha : fold c ≠ a := fun ha => hne (p.stage.eq_word_of_head _ hmem (by rw [hstage, ha]; rfl))
    rw [hw, List.cons_append, lit_of_ne ha]
    rfl

/-- What is left of a word without its first letter is no pre-release. -/
theorem preGroup_tail {p : Pre} {c : Char} {t : Str} (hw : p.word = c :: t) :
    preGroup (t ++ numberText p.number) = none := by
  obtain ⟨c', t', hw', -, hstage⟩ := p.exists_word
  rw [hw] at hw'
  obtain ⟨rfl, rfl⟩ := List.cons.inj hw'
  obtain ⟨d, u, rfl⟩ : ∃ d u, t = d :: u := by
    cases t with
    | nil =>
      have hlen := congrArg List.length hstage
      have htwo : 2 ≤ p.stage.word.length := by cases p.stage <;> decide
      rw [hlen] at htwo
      exact absurd htwo (by simp)
    | cons d u => exact ⟨d, u, rfl⟩
  have hsecond : fold d = (p.stage.word.tail).headD 'x' := by rw [hstage]; rfl
  have hlower : (fold d).isLower := by
    rw [hsecond]
    cases p.stage <;> decide
  have hskip : skipSep (d :: u ++ numberText p.number) = d :: (u ++ numberText p.number) :=
    skipSep_word none hlower _
  rw [preGroup, hskip, List.findSome?_eq_none_iff]
  intro w hmem
  obtain ⟨a, v, rfl⟩ := exists_cons_of_mem_stages w hmem
  have ha : ∀ w ∈ stages, ∀ stage : Stage, w.headD 'x' ≠ stage.word.tail.headD 'x' := by
    intro w hw stage
    revert w
    cases stage <;> decide
  rw [lit_of_ne fun hd => ha _ hmem p.stage (by rw [← hsecond, hd]; rfl)]
  rfl

/-! ### Parts behind the release -/

theorem worded_preText (pre : Option Pre) : Worded (preText pre) := by
  cases pre with
  | none => exact .inl rfl
  | some p =>
    obtain ⟨c, t, hw, hc, -⟩ := p.exists_word
    exact .inr ⟨p.sep, c, t ++ numberText p.number, by rw [preText, Pre.text, hw]; rfl, hc⟩

/-- The word of a patch number is a letter and more letters. -/
theorem exists_patch_word {word : Str} (h : word.map fold = ['p'] ∨ word.map fold = "patch".toList) :
    ∃ c t, word = c :: t ∧ fold c = 'p' := by
  cases word with
  | nil => rcases h with h | h <;> cases h
  | cons c t =>
    refine ⟨c, t, rfl, ?_⟩
    rcases h with h | h <;> exact (List.cons.inj h).1

theorem worded_patchText (patch : Option Patch) (pre : Option Pre) :
    Worded (patchText patch ++ preText pre) := by
  cases patch with
  | none => exact worded_preText pre
  | some q =>
    cases q with
    | letter sep c h =>
      refine .inr ⟨sep, c, preText pre, ?_, fold_isLower_of_isAlpha h⟩
      simp [patchText, Patch.text]
    | number sep word h n =>
      obtain ⟨c, t, rfl, hc⟩ := exists_patch_word h
      refine .inr ⟨sep, c, t ++ n.1 ++ preText pre, ?_, by rw [hc]; rfl⟩
      simp [patchText, Patch.text]

theorem patchGroup_letter {suffix : Str} (hs : suffix = "alphabetical".toList) (sep : Option Sep)
    {c : Char} (h : (fold c).isLower) (s : Str) :
    patchGroup suffix (sepText sep ++ c :: s) = some ([c], s) := by
  rw [patchGroup, if_pos hs, skipSep_word sep h]
  exact if_pos h

theorem patchGroup_number {suffix : Str} (hsuffix : suffix = "patch".toList) (sep : Option Sep)
    {word : Str} (h : word.map fold = ['p'] ∨ word.map fold = "patch".toList) (n : Digits) {s : Str}
    (hs : Worded s) :
    patchGroup suffix (sepText sep ++ (word ++ (n.1 ++ s))) = some (n.1, s) := by
  obtain ⟨c, t, hword, hc⟩ := exists_patch_word h
  have hlower : (fold c).isLower := by rw [hc]; rfl
  have hskip : skipSep (sepText sep ++ (word ++ (n.1 ++ s))) = word ++ (n.1 ++ s) := by
    rw [hword, List.cons_append]
    exact skipSep_word sep hlower _
  have hdigits := digits_append n hs.head
  rw [patchGroup, if_neg (by rw [hsuffix]; decide), if_pos hsuffix, hskip]
  rcases h with h | h
  · rw [lit_append h, Option.bind_some, hdigits, Option.some_or]
  · -- behind `p` alone there is no digit
    have hshort : (lit ['p'] (word ++ (n.1 ++ s))).bind digits = none := by
      rw [hword] at h
      have hone : lit ['p'] ([c] ++ (t ++ (n.1 ++ s))) = some (t ++ (n.1 ++ s)) :=
        lit_append (by rw [List.map_singleton, hc]) _
      obtain ⟨d, u, rfl⟩ : ∃ d u, t = d :: u := by
        cases t with
        | nil => cases congrArg List.length h
        | cons d u => exact ⟨d, u, rfl⟩
      have hd : fold d = 'a' := (List.cons.inj (List.cons.inj h).2).1
      have hnone : digits (d :: (u ++ (n.1 ++ s))) = none := digits_eq_none fun e he => by
        cases he
        exact not_isDigit_of_fold (by rw [hd]; rfl)
      rw [hword]
      show (lit ['p'] ([c] ++ (d :: u ++ (n.1 ++ s)))).bind digits = none
      rw [hone]
      exact hnone
    rw [hshort, lit_append h, Option.none_or]
    exact hdigits

/-- A pre-release is no patch number. -/
theorem patchGroup_preText {suffix : Str} (hsuffix : suffix = "patch".toList) (pre : Option Pre) :
    patchGroup suffix (preText pre) = none := by
  rw [patchGroup, if_neg (by rw [hsuffix]; decide), if_pos hsuffix]
  cases pre with
  | none => rfl
  | some p =>
    obtain ⟨c, t, hw, hc, hstage⟩ := p.exists_word
    have hskip : skipSep p.text = c :: (t ++ numberText p.number) := by
      rw [Pre.text, hw]
      exact skipSep_word p.sep hc _
    have hp : fold c ≠ 'p' := by
      have hhead : fold c = p.stage.word.headD 'x' := by rw [hstage]; rfl
      rw [hhead]
      cases p.stage <;> decide
    show ((lit ['p'] (skipSep p.text)).bind digits).or
      ((lit ('p' :: "atch".toList) (skipSep p.text)).bind digits) = none
    rw [hskip, lit_of_ne hp, lit_of_ne hp]
    rfl

theorem tailOk_of_not_mem {s : Str} (h : '\n' ∉ s) : tailOk s := by
  have hnil : s.dropWhile (· ≠ '\n') = [] := by
    rw [List.dropWhile_eq_nil_iff]
    intro c hc
    simpa using fun he : c = '\n' => h (he ▸ hc)
  rw [tailOk, hnil]
  rfl

theorem not_mem_numberText (n : Option (Option Sep × Digits)) : '\n' ∉ numberText n := by
  rcases n with _ | ⟨sep, n⟩
  · exact List.not_mem_nil
  · intro h
    rcases List.mem_append.1 h with h | h
    · rcases sep with _ | sep
      · cases h
      · cases sep <;> exact absurd (List.mem_singleton.1 h) (by decide)
    · exact absurd (n.2.2 _ h) (by decide)

theorem preGroup_preText (pre : Option Pre) : preGroup (preText pre) =
    pre.map fun p => (p.word, p.number.map fun n => n.2.1, []) := by
  cases pre with
  | none => rfl
  | some p => exact preGroup_text p

/-! ### The whole version -/

namespace Form
variable {suffix : Str}

/-- The release of a version is read, and the groups behind it. -/
theorem readVersion_release (f : Form suffix) {suffix' : Str} :
    readVersion suffix' f.render =
      let s := patchText f.patch ++ preText f.pre
      let patch := patchGroup suffix' s
      let s := (patch.map Prod.snd).getD s
      let pre := preGroup s
      let s := (pre.map fun p => p.2.2).getD s
      if tailOk s then
        some ⟨f.release, (patch.map Prod.fst).getD [], pre.map Prod.fst, pre.bind fun p => p.2.1⟩
      else none := by
  have hworded := worded_patchText f.patch f.pre
  obtain ⟨c, t, hfirst, hc⟩ := exists_digit f.first
  have hrender : f.render = f.first.1 ++ ((f.rest.flatMap fun c => c.1.char :: c.2.1) ++
      (patchText f.patch ++ preText f.pre)) := by
    rw [render, releaseText, List.append_assoc]
  have hspace : isSpace c = false := by
    have hd := isDigit_iff.1 hc
    unfold isSpace
    simp only [Bool.or_eq_false_iff, Bool.and_eq_false_iff, decide_eq_false_iff_not,
      beq_eq_false_iff_ne]
    omega
  have hstart : f.render.dropWhile isSpace = f.render := by
    rw [hrender, hfirst, List.cons_append, List.dropWhile_cons_of_neg (by simp [hspace])]
  have hlit : ∀ a : Char, a.isLower → lit [a] f.render = none := by
    intro a ha
    rw [hrender, hfirst]
    refine lit_of_ne (fun he => ?_) _ _
    rw [fold_of_isDigit hc] at he
    have h1 := isDigit_iff.1 hc
    have h2 := isLower_iff.1 ha
    rw [← he] at h2
    omega
  have hdigits : digits f.render = some (f.first.1, (f.rest.flatMap fun c => c.1.char :: c.2.1) ++
      (patchText f.patch ++ preText f.pre)) := by
    rw [hrender]
    exact digits_append f.first (head_components hworded)
  have hlen : f.rest.length ≤ ((f.rest.flatMap fun c => c.1.char :: c.2.1) ++
      (patchText f.patch ++ preText f.pre)).length := by
    rw [List.length_append, List.length_flatMap]
    have hsum : f.rest.length ≤ (f.rest.map fun c => (c.1.char :: c.2.1).length).sum := by
      induction f.rest with
      | nil => exact Nat.zero_le _
      | cons c rest ih =>
        rw [List.map_cons, List.sum_cons, List.length_cons, List.length_cons]
        omega
    omega
  have hcomp := components_append hworded f.rest hlen
  simp only [readVersion]
  rw [hstart, hlit 'r' (by decide), Option.getD_none, hlit 'v' (by decide), Option.getD_none, hdigits,
    Option.bind_some, hcomp]
  simp only [release, List.map_cons, List.map_map]
  rfl

/-- The part for patches is read as it is, but for the letter of a pre-release. -/
theorem patchGroup_of_not_misread (f : Form suffix) (h : ¬ f.Misread) :
    patchGroup suffix (patchText f.patch ++ preText f.pre) =
      f.patch.map fun q => (q.value, preText f.pre) := by
  have hfits := f.fits
  cases hq : f.patch with
  | some q =>
    have hsuffix := hfits q hq
    cases q with
    | letter sep c hc =>
      rw [patchText, Patch.text, List.append_assoc, List.singleton_append]
      exact patchGroup_letter hsuffix sep (fold_isLower_of_isAlpha hc) _
    | number sep word hw n =>
      rw [patchText, Patch.text, List.append_assoc, List.append_assoc]
      exact patchGroup_number hsuffix sep hw n (worded_preText f.pre)
  | none =>
    rw [Option.map_none, patchText, List.nil_append]
    by_cases ha : suffix = "alphabetical".toList
    · have hpre : f.pre = none := by
        by_contra hne
        exact h ⟨ha, hq, hne⟩
      rw [hpre, patchGroup, if_pos ha]
      rfl
    · by_cases hp : suffix = "patch".toList
      · exact patchGroup_preText hp f.pre
      · rw [patchGroup, if_neg ha, if_neg hp]

/-- What is read of a version in a form. -/
theorem readVersion_render (f : Form suffix) : readVersion suffix f.render = some f.fields := by
  rw [readVersion_release]
  dsimp only
  by_cases hm : f.Misread
  · obtain ⟨hsuffix, hpatch, hpre⟩ := id hm
    obtain ⟨p, hp⟩ := Option.ne_none_iff_exists'.1 hpre
    obtain ⟨c, t, hw, hc, -⟩ := p.exists_word
    have htext : patchText f.patch ++ preText f.pre =
        sepText p.sep ++ c :: (t ++ numberText p.number) := by
      rw [hpatch, hp, patchText, preText, Pre.text, hw]
      rfl
    have hgroup : patchGroup suffix (patchText f.patch ++ preText f.pre) =
        some ([c], t ++ numberText p.number) := by
      rw [htext]
      exact patchGroup_letter hsuffix p.sep hc _
    have htail : '\n' ∉ t ++ numberText p.number := by
      intro hn
      rcases List.mem_append.1 hn with hn | hn
      · have hmem : fold '\n' ∈ p.word.map fold :=
          List.mem_map_of_mem (hw ▸ List.mem_cons_of_mem _ hn)
        rw [p.word_eq] at hmem
        revert hmem
        cases p.stage <;> decide
      · exact not_mem_numberText _ hn
    rw [hgroup, fields, if_pos hm, hp]
    simp only [Option.map_some, Option.getD_some]
    rw [preGroup_tail hw]
    simp only [Option.map_none, Option.getD_none, Option.bind_none]
    rw [if_pos (tailOk_of_not_mem htail), hw]
    rfl
  · have hgroup := f.patchGroup_of_not_misread hm
    have hrest : ((f.patch.map fun q => (q.value, preText f.pre)).map Prod.snd).getD
        (patchText f.patch ++ preText f.pre) = preText f.pre := by
      cases f.patch <;> rfl
    rw [hgroup, fields, if_neg hm]
    simp only [hrest, preGroup_preText]
    have htail : tailOk (((f.pre.map fun p => (p.word, p.number.map fun n => n.2.1, ([] : Str))).map
        fun p => p.2.2).getD (preText f.pre)) := by
      cases f.pre <;> rfl
    rw [if_pos htail]
    cases f.patch <;> cases f.pre <;> rfl

end Form

end Cve
end OpenBmc
