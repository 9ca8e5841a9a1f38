import OpenBmc.Lib.Dict
import OpenBmc.Py.Replace
import OpenBmc.Py.UnicodeEscape
import Mathlib.Algebra.Order.BigOperators.Group.Finset
import Mathlib.Data.List.Sort

/-!
# Package data

`emit_pkgdata` writes one line for each variable of a package, under the name `VAR:pkg` where that is
set and under `VAR` otherwise. `read_pkgdatafile` reads the lines back, without the blanks in front
of a value; `read_subpkgdata_dict` cuts the package out of every name.
-/

namespace OpenBmc
namespace Packaging
open Py

/-! ### Writing -/

/-- A package as its recipe has it: the variables, and the size of the files. `PKGSIZE` is not one of
the variables, it is written for every package. -/
structure Package where
  pkg : Str
  getVar : Str → Option Str
  totalSize : ℕ
  isWord : IsWord pkg
  not_colon : ':' ∉ pkg
  not_size : ∀ var ∈ words ((getVar "PKGDATA_VARS".toList).getD []),
    var ≠ "PKGSIZE".toList ∧ var ≠ "PKGSIZE".toList ++ ':' :: pkg

/-- A variable that is written, with its key and its value. -/
structure Written where
  var : Str
  key : Str
  value : Str
deriving DecidableEq

def Written.line (e : Written) : Str :=
  e.key ++ (':' :: ' ' :: (unicodeEscapeEncode e.value ++ ['\n']))

namespace Package
variable (p : Package)

/-- The name of the variable with the package as its override. -/
def specific (var : Str) : Str := var ++ ':' :: p.pkg

/-- `val = d.getVar(name)` and `if val`. -/
def truthy (name : Str) : Option Str := (p.getVar name).filter (· ≠ [])

/-- What `write_if_exists` writes. -/
def entry (var : Str) : Option Written :=
  match p.truthy (p.specific var) with
  | some val => some ⟨var, p.specific var, val⟩
  | none => (p.truthy var).map fun val => ⟨var, var, val⟩

def writeIfExists (f var : Str) : Str :=
  match p.entry var with
  | some e => f ++ e.line
  | none => f

/-- `sorted((d.getVar(name + ':' + pkg) or "").split())`. -/
def fileList (name : Str) : List Str :=
  (words ((p.getVar (p.specific name)).getD [])).insertionSort (· ≤ ·)

def sizeEntry : Written :=
  ⟨"PKGSIZE".toList, p.specific "PKGSIZE".toList, natStr p.totalSize⟩

/-- The runtime file of `emit_pkgdata`. -/
def emitPkgdata : Str :=
  let f := (words ((p.getVar "PKGDATA_VARS".toList).getD [])).foldl p.writeIfExists []
  let f := p.writeIfExists f "FILERPROVIDESFLIST".toList
  let f := (p.fileList "FILERPROVIDESFLIST".toList).foldl
    (fun f dfile => p.writeIfExists f ("FILERPROVIDES:".toList ++ dfile)) f
  let f := p.writeIfExists f "FILERDEPENDSFLIST".toList
  let f := (p.fileList "FILERDEPENDSFLIST".toList).foldl
    (fun f dfile => p.writeIfExists f ("FILERDEPENDS:".toList ++ dfile)) f
  f ++ (p.specific "PKGSIZE".toList ++ (':' :: ' ' :: (natStr p.totalSize ++ ['\n'])))

/-- The variables that are looked up. -/
def vars : List Str :=
  words ((p.getVar "PKGDATA_VARS".toList).getD []) ++ "FILERPROVIDESFLIST".toList ::
    ((p.fileList "FILERPROVIDESFLIST".toList).map ("FILERPROVIDES:".toList ++ ·) ++
      "FILERDEPENDSFLIST".toList ::
        (p.fileList "FILERDEPENDSFLIST".toList).map ("FILERDEPENDS:".toList ++ ·))

/-- The variables that are written. -/
def entries : List Written := p.vars.filterMap p.entry ++ [p.sizeEntry]

end Package

/-! ### Reading -/

/-- The lines of a text, each with its end. -/
def readlines : Str → List Str
  | [] => []
  | c :: s =>
    if c = '\n' then ['\n'] :: readlines s
    else
      match readlines s with
      | [] => [[c]]
      | l :: ls => (c :: l) :: ls

/-- The expression `(^.+?):\s+(.*)`, behind the part `key` of a line. -/
def matchFrom (key : Str) : Str → Option (Str × Str)
  | [] => none
  | c :: s =>
    if c = ':' ∧ key ≠ [] ∧ s.head?.any isSpace then
      some (key, (s.dropWhile isSpace).takeWhile (· ≠ '\n'))
    else if c = '\n' then none
    else matchFrom (key ++ [c]) s

section Read
variable [UnicodeNames]

def readLine (pkgdata : Dict Str Str) (l : Str) : Option (Dict Str Str) :=
  match matchFrom [] l with
  | some (key, text) => (unicodeEscapeDecode text).map fun val => pkgdata.set key val
  | none => some pkgdata

/-- `read_pkgdatafile`, for a file that may be missing. -/
def readPkgdatafile : Option Str → Option (Dict Str Str)
  | none => some Dict.empty
  | some text => (readlines (universalNewlines text)).foldlM readLine Dict.empty

def collapseVar (pkg : Str) (subd ret : Dict Str Str) (e : Str × Str) : Dict Str Str :=
  let newvar := replace (':' :: pkg) [] e.1
  if newvar = e.1 ∧ e.1 ++ ':' :: pkg ∈ subd then ret else ret.set newvar e.2

def readSubpkgdataDict (pkg : Str) (file : Option Str) : Option (Dict Str Str) :=
  (readPkgdatafile file).map fun subd => subd.entries.foldl (collapseVar pkg subd) Dict.empty

/-- What was written is read under its key, and found under its variable. -/
structure RoundTrips (p : Package) : Prop where
  read : ∃ data, readPkgdatafile (some p.emitPkgdata) = some data ∧
    ∀ e ∈ p.entries, data.get? e.key = some e.value
  dict : ∃ data, readSubpkgdataDict p.pkg (some p.emitPkgdata) = some data ∧
    (∀ e ∈ p.entries, data.get? e.var = some e.value) ∧
    ∀ var, var ∈ data ↔ var ∈ p.entries.map Written.var

end Read

/-! ### The text of the file -/

namespace Package
variable {p : Package}

theorem foldl_writeIfExists (f : Str) (vars : List Str) :
    vars.foldl p.writeIfExists f = f ++ (vars.filterMap p.entry).flatMap Written.line := by
  induction vars generalizing f with
  | nil => simp
  | cons var vars ih =>
    rw [List.foldl_cons, ih, List.filterMap_cons, writeIfExists]
    cases p.entry var with
    | none => rfl
    | some e => simp

/-- The size is written as every other value. -/
theorem sizeEntry_line : p.sizeEntry.line =
    p.specific "PKGSIZE".toList ++ (':' :: ' ' :: (natStr p.totalSize ++ ['\n'])) := by
  have hdigits : ∀ s : Str, (∀ c ∈ s, c.isDigit) → unicodeEscapeEncode s = s := by
    intro s hs
    induction s with
    | nil => rfl
    | cons c s ih =>
      have hc := isDigit_iff.1 (hs c (List.mem_cons_self ..))
      have hne : c ≠ '\\' := by
        rintro rfl
        exact absurd hc.2 (by decide)
      rw [unicodeEscapeEncode, List.flatMap_cons, ← unicodeEscapeEncode,
        ih fun d hd => hs d (List.mem_cons_of_mem _ hd), unicodeEscapeChar, if_neg hne,
        if_pos ⟨by omega, by omega⟩]
      rfl
  rw [Written.line, sizeEntry, hdigits _ fun c hc => isDigit_of_mem_natStr hc]

theorem emitPkgdata_eq (p : Package) : p.emitPkgdata = p.entries.flatMap Written.line := by
  have hcons : ∀ f var, p.writeIfExists f var = [var].foldl p.writeIfExists f := fun _ _ => rfl
  have hmap : ∀ (g : Str → Str) (l : List Str) f,
      l.foldl (fun f dfile => p.writeIfExists f (g dfile)) f = (l.map g).foldl p.writeIfExists f :=
    fun g l f => (List.foldl_map ..).symm
  simp only [emitPkgdata]
  rw [hmap ("FILERPROVIDES:".toList ++ ·), hmap ("FILERDEPENDS:".toList ++ ·),
    hcons _ "FILERPROVIDESFLIST".toList, hcons _ "FILERDEPENDSFLIST".toList, ← List.foldl_append,
    ← List.foldl_append, ← List.foldl_append, ← List.foldl_append,
    foldl_writeIfExists, ← sizeEntry_line, entries, List.flatMap_append, List.flatMap_singleton,
    List.nil_append]
  simp only [vars, List.singleton_append]

/-! ### Variables and keys -/

theorem isWord_specific {var : Str} (h : IsWord var) : IsWord (p.specific var) := by
  refine ⟨List.append_ne_nil_of_left_ne_nil h.1 _, fun c hc => ?_⟩
  rcases List.mem_append.1 hc with hc | hc
  · exact h.2 c hc
  rcases List.mem_cons.1 hc with rfl | hc
  · decide
  · exact p.isWord.2 c hc

theorem isWord_of_mem_vars {var : Str} (h : var ∈ p.vars) : IsWord var := by
  have hfile : ∀ s name dfile : Str, (∀ c ∈ s, ¬ isSpace c) → dfile ∈ p.fileList name →
      IsWord (s ++ dfile) := by
    intro s name dfile hs hd
    have hword := isWord_of_mem_words ((List.perm_insertionSort _ _).mem_iff.1 hd)
    refine ⟨List.append_ne_nil_of_right_ne_nil _ hword.1, fun c hc => ?_⟩
    exact (List.mem_append.1 hc).elim (hs c) (hword.2 c)
  have hprovides : IsWord "FILERPROVIDES:".toList := by decide +kernel
  have hdepends : IsWord "FILERDEPENDS:".toList := by decide +kernel
  rcases List.mem_append.1 h with h | h
  · exact isWord_of_mem_words h
  rcases List.mem_cons.1 h with rfl | h
  · decide +kernel
  rcases List.mem_append.1 h with h | h
  · obtain ⟨dfile, hd, rfl⟩ := List.mem_map.1 h
    exact hfile _ _ dfile hprovides.2 hd
  rcases List.mem_cons.1 h with rfl | h
  · decide +kernel
  · obtain ⟨dfile, hd, rfl⟩ := List.mem_map.1 h
    exact hfile _ _ dfile hdepends.2 hd

/-- The size has its key for itself. -/
theorem ne_size_of_mem_vars {var : Str} (h : var ∈ p.vars) :
    var ≠ "PKGSIZE".toList ∧ var ≠ p.specific "PKGSIZE".toList := by
  have hfirst : ∀ s t : Str, 'F' :: s ≠ 'P' :: t := fun s t hst =>
    absurd (List.cons.inj hst).1 (by decide)
  have hfile : ∀ s : Str, 'F' :: s ≠ "PKGSIZE".toList ∧ 'F' :: s ≠ p.specific "PKGSIZE".toList :=
    fun s => ⟨hfirst s _, hfirst s _⟩
  rcases List.mem_append.1 h with h | h
  · exact p.not_size var h
  rcases List.mem_cons.1 h with rfl | h
  · exact hfile _
  rcases List.mem_append.1 h with h | h
  · obtain ⟨dfile, -, rfl⟩ := List.mem_map.1 h
    exact hfile _
  rcases List.mem_cons.1 h with rfl | h
  · exact hfile _
  · obtain ⟨dfile, -, rfl⟩ := List.mem_map.1 h
    exact hfile _

theorem mem_entries {e : Written} :
    e ∈ p.entries ↔ (∃ var ∈ p.vars, p.entry var = some e) ∨ e = p.sizeEntry := by
  rw [entries, List.mem_append, List.mem_filterMap, List.mem_singleton]

/-- A variable is written under one of its two names, and the key has the value that is written. -/
theorem of_entry {var : Str} {e : Written} (h : p.entry var = some e) :
    e.var = var ∧ p.truthy e.key = some e.value ∧
      (e.key = p.specific var ∨ e.key = var ∧ p.truthy (p.specific var) = none) := by
  unfold entry at h
  cases hs : p.truthy (p.specific var) with
  | some val =>
    rw [hs] at h
    cases h
    exact ⟨rfl, hs, .inl rfl⟩
  | none =>
    rw [hs] at h
    obtain ⟨val, hval, rfl⟩ := Option.map_eq_some_iff.1 h
    exact ⟨rfl, hval, .inr ⟨rfl, rfl⟩⟩

theorem isWord_key {e : Written} (h : e ∈ p.entries) : IsWord e.key := by
  rcases mem_entries.1 h with ⟨var, hvar, he⟩ | rfl
  · obtain ⟨-, -, hkey⟩ := of_entry he
    have hword := isWord_of_mem_vars hvar
    rcases hkey with hkey | ⟨hkey, -⟩
    · exact hkey ▸ isWord_specific hword
    · exact hkey ▸ hword
  · exact isWord_specific (by decide +kernel)

theorem specific_inj {var var' : Str} (h : p.specific var = p.specific var') : var = var' :=
  List.append_cancel_right h

/-- A key is written with one value only. -/
theorem value_of_key {e e' : Written} (he : e ∈ p.entries) (he' : e' ∈ p.entries)
    (h : e.key = e'.key) : e.value = e'.value := by
  have hsize : ∀ {var e}, var ∈ p.vars → p.entry var = some e → e.key ≠ p.sizeEntry.key := by
    intro var e hvar he hkey
    obtain ⟨-, -, hk⟩ := of_entry he
    obtain ⟨hne, hne'⟩ := ne_size_of_mem_vars hvar
    rcases hk with hk | ⟨hk, -⟩
    · exact hne (specific_inj (hk.symm.trans hkey))
    · exact hne' (hk.symm.trans hkey)
  rcases mem_entries.1 he with ⟨var, hvar, hv⟩ | rfl <;>
    rcases mem_entries.1 he' with ⟨var', hvar', hv'⟩ | rfl
  · have hval := (of_entry hv).2.1
    rw [h, (of_entry hv').2.1] at hval
    exact (Option.some.inj hval).symm
  · exact absurd h (hsize hvar hv)
  · exact absurd h.symm (hsize hvar' hv')
  · rfl

end Package

/-! ### The text read back -/

theorem readlines_line {l : Str} (h : '\n' ∉ l) (s : Str) :
    readlines (l ++ '\n' :: s) = (l ++ ['\n']) :: readlines s := by
  induction l with
  | nil => rfl
  | cons c l ih =>
    rw [List.mem_cons, not_or] at h
    rw [List.cons_append, readlines, if_neg (Ne.symm h.1), ih h.2]
    rfl

/-- A key without blanks ends at the first colon before a blank. -/
theorem matchFrom_key {k : Str} (hk : ∀ c ∈ k, ¬ isSpace c) (key s : Str) (hne : key ++ k ≠ []) :
    matchFrom key (k ++ ':' :: ' ' :: s) =
      some (key ++ k, (s.dropWhile isSpace).takeWhile (· ≠ '\n')) := by
  induction k generalizing key with
  | nil =>
    rw [List.append_nil] at hne
    have hspace : (' ' :: s).dropWhile isSpace = s.dropWhile isSpace :=
      List.dropWhile_cons_of_pos (by decide)
    rw [List.nil_append, matchFrom, if_pos ⟨rfl, hne, rfl⟩, List.append_nil, hspace]
  | cons c k ih =>
    have hhead : ¬ (k ++ ':' :: ' ' :: s).head?.any isSpace := by
      cases k with
      | nil => exact Bool.false_ne_true
      | cons d k => exact hk d (by simp)
    have hc : c ≠ '\n' := by
      rintro rfl
      exact hk '\n' (List.mem_cons_self ..) (by decide)
    rw [List.cons_append, matchFrom, if_neg fun h => hhead h.2.2, if_neg hc,
      ih (fun d hd => hk d (List.mem_cons_of_mem _ hd)) _ (by simp), List.append_assoc]
    rfl

theorem not_isSpace_of_unicodeEscapeChar {c d : Char} (h : d ∈ unicodeEscapeChar c) (hc : c ≠ ' ') :
    ¬ isSpace d := by
  rcases mem_unicodeEscapeChar h with ⟨hlo, hhi⟩ | ⟨hc', -⟩
  · unfold isSpace
    simp only [Bool.or_eq_true, decide_eq_true_eq, Bool.and_eq_true, beq_iff_eq]
    omega
  · exact absurd hc' hc

/-- The blanks in front of the value are read as blanks behind the colon. -/
theorem read_value (val : Str) :
    ((unicodeEscapeEncode val ++ ['\n']).dropWhile isSpace).takeWhile (· ≠ '\n') =
      unicodeEscapeEncode (val.dropWhile (· = ' ')) := by
  have hnewline : ∀ s : Str, '\n' ∉ unicodeEscapeEncode s := fun s hs =>
    absurd (mem_unicodeEscapeEncode hs).1 (by decide)
  induction val with
  | nil => rfl
  | cons c val ih =>
    by_cases hc : c = ' '
    · subst hc
      exact ih
    · rw [List.dropWhile_cons_of_neg (by simpa using hc)]
      obtain ⟨d, t, hd⟩ := List.exists_cons_of_ne_nil (unicodeEscapeChar_ne_nil c)
      have hcons : unicodeEscapeEncode (c :: val) = d :: (t ++ unicodeEscapeEncode val) := by
        rw [unicodeEscapeEncode, List.flatMap_cons, hd]
        rfl
      have hmem : d ∈ unicodeEscapeChar c := hd ▸ List.mem_cons_self ..
      have hspace := not_isSpace_of_unicodeEscapeChar hmem hc
      rw [hcons, List.cons_append, List.dropWhile_cons_of_neg hspace, ← List.cons_append, ← hcons]
      rw [List.takeWhile_append_of_pos fun a ha => by simpa using fun h => hnewline _ (h ▸ ha)]
      simp

/-- The value without the blanks in front of it. -/
def Written.readValue (e : Written) : Str := e.value.dropWhile (· = ' ')

theorem Written.readValue_eq_iff (e : Written) :
    e.readValue = e.value ↔ e.value.head? ≠ some ' ' := by
  rw [readValue, List.dropWhile_eq_self_iff]
  cases e.value with
  | nil => simp
  | cons c s => simp

namespace Package
variable {p : Package}

/-- What is read of the file. -/
def pkgdata (p : Package) : Dict Str Str :=
  Dict.ofList (p.entries.map fun e => (e.key, e.readValue))

theorem mem_pkgdata {k : Str} : k ∈ p.pkgdata ↔ ∃ e ∈ p.entries, e.key = k := by
  rw [pkgdata, Dict.mem_ofList, List.map_map, List.mem_map]
  rfl

theorem get?_pkgdata {e : Written} (he : e ∈ p.entries) : p.pkgdata.get? e.key = some e.readValue :=
  Dict.get?_ofList_map (f := Written.key) (v := Written.readValue) he fun e' he' hkey => by
    rw [Written.readValue, value_of_key he' he hkey, Written.readValue]

/-- The file is text of one kind of lines. -/
theorem not_mem_emitPkgdata (p : Package) : '\r' ∉ p.emitPkgdata := by
  rw [emitPkgdata_eq, List.mem_flatMap]
  rintro ⟨e, he, hr⟩
  rcases List.mem_append.1 hr with hr | hr
  · exact (isWord_key he).2 _ hr (by decide)
  rw [List.mem_cons, List.mem_cons, List.mem_append] at hr
  rcases hr with hr | hr | hr | hr
  · exact absurd hr (by decide)
  · exact absurd hr (by decide)
  · exact absurd (mem_unicodeEscapeEncode hr).1 (by decide)
  · exact absurd hr (by decide)

theorem not_newline_mem_line {e : Written} (he : e ∈ p.entries) :
    '\n' ∉ e.key ++ (':' :: ' ' :: unicodeEscapeEncode e.value) := by
  intro hn
  rcases List.mem_append.1 hn with hn | hn
  · exact (isWord_key he).2 _ hn (by decide)
  rw [List.mem_cons, List.mem_cons] at hn
  rcases hn with hn | hn | hn
  · exact absurd hn (by decide)
  · exact absurd hn (by decide)
  · exact absurd (mem_unicodeEscapeEncode hn).1 (by decide)

section Read
variable [UnicodeNames]

theorem readLine_line {e : Written} (he : e ∈ p.entries) (pkgdata : Dict Str Str) :
    readLine pkgdata e.line = some (pkgdata.set e.key e.readValue) := by
  obtain ⟨hne, hspace⟩ := isWord_key he
  rw [readLine, Written.line, matchFrom_key hspace [] _ hne, List.nil_append, read_value]
  show (unicodeEscapeDecode (unicodeEscapeEncode e.readValue)).map _ = _
  rw [unicodeEscapeDecode_encode]
  rfl

theorem foldlM_readLine {l : List Written} (hl : ∀ e ∈ l, e ∈ p.entries) (pkgdata : Dict Str Str) :
    (readlines (l.flatMap Written.line)).foldlM readLine pkgdata =
      some (pkgdata.assign (l.map fun e => (e.key, e.readValue))) := by
  induction l generalizing pkgdata with
  | nil => rfl
  | cons e l ih =>
    have he := hl e (List.mem_cons_self ..)
    have hline : e.line ++ l.flatMap Written.line =
        (e.key ++ (':' :: ' ' :: unicodeEscapeEncode e.value)) ++ '\n' :: l.flatMap Written.line := by
      simp [Written.line]
    have hfirst : e.key ++ (':' :: ' ' :: unicodeEscapeEncode e.value) ++ ['\n'] = e.line := by
      simp [Written.line]
    rw [List.flatMap_cons, hline, readlines_line (not_newline_mem_line he), hfirst, List.foldlM_cons,
      readLine_line he]
    exact ih (fun e he => hl e (List.mem_cons_of_mem _ he)) _

theorem readPkgdatafile_emit (p : Package) :
    readPkgdatafile (some p.emitPkgdata) = some p.pkgdata := by
  show (readlines (universalNewlines p.emitPkgdata)).foldlM readLine Dict.empty = _
  rw [universalNewlines_of_not_mem p.not_mem_emitPkgdata, emitPkgdata_eq]
  exact foldlM_readLine (fun _ he => he) _

/-- The variables with the package cut out. -/
def collapsed (p : Package) : Dict Str Str :=
  p.pkgdata.entries.foldl (collapseVar p.pkg p.pkgdata) Dict.empty

theorem readSubpkgdataDict_emit (p : Package) :
    readSubpkgdataDict p.pkg (some p.emitPkgdata) = some p.collapsed := by
  rw [readSubpkgdataDict, readPkgdatafile_emit]
  rfl

end Read
end Package

/-! ### The package cut out of the keys -/

/-- A map that covers the values of another one, and makes none of them longer, makes none shorter. -/
theorem size_eq_of_cover {ι β : Type*} [DecidableEq β] {s : Finset ι} {g h : ι → β} (size : β → ℕ)
    (hg : Set.InjOn g s) (hsub : s.image g ⊆ s.image h) (hle : ∀ e ∈ s, size (h e) ≤ size (g e)) :
    ∀ e ∈ s, size (h e) = size (g e) := by
  have hcard : (s.image g).card = s.card := Finset.card_image_of_injOn hg
  have himage : s.image g = s.image h :=
    Finset.eq_of_subset_of_card_le hsub (by rw [hcard]; exact Finset.card_image_le)
  have hh : Set.InjOn h s := Finset.card_image_iff.1 (by rw [← himage, hcard])
  have hsum : ∑ e ∈ s, size (h e) = ∑ e ∈ s, size (g e) := by
    rw [← Finset.sum_image hh, ← himage, Finset.sum_image hg]
  exact (Finset.sum_eq_sum_iff_of_le hle).1 hsum

namespace Package
variable {p : Package}

/-- `var.replace(":" + pkg, "")`. -/
def cut (p : Package) (key : Str) : Str := replace (':' :: p.pkg) [] key

/-- A variable is written once, up to repetition. -/
theorem eq_of_var {e e' : Written} (he : e ∈ p.entries) (he' : e' ∈ p.entries)
    (h : e.var = e'.var) : e = e' := by
  have hsize : ∀ {var e}, var ∈ p.vars → p.entry var = some e → e.var ≠ p.sizeEntry.var :=
    fun hvar he => (of_entry he).1 ▸ (ne_size_of_mem_vars hvar).1
  rcases mem_entries.1 he with ⟨var, hvar, hv⟩ | rfl <;>
    rcases mem_entries.1 he' with ⟨var', hvar', hv'⟩ | rfl
  · rw [(of_entry hv).1, (of_entry hv').1] at h
    rw [h, hv'] at hv
    exact (Option.some.inj hv).symm
  · exact absurd h (hsize hvar hv)
  · exact absurd h.symm (hsize hvar' hv')
  · rfl

theorem key_cases {e : Written} (he : e ∈ p.entries) :
    e.key = p.specific e.var ∨ e.key = e.var ∧ p.truthy (p.specific e.var) = none := by
  rcases mem_entries.1 he with ⟨var, -, hv⟩ | rfl
  · obtain ⟨hvar, -, hkey⟩ := of_entry hv
    rw [hvar]
    exact hkey
  · exact .inl rfl

theorem length_cut_le {e : Written} (he : e ∈ p.entries) :
    (p.cut e.key).length ≤ e.var.length := by
  have hne : ':' :: p.pkg ≠ [] := List.cons_ne_nil _ _
  rcases key_cases he with hk | ⟨hk, -⟩
  · have hshort := length_remove_of_occurs hne (List.suffix_append e.var (':' :: p.pkg)).isInfix
    rw [cut, hk, specific]
    rw [List.length_append] at hshort
    omega
  · rw [cut, hk]
    exact length_remove_le hne _

/-- A name in which the package occurs is cut too short. -/
theorem length_cut_lt {e : Written} (he : e ∈ p.entries) (h : ':' :: p.pkg <:+: e.var) :
    (p.cut e.key).length < e.var.length := by
  have hne : ':' :: p.pkg ≠ [] := List.cons_ne_nil _ _
  rcases key_cases he with hk | ⟨hk, -⟩
  · rw [cut, hk]
    exact length_remove_twice hne h
  · have hshort := length_remove_of_occurs hne h
    rw [cut, hk]
    rw [List.length_cons] at hshort
    omega

theorem cut_key {e : Written} (he : e ∈ p.entries) (h : ¬ ':' :: p.pkg <:+: e.var) :
    p.cut e.key = e.var := by
  rcases key_cases he with hk | ⟨hk, -⟩
  · rw [cut, hk]
    exact remove_append p.not_colon h
  · rw [cut, hk]
    exact replace_eq_self h

/-- Every name that is found was cut out of a key. -/
theorem mem_foldl_collapseVar {subd ret : Dict Str Str} {l : List (Str × Str)} {var : Str}
    (h : var ∈ l.foldl (collapseVar p.pkg subd) ret) : var ∈ ret ∨ ∃ e ∈ l, p.cut e.1 = var := by
  induction l generalizing ret with
  | nil => exact .inl h
  | cons e l ih =>
    rcases ih h with h | ⟨e', he', hcut⟩
    · simp only [collapseVar] at h
      split at h
      · exact .inl h
      · rcases Dict.mem_set.1 h with rfl | h
        · exact .inr ⟨e, List.mem_cons_self .., rfl⟩
        · exact .inl h
    · exact .inr ⟨e', List.mem_cons_of_mem _ he', hcut⟩

/-- Where every variable is found, no package name was cut out of one. -/
theorem not_infix_of_found (h : ∀ e ∈ p.entries, e.var ∈ p.collapsed) {e : Written}
    (he : e ∈ p.entries) : ¬ ':' :: p.pkg <:+: e.var := by
  intro hin
  have hsub : p.entries.toFinset.image Written.var ⊆
      p.entries.toFinset.image fun e => p.cut e.key := by
    intro var hvar
    obtain ⟨e', he', rfl⟩ := Finset.mem_image.1 hvar
    rcases mem_foldl_collapseVar (h e' (List.mem_toFinset.1 he')) with hempty | ⟨kv, hkv, hcut⟩
    · cases hempty
    · obtain ⟨e'', he'', hkey⟩ := mem_pkgdata.1 (Dict.mem_keys_of_mem_entries hkv)
      exact Finset.mem_image.2 ⟨e'', List.mem_toFinset.2 he'', by rw [hkey, hcut]⟩
  have hinj : Set.InjOn Written.var p.entries.toFinset := fun e he e' he' hvar =>
    eq_of_var (List.mem_toFinset.1 he) (List.mem_toFinset.1 he') hvar
  have heq := size_eq_of_cover List.length hinj hsub
    (fun e he => length_cut_le (List.mem_toFinset.1 he)) e (List.mem_toFinset.2 he)
  have hlt := length_cut_lt he hin
  omega

section Clean
variable (h : ∀ e ∈ p.entries, ¬ ':' :: p.pkg <:+: e.var)
include h

/-- A variable without an override is not passed over. -/
theorem not_passed_over {e : Written} (he : e ∈ p.entries) :
    ¬ (p.cut e.key = e.key ∧ e.key ++ ':' :: p.pkg ∈ p.pkgdata) := by
  rintro ⟨hcut, hmem⟩
  rw [cut_key he (h e he)] at hcut
  rcases key_cases he with hk | ⟨hk, hnone⟩
  · have hlen := congrArg List.length (hcut.trans hk)
    simp [specific] at hlen
  obtain ⟨e', he', hkey⟩ := mem_pkgdata.1 hmem
  have hspecific : e'.key = p.specific e.var := by rw [hkey, hk]; rfl
  rcases key_cases he' with hk' | ⟨hk', -⟩
  · have hvar := specific_inj (hk'.symm.trans hspecific)
    rcases mem_entries.1 he' with ⟨var, -, hv⟩ | rfl
    · rw [← hspecific, (of_entry hv).2.1] at hnone
      cases hnone
    · have hsize := eq_of_var he he' hvar.symm
      rw [hsize] at hk
      have hlen := congrArg List.length hk
      simp [sizeEntry, specific] at hlen
  · refine h e' he' ?_
    rw [← hk', hspecific]
    exact (List.suffix_append ..).isInfix

theorem collapsed_eq : p.collapsed =
    Dict.ofList (p.pkgdata.entries.map fun kv => (p.cut kv.1, kv.2)) := by
  have hfold : ∀ (l : List (Str × Str)) (ret : Dict Str Str), (∀ kv ∈ l, kv.1 ∈ p.pkgdata) →
      l.foldl (collapseVar p.pkg p.pkgdata) ret = ret.assign (l.map fun kv => (p.cut kv.1, kv.2)) := by
    intro l
    induction l with
    | nil => exact fun _ _ => rfl
    | cons kv l ih =>
      intro ret hl
      obtain ⟨e, he, hkey⟩ := mem_pkgdata.1 (hl kv (List.mem_cons_self ..))
      have hstep : collapseVar p.pkg p.pkgdata ret kv = ret.set (p.cut kv.1) kv.2 :=
        if_neg (hkey ▸ not_passed_over h he)
      rw [List.foldl_cons, hstep, ih _ fun kv hkv => hl kv (List.mem_cons_of_mem _ hkv)]
      rfl
  exact hfold _ _ fun kv hkv => Dict.mem_keys_of_mem_entries hkv

theorem mem_collapsed {var : Str} : var ∈ p.collapsed ↔ var ∈ p.entries.map Written.var := by
  rw [collapsed_eq h, Dict.mem_ofList, List.map_map, List.mem_map, List.mem_map]
  constructor
  · rintro ⟨kv, hkv, rfl⟩
    obtain ⟨e, he, hkey⟩ := mem_pkgdata.1 (Dict.mem_keys_of_mem_entries hkv)
    exact ⟨e, he, by rw [← cut_key he (h e he), hkey]; rfl⟩
  · rintro ⟨e, he, rfl⟩
    exact ⟨(e.key, e.readValue), Dict.get?_eq_some_iff.1 (get?_pkgdata he), cut_key he (h e he)⟩

theorem get?_collapsed {e : Written} (he : e ∈ p.entries) :
    p.collapsed.get? e.var = some e.readValue := by
  rw [collapsed_eq h, ← cut_key he (h e he)]
  refine Dict.get?_ofList_map (f := fun kv : Str × Str => p.cut kv.1) (v := Prod.snd)
    (i := (e.key, e.readValue)) (Dict.get?_eq_some_iff.1 (get?_pkgdata he)) fun kv hkv hcut => ?_
  obtain ⟨e', he', hkey⟩ := mem_pkgdata.1 (Dict.mem_keys_of_mem_entries hkv)
  have hvalue := get?_pkgdata he'
  rw [hkey, Dict.get?_eq_some_iff.2 hkv] at hvalue
  have hvar : e'.var = e.var := by
    rw [← cut_key he' (h e' he'), ← cut_key he (h e he), hkey]
    exact hcut
  rw [Option.some.inj hvalue, eq_of_var he' he hvar]

end Clean
end Package

section RoundTrips
variable [UnicodeNames] {p : Package}

/-- The value of a variable is read without the blanks in front of it. -/
theorem RoundTrips.not_blank (h : RoundTrips p) {e : Written} (he : e ∈ p.entries) :
    e.value.head? ≠ some ' ' := by
  obtain ⟨data, hdata, hread⟩ := h.read
  rw [Package.readPkgdatafile_emit] at hdata
  have hget := hread e he
  rw [← Option.some.inj hdata, Package.get?_pkgdata he] at hget
  exact e.readValue_eq_iff.1 (Option.some.inj hget)

theorem RoundTrips.not_within (h : RoundTrips p) {e : Written} (he : e ∈ p.entries) :
    ¬ ':' :: p.pkg <:+: e.var := by
  obtain ⟨data, hdata, hread, -⟩ := h.dict
  rw [Package.readSubpkgdataDict_emit] at hdata
  refine Package.not_infix_of_found (fun e he => ?_) he
  exact Dict.mem_of_get? (Option.some.inj hdata ▸ hread e he)

/-- Package data comes back exactly when no value begins with a blank, and no variable has the
package in its name. -/
theorem pkgdata_roundTrips_iff (p : Package) : RoundTrips p ↔ ∀ var ∈ p.vars, ∀ e, p.entry var = some e →
    e.value.head? ≠ some ' ' ∧ ¬ ':' :: p.pkg <:+: var := by
  constructor
  · intro h var hvar e he
    have hmem := Package.mem_entries.2 (.inl ⟨var, hvar, he⟩)
    exact ⟨h.not_blank hmem, (Package.of_entry he).1 ▸ h.not_within hmem⟩
  · intro h
    have hall : ∀ e ∈ p.entries, e.readValue = e.value ∧ ¬ ':' :: p.pkg <:+: e.var := by
      intro e he
      rcases Package.mem_entries.1 he with ⟨var, hvar, hv⟩ | rfl
      · obtain ⟨hblank, hin⟩ := h var hvar e hv
        exact ⟨e.readValue_eq_iff.2 hblank, (Package.of_entry hv).1 ▸ hin⟩
      · refine ⟨p.sizeEntry.readValue_eq_iff.2 fun hhead => ?_, fun hin => ?_⟩
        · have hdigit := isDigit_of_mem_natStr (List.mem_of_head? hhead)
          exact absurd hdigit (by decide)
        · have hcolon : ':' ∈ "PKGSIZE".toList := hin.subset (List.mem_cons_self ..)
          exact absurd hcolon (by decide)
    have hclean := fun e he => (hall e he).2
    constructor
    · exact ⟨_, Package.readPkgdatafile_emit p, fun e he => by
        rw [Package.get?_pkgdata he, (hall e he).1]⟩
    · exact ⟨_, Package.readSubpkgdataDict_emit p, fun e he => by
        rw [Package.get?_collapsed hclean he, (hall e he).1], fun var => Package.mem_collapsed hclean⟩

end RoundTrips

/-- One variable, with a blank in front of its value. -/
def blankVars (name : Str) : Option Str :=
  if name = "PKGDATA_VARS".toList then some "SUMMARY".toList
  else if name = "SUMMARY:x".toList then some " a".toList
  else none

theorem blankVars_not_size : ∀ var ∈ words ((blankVars "PKGDATA_VARS".toList).getD []),
    var ≠ "PKGSIZE".toList ∧ var ≠ "PKGSIZE".toList ++ ":x".toList := by
  have hwords : words ((blankVars "PKGDATA_VARS".toList).getD []) = ["SUMMARY".toList] :=
    IsWord.words (by decide +kernel)
  rw [hwords]
  decide

theorem isWord_x : IsWord "x".toList := by decide +kernel

theorem not_colon_x : ':' ∉ "x".toList := by decide

def blankPackage : Package where
  pkg := "x".toList
  getVar := blankVars
  totalSize := 0
  isWord := isWord_x
  not_colon := not_colon_x
  not_size := blankVars_not_size

theorem blankPackage_fails : ¬ @RoundTrips ⟨fun _ => none⟩ blankPackage := by
  intro h
  have hvar : "SUMMARY".toList ∈ blankPackage.vars :=
    List.mem_append_left _ (by
      show _ ∈ words "SUMMARY".toList
      rw [IsWord.words (by decide +kernel)]
      exact List.mem_singleton_self _)
  have hentry : blankPackage.entry "SUMMARY".toList =
      some ⟨"SUMMARY".toList, "SUMMARY:x".toList, " a".toList⟩ := by decide +kernel
  have hmem := Package.mem_entries.2 (.inl ⟨_, hvar, hentry⟩)
  exact absurd (@RoundTrips.not_blank ⟨fun _ => none⟩ _ h _ hmem) (by decide)

end Packaging
end OpenBmc
