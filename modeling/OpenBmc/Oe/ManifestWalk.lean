import OpenBmc.Oe.Manifest
import OpenBmc.Oe.LicenseExpression

/-!
# The walk of the manifest visitor

The visitor on a license expression, with the tokens that it has written instead of their text. The
text is read again as these tokens, because two licenses never stand side by side.
-/

namespace OpenBmc
namespace Oe
open Py

/-- The fields of a `ManifestVisitor`, and what it has written. -/
structure Walk where
  pending : List Pending
  licenses : List Str
  out : List Ast.Token

def binToken : Ast.BinOperator → Ast.Token
  | .bitAnd => .amp
  | .bitOr => .bar

/-- What a pending entry makes before a license that is written. -/
def pendingToken (licenses : List Str) : Pending → Option Ast.Token
  | .opening => some .lpar
  | .op o => if licenses ≠ [] then some (binToken o) else none

def flushed (licenses : List Str) (pending : List Pending) : List Ast.Token :=
  (squash pending).filterMap (pendingToken licenses)

/-- The text of a token; groups are lists. -/
def listText : Ast.Token → Str
  | .string n => n
  | .amp => [' ', '&', ' ']
  | .bar => [' ', '|', ' ']
  | .lpar | .lsqb => ['[']
  | .rpar | .rsqb => [']']

namespace Walk

def start : Walk := ⟨[], [], []⟩

def push (p : Pending) (w : Walk) : Walk := { w with pending := w.pending ++ [p] }

def close (w : Walk) : Walk := { w with out := w.out ++ [.rpar] }

def write (n : Str) (w : Walk) : Walk :=
  ⟨[], w.licenses ++ [n], w.out ++ flushed w.licenses w.pending ++ [.string n]⟩

def visit (wanted : Str → Bool) : Expression → Walk → Walk
  | .name n, w => if wanted n then w.write n else w
  | .group e, w => ((w.push .opening).visit wanted e).close
  | .both l r, w => ((w.visit wanted l).push (.op .bitAnd)).visit wanted r
  | .either l r, w => ((w.visit wanted l).push (.op .bitOr)).visit wanted r

/-- The visitor where the walk is. -/
def visitor (w : Walk) : ManifestVisitor := ⟨w.pending, w.licenses, w.out.flatMap listText⟩

theorem foldl_writeOperator (licenses : List Str) (str : Str) (ops : List Pending) :
    ops.foldl (writeOperator licenses) str =
      str ++ (ops.filterMap (pendingToken licenses)).flatMap listText := by
  induction ops generalizing str with
  | nil => simp
  | cons p ops ih =>
    rw [List.foldl_cons, ih]
    cases p with
    | opening => simp [writeOperator, pendingToken, listText]
    | op o => by_cases h : licenses = [] <;> cases o <;>
        simp [writeOperator, pendingToken, listText, binToken, operatorChar, h]

theorem visitor_visit (wanted : Str → Bool) : ∀ (e : Expression) (w : Walk),
    w.visitor.visit wanted (e.node .list) = (w.visit wanted e).visitor
  | .name n, w => by
    rw [Expression.node, ManifestVisitor.visit, ManifestVisitor.visitStr, visit]
    split_ifs
    · simp [visitor, write, foldl_writeOperator, flushed, listText]
    · rfl
  | .group e, w => by
    have hpush : w.visitor.visitOperator .opening = (w.push .opening).visitor := rfl
    rw [Expression.node, ManifestVisitor.visit, hpush, visitor_visit wanted e, visit]
    simp [ManifestVisitor.visitLoad, visitor, close, listText]
  | .both l r, w => by
    rw [Expression.node, ManifestVisitor.visit, visitor_visit wanted l, visit]
    exact visitor_visit wanted r ((w.visit wanted l).push (.op .bitAnd))
  | .either l r, w => by
    rw [Expression.node, ManifestVisitor.visit, visitor_visit wanted l, visit]
    exact visitor_visit wanted r ((w.visit wanted l).push (.op .bitOr))

end Walk

/-- The parentheses of the string, as Python's lists. -/
def squareGrouping : Grouping where
  token := squareToken
  node := .list
  string _ := rfl
  amp := rfl
  bar := rfl
  group h := h.sqb

variable {s : Str} {e : Expression} {dontWantLicenses : List Str} {canonicalLicense : Str → Str}

/-- A license that stays. -/
def isWanted (dontWantLicenses : List Str) (canonicalLicense : Str → Str) (lic : Str) : Bool :=
  licenseOk (canonicalLicense lic) dontWantLicenses

theorem manifestLicenses_eq (h : IsExpression s e) :
    let w := Walk.start.visit (isWanted dontWantLicenses canonicalLicense) e
    manifestLicenses s dontWantLicenses canonicalLicense =
      .ok ((w.out.flatMap listText).map roundChar, w.licenses) := by
  obtain ⟨ts, hts, hparse⟩ := parse_elements squareGrouping h
  have hparse : Ast.parse (ts.map squareToken) = some (some (e.node .list)) := hparse
  have hvisit := Walk.visitor_visit (isWanted dontWantLicenses canonicalLicense) e .start
  rw [manifestLicenses, hts]
  simp only [bind, Except.bind, hparse]
  exact congrArg (fun v : ManifestVisitor => Except.ok (v.licensestr.map roundChar, v.licenses))
    hvisit

/-! ### The text of the tokens -/

/-- The text of a token when the brackets are parentheses again. -/
def groupText : Ast.Token → Str
  | .string n => n
  | .amp => [' ', '&', ' ']
  | .bar => [' ', '|', ' ']
  | .lpar | .lsqb => ['(']
  | .rpar | .rsqb => [')']

/-- The token as a piece of a license string. -/
def tokenPiece : Ast.Token → Str
  | .string n => n
  | .amp => ['&']
  | .bar => ['|']
  | .lpar | .lsqb => ['(']
  | .rpar | .rsqb => [')']

def isName : Ast.Token → Bool
  | .string _ => true
  | _ => false

/-- A token of a license expression. -/
def IsToken : Ast.Token → Prop
  | .string n => IsLicenseName n
  | .lsqb | .rsqb => False
  | _ => True

/-- Tokens of license expressions, with no two names in a row. -/
structure Separated (ts : List Ast.Token) : Prop where
  isToken : ∀ t ∈ ts, IsToken t
  apart : ts.IsChain fun a b => ¬ (isName a ∧ isName b)

theorem Separated.tail {t : Ast.Token} {ts : List Ast.Token} (h : Separated (t :: ts)) : Separated ts :=
  ⟨fun u hu => h.isToken u (List.mem_cons_of_mem _ hu), h.apart.tail⟩

theorem not_mem_operatorChars {c : Char} (h : isLicenseChar c) : c ∉ licenseOperatorChars := by
  intro hc
  have hall : licenseOperatorChars.all fun c => !isLicenseChar c := by decide
  simpa [h] using List.all_eq_true.1 hall c hc

theorem isSpace_licenseChar {c : Char} (h : isLicenseChar c) : isSpace c = false := by
  simp only [isLicenseChar, Bool.or_eq_true, Char.isAlphanum, Char.isAlpha] at h
  rcases h with ((h | h) | h) | h
  · rw [isUpper_iff] at h
    simp [isSpace]
    omega
  · rw [isLower_iff] at h
    simp [isSpace]
    omega
  · rw [isDigit_iff] at h
    simp [isSpace]
    omega
  · have hall : ".+_-".toList.all fun c => !isSpace c := by decide
    simpa using List.all_eq_true.1 hall c (by simpa using h)

theorem strip_licenseName {n : Str} (h : IsLicenseName n) : strip n = n :=
  stripBy_of_ends (fun c hc => isSpace_licenseChar (h.2 c (List.mem_of_mem_head? hc)))
    fun c hc => isSpace_licenseChar (h.2 c (List.mem_of_mem_getLast? hc))

theorem operatorSplit_operator {c : Char} {s : Str} (h : c ∈ licenseOperatorChars) :
    operatorSplit (c :: s) = [] :: [c] :: operatorSplit s := by rw [operatorSplit, if_pos h]

theorem operatorSplit_append {n s p : Str} {ps : List Str} (hn : ∀ c ∈ n, isLicenseChar c)
    (hs : operatorSplit s = p :: ps) : operatorSplit (n ++ s) = (n ++ p) :: ps := by
  induction n with
  | nil => exact hs
  | cons c n ih =>
    rw [List.forall_mem_cons] at hn
    rw [List.cons_append, operatorSplit, if_neg (not_mem_operatorChars hn.1), ih hn.2]
    rfl

theorem licensePieces_space (s : Str) : licensePieces (' ' :: s) = licensePieces s := by
  rw [licensePieces, operatorSplit_operator (by decide)]
  rfl

theorem licensePieces_operator {c : Char} (hc : c ∈ licenseOperatorChars) (hsp : strip [c] ≠ [])
    (s : Str) : licensePieces (c :: s) = [c] :: licensePieces s := by
  have hnil : strip [] = [] := rfl
  rw [licensePieces, operatorSplit_operator hc, licensePieces, List.filter_cons, List.filter_cons]
  simp [hnil, hsp]

theorem licensePieces_name {n s : Str} (hn : IsLicenseName n)
    (hs : ∀ c ∈ s.head?, c ∈ licenseOperatorChars) :
    licensePieces (n ++ s) = n :: licensePieces s := by
  have hnil : strip [] = [] := rfl
  have hne : strip n ≠ [] := by
    rw [strip_licenseName hn]
    exact hn.1
  have hcut : ∃ ps, operatorSplit s = [] :: ps := by
    cases s with
    | nil => exact ⟨[], rfl⟩
    | cons c s => exact ⟨_, operatorSplit_operator (hs c rfl)⟩
  obtain ⟨ps, hps⟩ := hcut
  rw [licensePieces, operatorSplit_append hn.2 hps, licensePieces, hps]
  simp [hnil, hne]

/-- The text of tokens is cut into their pieces. -/
theorem licensePieces_text : ∀ {ts : List Ast.Token}, Separated ts →
    licensePieces (ts.flatMap groupText) = ts.map tokenPiece
  | [], _ => rfl
  | t :: ts, h => by
    have ih := licensePieces_text h.tail
    have ht := h.isToken t List.mem_cons_self
    rw [List.flatMap_cons, List.map_cons]
    cases t with
    | string n =>
      rw [groupText, licensePieces_name ht, ih, tokenPiece]
      intro c hc
      cases ts with
      | nil => cases hc
      | cons u ts =>
        have hapart := (List.isChain_cons_cons.1 h.apart).1
        cases u with
        | string m => exact absurd ⟨rfl, rfl⟩ hapart
        | _ =>
          cases hc
          decide
    | amp =>
      simp only [groupText, List.cons_append, List.nil_append]
      rw [licensePieces_space, licensePieces_operator (by decide) (by decide), licensePieces_space, ih]
      rfl
    | bar =>
      simp only [groupText, List.cons_append, List.nil_append]
      rw [licensePieces_space, licensePieces_operator (by decide) (by decide), licensePieces_space, ih]
      rfl
    | lpar =>
      simp only [groupText, List.cons_append, List.nil_append]
      rw [licensePieces_operator (by decide) (by decide), ih]
      rfl
    | rpar =>
      simp only [groupText, List.cons_append, List.nil_append]
      rw [licensePieces_operator (by decide) (by decide), ih]
      rfl
    | lsqb => exact ht.elim
    | rsqb => exact ht.elim

/-- The pieces of tokens are read as the tokens. -/
theorem elementsFrom_pieces : ∀ {ts : List Ast.Token} {prev : Option Str}, Separated ts →
    (∀ t ∈ ts.head?, isName t → ¬ prev.any isLicense) →
    elementsFrom prev (ts.map tokenPiece) = .ok ts
  | [], _, _, _ => rfl
  | t :: ts, prev, h, hp => by
    have ht := h.isToken t List.mem_cons_self
    rw [List.map_cons]
    cases t with
    | string n =>
      have hnew : newElements prev n = .ok [.string n] := by
        rw [newElements, if_pos (isLicense_of_name ht), if_neg (hp _ rfl rfl)]
        rfl
      refine elementsFrom_cons.2 ⟨_, ts, hnew, elementsFrom_pieces h.tail ?_, rfl⟩
      intro u hu hname
      cases ts with
      | nil => cases hu
      | cons v ts =>
        cases hu
        exact absurd ⟨rfl, hname⟩ (List.isChain_cons_cons.1 h.apart).1
    | amp =>
      exact elementsFrom_operator (c := '&') (by decide) rfl
        (elementsFrom_pieces h.tail fun _ _ _ => by decide)
    | bar =>
      exact elementsFrom_operator (c := '|') (by decide) rfl
        (elementsFrom_pieces h.tail fun _ _ _ => by decide)
    | lpar =>
      exact elementsFrom_operator (c := '(') (by decide) rfl
        (elementsFrom_pieces h.tail fun _ _ _ => by decide)
    | rpar =>
      exact elementsFrom_operator (c := ')') (by decide) rfl
        (elementsFrom_pieces h.tail fun _ _ _ => by decide)
    | lsqb => exact ht.elim
    | rsqb => exact ht.elim

theorem getElements_text {ts : List Ast.Token} (h : Separated ts) :
    getElements (ts.flatMap groupText) = .ok ts := by
  rw [getElements, licensePieces_text h]
  exact elementsFrom_pieces h fun _ _ _ => by decide

theorem map_roundChar_text : ∀ {ts : List Ast.Token}, (∀ t ∈ ts, IsToken t) →
    (ts.flatMap listText).map roundChar = ts.flatMap groupText
  | [], _ => rfl
  | t :: ts, h => by
    rw [List.forall_mem_cons] at h
    rw [List.flatMap_cons, List.map_append, map_roundChar_text h.2, List.flatMap_cons]
    congr 1
    cases t with
    | string n =>
      have hid : ∀ c ∈ n, roundChar c = c := by
        intro c hc
        have hl : c ≠ '[' := fun he => absurd (h.1.2 c hc) (by rw [he]; decide)
        have hr : c ≠ ']' := fun he => absurd (h.1.2 c hc) (by rw [he]; decide)
        rw [roundChar, if_neg hl, if_neg hr]
      exact List.map_congr_left hid |>.trans (List.map_id n)
    | _ => rfl

/-! ### What is written before a license -/

section Flush
variable {licenses : List Str}

theorem squash_concat (q : List Pending) (p : Pending) :
    squash (q ++ [p]) = squashOperator (squash q) p := List.foldl_concat ..

theorem flushed_opening (q : List Pending) :
    flushed licenses (q ++ [.opening]) = flushed licenses q ++ [.lpar] := by
  rw [flushed, squash_concat, squashOperator, List.filterMap_append]
  rfl

theorem squash_ops (l : List Ast.BinOperator) (o : Ast.BinOperator) :
    squash ((l ++ [o]).map .op) = [.op o] := by
  induction l using List.reverseRecOn generalizing o with
  | nil => rfl
  | append_singleton l o' ih =>
    rw [List.map_append, List.map_singleton, squash_concat, ih]
    rfl

/-- Of the operators in a row the last one is written. -/
theorem flushed_ops (h : licenses ≠ []) (l : List Ast.BinOperator) (o : Ast.BinOperator) :
    flushed licenses ((l ++ [o]).map .op) = [binToken o] := by
  rw [flushed, squash_ops]
  simp [pendingToken, h]

theorem count_squash (q : List Pending) :
    (squash q).count .opening = q.count .opening := by
  induction q using List.reverseRecOn with
  | nil => rfl
  | append_singleton q p ih =>
    rw [squash_concat, List.count_append, ← ih]
    cases p with
    | opening => rw [squashOperator, List.count_append]
    | op o =>
      rw [squashOperator]
      split
      · rename_i o' hlast
        obtain ⟨init, hinit⟩ := List.getLast?_eq_some_iff.1 hlast
        simp [hinit]
      · rw [List.count_append]

/-- Before the first license only brackets are written. -/
theorem flushed_nil (q : List Pending) :
    flushed [] q = List.replicate (q.count .opening) .lpar := by
  rw [flushed, ← count_squash]
  induction squash q with
  | nil => rfl
  | cons p ops ih =>
    cases p with
    | opening =>
      have htok : pendingToken [] .opening = some .lpar := rfl
      rw [List.filterMap_cons_some htok, ih, List.count_cons_self, List.replicate_succ]
    | op o =>
      have htok : pendingToken [] (.op o) = none := rfl
      rw [List.filterMap_cons_none htok, ih, List.count_cons_of_ne (by simp)]

theorem count_flushed (licenses : List Str) (q : List Pending) :
    (flushed licenses q).count .lpar = q.count .opening := by
  rw [flushed, ← count_squash]
  induction squash q with
  | nil => rfl
  | cons p ops ih =>
    cases p with
    | opening =>
      have htok : pendingToken licenses .opening = some .lpar := rfl
      rw [List.filterMap_cons_some htok, List.count_cons_self, List.count_cons_self, ih]
    | op o =>
      rw [List.count_cons_of_ne (by simp)]
      by_cases h : licenses = []
      · have htok : pendingToken licenses (.op o) = none := if_neg (not_not.2 h)
        rw [List.filterMap_cons_none htok, ih]
      · have htok : pendingToken licenses (.op o) = some (binToken o) := if_pos h
        rw [List.filterMap_cons_some htok, List.count_cons_of_ne (by cases o <;> decide), ih]

theorem flushed_ne_nil (h : licenses ≠ []) {q : List Pending} (hq : q ≠ []) :
    flushed licenses q ≠ [] := by
  obtain ⟨q, p, rfl⟩ := List.eq_nil_or_concat q |>.resolve_left hq
  rw [List.concat_eq_append]
  have hsquash : squash (q ++ [p]) ≠ [] := by
    rw [squash_concat]
    cases p with
    | opening => simp [squashOperator]
    | op o =>
      rw [squashOperator]
      split <;> simp
  obtain ⟨p', ops, hp'⟩ := List.exists_cons_of_ne_nil hsquash
  rw [flushed, hp']
  cases p' <;> simp [pendingToken, h]

theorem mem_flushed {t : Ast.Token} {q : List Pending} (h : t ∈ flushed licenses q) :
    t = .lpar ∨ t = .amp ∨ t = .bar := by
  obtain ⟨p, -, hp⟩ := List.mem_filterMap.1 h
  cases p with
  | opening => exact .inl (Option.some.inj hp).symm
  | op o =>
    rw [pendingToken] at hp
    split_ifs at hp
    cases o
    · exact .inr (.inl (Option.some.inj hp).symm)
    · exact .inr (.inr (Option.some.inj hp).symm)

theorem foldl_squashOperator (b : List Pending) : ∀ (s r : List Pending) (o : Ast.BinOperator),
    ∃ r' o', b.foldl squashOperator (s ++ .opening :: .op o :: r) =
      s ++ .opening :: .op o' :: r' := by
  induction b with
  | nil => exact fun s r o => ⟨r, o, rfl⟩
  | cons p b ih =>
    intro s r o
    rw [List.foldl_cons]
    have happ : ∀ p', s ++ .opening :: .op o :: r ++ [p'] = s ++ .opening :: .op o :: (r ++ [p']) :=
      fun p' => by simp
    cases p with
    | opening =>
      rw [squashOperator, happ]
      exact ih s _ o
    | op p =>
      rw [squashOperator]
      split
      · cases r using List.reverseRecOn with
        | nil =>
          have hdrop : (s ++ [Pending.opening, .op o]).dropLast ++ [Pending.op p] =
              s ++ [Pending.opening, .op p] := by
            rw [List.dropLast_append_of_ne_nil (by simp)]
            simp
          rw [hdrop]
          exact ih s [] p
        | append_singleton r x =>
          have hdrop : (s ++ Pending.opening :: .op o :: (r ++ [x])).dropLast ++ [Pending.op p] =
              s ++ Pending.opening :: .op o :: (r ++ [.op p]) := by
            have hx : s ++ Pending.opening :: .op o :: (r ++ [x]) =
                s ++ Pending.opening :: .op o :: r ++ [x] := by simp
            rw [hx, List.dropLast_concat]
            simp
          rw [hdrop]
          exact ih s _ o
      · rw [happ]
        exact ih s _ o

/-- An operator that is pending behind a bracket is written behind it. -/
theorem flushed_opening_op (h : licenses ≠ []) (a b : List Pending) (o : Ast.BinOperator) :
    ∃ x o' y, flushed licenses (a ++ .opening :: .op o :: b) = x ++ .lpar :: binToken o' :: y := by
  have hsquash : squash (a ++ .opening :: .op o :: b) =
      b.foldl squashOperator (squash a ++ .opening :: .op o :: []) := by
    have hop : squashOperator (squash a ++ [.opening]) (.op o) = squash a ++ [.opening, .op o] := by
      simp [squashOperator]
    rw [squash, List.foldl_append, List.foldl_cons, List.foldl_cons]
    exact congrArg (fun l => b.foldl squashOperator l) hop
  obtain ⟨r, o', hr⟩ := foldl_squashOperator b (squash a) [] o
  refine ⟨flushed licenses a, o', r.filterMap (pendingToken licenses), ?_⟩
  rw [flushed, hsquash, hr]
  simp [flushed, pendingToken, h]

end Flush

end Oe
end OpenBmc
