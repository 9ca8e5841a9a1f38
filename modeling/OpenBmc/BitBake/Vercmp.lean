import OpenBmc.Py.Str
import Mathlib.Data.List.Lex
import Mathlib.Data.Prod.Lex
import Mathlib.Order.WithBot

/-!
# Comparing versions

`vercmp` compares epoch, version and revision; the last two piece by piece. The end of a text stands
between `~` and every other piece. `vercmp_neg` says that this is the order of `versionKey`, so that
versions are ordered linearly up to equal pieces.
-/

namespace OpenBmc
namespace BitBake
open Py

/-- The decimal digits of Unicode, which `\d` and `int` know, with their values. -/
class Decimals where
  value : Char → Option Nat
  value_ascii : ∀ c, c.isDigit → value c = some (c.toNat - 48)

variable [Decimals]

def isDecimal (c : Char) : Bool := (Decimals.value c).isSome

/-- `int` of decimal digits. -/
def decimalVal (s : Str) : Nat :=
  s.foldl (fun n c => 10 * n + (Decimals.value c).getD 0) 0

def isAsciiLetter (c : Char) : Bool := ('a' ≤ c && c ≤ 'z') || ('A' ≤ c && c ≤ 'Z')

/-- A piece of a version: what stands next to it in the tuple is its rank. -/
inductive Piece
  | tilde
  | number (n : Nat)
  | letters (s : Str)
  | other (c : Char)
  deriving DecidableEq

def Piece.rank : Piece → Int
  | tilde => -1
  | number _ => 0
  | letters _ => 1
  | other _ => 2

/-- The pieces of a text of at most `fuel` characters. -/
def explodeFrom : Nat → Str → List Piece
  | 0, _ | _, [] => []
  | fuel + 1, c :: s =>
    if c.isDigit then
      .number (decimalVal ((c :: s).takeWhile isDecimal)) ::
        explodeFrom fuel ((c :: s).dropWhile isDecimal)
    else if isAsciiLetter c then
      .letters ((c :: s).takeWhile isAsciiLetter) ::
        explodeFrom fuel ((c :: s).dropWhile isAsciiLetter)
    else if c = '~' then .tilde :: explodeFrom fuel s
    else .other c :: explodeFrom fuel s

def explodeVersion (s : Str) : List Piece := explodeFrom s.length s

/-- `<` of two second components, of tuples with one rank. -/
def Piece.less : Piece → Piece → Bool
  | number n, number m => n < m
  | letters s, letters t => s < t
  | other c, other d => c < d
  | _, _ => false

/-- The loop of `vercmp_part`; the end of a list is `(0, None)`. -/
def comparePieces : List Piece → List Piece → Int
  | [], [] => 0
  | [], b :: _ => if 0 < b.rank then -1 else if b.rank < 0 then 1 else -1
  | a :: _, [] => if a.rank < 0 then -1 else if 0 < a.rank then 1 else 1
  | a :: va, b :: vb =>
    if a.rank < b.rank then -1
    else if b.rank < a.rank then 1
    else if a.less b then -1
    else if b.less a then 1
    else comparePieces va vb

def vercmpPart (a b : Str) : Int := comparePieces (explodeVersion a) (explodeVersion b)

/-- Epoch, version and revision of a recipe. The epoch is empty or a number; no line ends within a
version. -/
structure Version where
  pe : Str
  pv : Str
  pr : Str
  pe_decimal : ∀ c ∈ pe, isDecimal c
  pv_line : '\n' ∉ pv
  pr_line : '\n' ∉ pr

def vercmp (a b : Version) : Int :=
  let r : Int := decimalVal a.pe - decimalVal b.pe
  let r := if r = 0 then vercmpPart a.pv b.pv else r
  if r = 0 then vercmpPart a.pr b.pr else r

/-! ### The order -/

/-- A piece by its rank and its text. -/
def Piece.key : Piece → ℤ ×ₗ WithBot (ℕ ×ₗ Str)
  | .tilde => toLex (-1, ⊥)
  | .number n => toLex (0, ↑(toLex (n, ([] : Str))))
  | .letters s => toLex (1, ↑(toLex (0, s)))
  | .other c => toLex (2, ↑(toLex (0, [c])))

/-- The end of a text. -/
def endKey : ℤ ×ₗ WithBot (ℕ ×ₗ Str) := toLex (0, ⊥)

/-- The pieces, and the end. -/
def piecesKey (l : List Piece) : List (ℤ ×ₗ WithBot (ℕ ×ₗ Str)) := l.map Piece.key ++ [endKey]

section order
omit [Decimals]

/-- Two pieces compare as their keys do. -/
theorem Piece.key_lt {a b : Piece} : a.key < b.key ↔
    a.rank < b.rank ∨ ¬ b.rank < a.rank ∧ a.less b = true := by
  cases a <;> cases b <;>
    simp [Piece.key, Piece.rank, Piece.less, Prod.Lex.toLex_lt_toLex, List.cons_lt_cons_iff]

/-- The end compares with a piece as `(0, None)` does. -/
theorem endKey_lt {b : Piece} : endKey < b.key ↔ ¬ b.rank < 0 := by
  cases b <;> simp [Piece.key, Piece.rank, endKey, Prod.Lex.toLex_lt_toLex]

theorem key_lt_endKey {a : Piece} : a.key < endKey ↔ a.rank < 0 := by
  cases a <;> simp [Piece.key, Piece.rank, endKey, Prod.Lex.toLex_lt_toLex]

theorem comparePieces_cons (a b : Piece) (va vb : List Piece) :
    comparePieces (a :: va) (b :: vb) =
      if a.key < b.key then -1 else if b.key < a.key then 1 else comparePieces va vb := by
  rw [comparePieces]
  simp only [Piece.key_lt]
  by_cases hab : a.rank < b.rank
  · simp [hab]
  · by_cases hba : b.rank < a.rank
    · simp [hab, hba]
    · simp [hab, hba]

theorem comparePieces_nil_cons (b : Piece) (vb : List Piece) :
    comparePieces [] (b :: vb) = if endKey < b.key then -1 else 1 := by
  rw [comparePieces]
  simp only [endKey_lt]
  by_cases hneg : b.rank < 0
  · simp [hneg, hneg.le]
  · simp [hneg]

theorem comparePieces_cons_nil (a : Piece) (va : List Piece) :
    comparePieces (a :: va) [] = if a.key < endKey then -1 else 1 := by
  rw [comparePieces, ite_self]
  simp only [key_lt_endKey]

theorem endKey_ne (b : Piece) : endKey ≠ b.key := by
  cases b <;> simp [Piece.key, endKey]

/-- The loop compares lexicographically, the end being an element of its own. -/
theorem comparePieces_spec (a b : List Piece) :
    (comparePieces a b < 0 ↔ piecesKey a < piecesKey b) ∧
      (comparePieces a b = 0 ↔ piecesKey a = piecesKey b) := by
  induction a generalizing b with
  | nil =>
    cases b with
    | nil => simp [comparePieces]
    | cons b vb =>
      have hkeys : piecesKey (b :: vb) = b.key :: piecesKey vb := rfl
      have hend : piecesKey [] = endKey :: [] := rfl
      rw [comparePieces_nil_cons, hkeys, hend, List.cons_lt_cons_iff, List.cons.injEq]
      by_cases hlt : endKey < b.key
      · simp [hlt, endKey_ne b]
      · simp [hlt, endKey_ne b]
  | cons a va ih =>
    have hkeys : piecesKey (a :: va) = a.key :: piecesKey va := rfl
    cases b with
    | nil =>
      have hend : piecesKey [] = endKey :: [] := rfl
      rw [comparePieces_cons_nil, hkeys, hend, List.cons_lt_cons_iff, List.cons.injEq]
      by_cases hlt : a.key < endKey
      · simp [hlt, (endKey_ne a).symm]
      · simp [hlt, (endKey_ne a).symm]
    | cons b vb =>
      have hkeys' : piecesKey (b :: vb) = b.key :: piecesKey vb := rfl
      rw [comparePieces_cons, hkeys, hkeys', List.cons_lt_cons_iff, List.cons.injEq]
      rcases lt_trichotomy a.key b.key with hlt | heq | hgt
      · simp [hlt, hlt.ne]
      · simp [heq, ih vb]
      · simp [hgt, hgt.ne', hgt.not_gt]

end order

/-- The order of versions. -/
def versionKey (v : Version) : ℤ ×ₗ List (ℤ ×ₗ WithBot (ℕ ×ₗ Str)) ×ₗ
    List (ℤ ×ₗ WithBot (ℕ ×ₗ Str)) :=
  toLex (decimalVal v.pe, toLex (piecesKey (explodeVersion v.pv), piecesKey (explodeVersion v.pr)))

/-- Versions are compared by their keys. -/
theorem vercmp_neg {a b : Version} : vercmp a b < 0 ↔ versionKey a < versionKey b := by
  have hpv := comparePieces_spec (explodeVersion a.pv) (explodeVersion b.pv)
  have hpr := comparePieces_spec (explodeVersion a.pr) (explodeVersion b.pr)
  rw [versionKey, versionKey, Prod.Lex.toLex_lt_toLex, Prod.Lex.toLex_lt_toLex, ← hpv.1, ← hpv.2,
    ← hpr.1]
  simp only [vercmp]
  by_cases he : (decimalVal a.pe : Int) = decimalVal b.pe
  · have hzero : (decimalVal a.pe : Int) - decimalVal b.pe = 0 := by omega
    rw [hzero, if_pos rfl]
    by_cases hv : vercmpPart a.pv b.pv = 0
    · have hv' : comparePieces (explodeVersion a.pv) (explodeVersion b.pv) = 0 := hv
      rw [if_pos hv, hv']
      simp [he, vercmpPart]
    · have hv' : comparePieces (explodeVersion a.pv) (explodeVersion b.pv) ≠ 0 := hv
      rw [if_neg hv]
      simp [he, hv', vercmpPart]
  · have hzero : (decimalVal a.pe : Int) - decimalVal b.pe ≠ 0 := by omega
    rw [if_neg hzero, if_neg hzero]
    simp only [he, false_and, or_false]
    omega

end BitBake
end OpenBmc
