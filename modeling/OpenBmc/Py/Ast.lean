import OpenBmc.Py.Str

/-!
# `ast.parse`

Python's grammar on one line of string literals, `&`, `|` and brackets. `&` binds more tightly than
`|`, both associate to the left, and brackets behind an operand call or subscribe it. The parser is
the one of an LR grammar: it goes through the line once and keeps on a stack what is still open.
-/

namespace OpenBmc
namespace Py
namespace Ast

inductive Token
  | string (value : Str)
  | amp
  | bar
  | lpar
  | rpar
  | lsqb
  | rsqb
deriving DecidableEq

inductive BinOperator
  | bitAnd
  | bitOr
deriving DecidableEq

/-- An expression. Parentheses without and with one argument are different constructors here, and so
are the two lists. -/
inductive Node
  | constant (value : Str)
  | binOp (left : Node) (op : BinOperator) (right : Node)
  | call (func : Node)
  | callArg (func arg : Node)
  | subscript (value slice : Node)
  | emptyTuple
  | emptyList
  | list (elt : Node)
deriving DecidableEq

/-- The operand that was read last. String literals in a row are one literal. -/
inductive Operand
  | missing
  | literal (value : Str)
  | closed (n : Node)
deriving DecidableEq

def Operand.node? : Operand → Option Node
  | .missing => none
  | .literal value => some (.constant value)
  | .closed n => some n

/-- What was read since the last bracket that is still open: what stands on the left of the last `|`
and of the last `&` after it, and the operand behind them. -/
structure Level where
  ors : Option Node
  ands : Option Node
  operand : Operand
deriving DecidableEq

def Level.empty : Level := ⟨none, none, .missing⟩

/-- The operands joined by `&`, when `n` is the last one. -/
def joinAnd (ands : Option Node) (n : Node) : Node :=
  match ands with
  | some a => .binOp a .bitAnd n
  | none => n

/-- The operands joined by `|`, when `n` is the last one. -/
def joinOr (ors : Option Node) (n : Node) : Node :=
  match ors with
  | some o => .binOp o .bitOr n
  | none => n

/-- What stands between two brackets: nothing, or an expression. -/
def Level.close (l : Level) : Option (Option Node) :=
  match l.operand.node? with
  | some n => some (some (joinOr l.ors (joinAnd l.ands n)))
  | none => if l = Level.empty then some none else none

/-- What an opening bracket means. -/
inductive Opener
  | group
  | call (func : Node)
  | list
  | subscript (value : Node)
deriving DecidableEq

structure Parser where
  level : Level
  outer : List (Opener × Level)
deriving DecidableEq

/-- The node that a closing bracket completes. -/
def closePar : Opener → Option Node → Option Node
  | .group, some n => some n
  | .group, none => some .emptyTuple
  | .call f, some n => some (.callArg f n)
  | .call f, none => some (.call f)
  | _, _ => none

def closeSqb : Opener → Option Node → Option Node
  | .list, some n => some (.list n)
  | .list, none => some .emptyList
  | .subscript v, some n => some (.subscript v n)
  | _, _ => none

def Parser.close (p : Parser) (complete : Opener → Option Node → Option Node) : Option Parser :=
  match p.outer with
  | (o, l) :: outer => do
    let inner ← p.level.close
    let n ← complete o inner
    some ⟨{ l with operand := .closed n }, outer⟩
  | [] => none

/-- The next token; `none` is a `SyntaxError`. A literal does not go over the end of a line. -/
def Parser.step (p : Parser) : Token → Option Parser
  | .string value =>
    if '\n' ∈ value then none
    else match p.level.operand with
      | .missing => some { p with level := { p.level with operand := .literal value } }
      | .literal s => some { p with level := { p.level with operand := .literal (s ++ value) } }
      | .closed _ => none
  | .amp => do
    let n ← p.level.operand.node?
    some { p with level := ⟨p.level.ors, some (joinAnd p.level.ands n), .missing⟩ }
  | .bar => do
    let n ← p.level.operand.node?
    some { p with level := ⟨some (joinOr p.level.ors (joinAnd p.level.ands n)), none, .missing⟩ }
  | .lpar =>
    let o := match p.level.operand.node? with
      | some f => .call f
      | none => .group
    some ⟨Level.empty, (o, p.level) :: p.outer⟩
  | .lsqb =>
    let o := match p.level.operand.node? with
      | some v => .subscript v
      | none => .list
    some ⟨Level.empty, (o, p.level) :: p.outer⟩
  | .rpar => p.close closePar
  | .rsqb => p.close closeSqb

def Parser.start : Parser := ⟨Level.empty, []⟩

def Parser.run (p : Parser) (ts : List Token) : Option Parser := ts.foldlM Parser.step p

@[simp] theorem Parser.run_nil (p : Parser) : p.run [] = some p := rfl

@[simp] theorem Parser.run_cons (p : Parser) (t : Token) (ts : List Token) :
    p.run (t :: ts) = (p.step t).bind fun q => q.run ts := rfl

theorem Parser.run_append (p : Parser) (ts us : List Token) :
    p.run (ts ++ us) = (p.run ts).bind fun q => q.run us := List.foldlM_append

/-- How many brackets a token opens. -/
def nesting : Token → Int
  | .lpar | .lsqb => 1
  | .rpar | .rsqb => -1
  | _ => 0

theorem Parser.length_outer_close {p q : Parser} {complete : Opener → Option Node → Option Node}
    (h : p.close complete = some q) : (q.outer.length : Int) = p.outer.length - 1 := by
  rw [Parser.close] at h
  split at h
  · rename_i o l outer hp
    obtain ⟨inner, -, h⟩ := Option.bind_eq_some_iff.1 h
    obtain ⟨n, -, h⟩ := Option.bind_eq_some_iff.1 h
    cases h
    simp [hp]
  · cases h

theorem Parser.length_outer_step {p q : Parser} {t : Token} (h : p.step t = some q) :
    (q.outer.length : Int) = p.outer.length + nesting t := by
  cases t with
  | string value =>
    rw [Parser.step] at h
    split_ifs at h
    split at h <;> cases h <;> simp [nesting]
  | amp =>
    obtain ⟨n, -, h⟩ := Option.bind_eq_some_iff.1 h
    cases h
    simp [nesting]
  | bar =>
    obtain ⟨n, -, h⟩ := Option.bind_eq_some_iff.1 h
    cases h
    simp [nesting]
  | lpar =>
    cases h
    simp [nesting]
  | lsqb =>
    cases h
    simp [nesting]
  | rpar => exact length_outer_close h
  | rsqb => exact length_outer_close h

theorem Parser.length_outer_run : ∀ {ts : List Token} {p q : Parser}, p.run ts = some q →
    (q.outer.length : Int) = p.outer.length + (ts.map nesting).sum
  | [], p, q, h => by
    cases h
    simp
  | t :: ts, p, q, h => by
    obtain ⟨r, hr, h⟩ := Option.bind_eq_some_iff.1 h
    rw [length_outer_run h, length_outer_step hr, List.map_cons, List.sum_cons, add_assoc]

/-! ### The grammar -/

/-- The operand of a `&`, the operands that `&` joins, and an expression. -/
inductive Rank
  | factor
  | ands
  | ors

/-- Where an operand of this rank may stand, the parser reads `ts` as the operand `n`. -/
def Parsed (ts : List Token) : Rank → Node → Prop
  | .factor, n => ∃ r : Operand, r.node? = some n ∧ ∀ ors ands outer,
      Parser.run ⟨⟨ors, ands, .missing⟩, outer⟩ ts = some ⟨⟨ors, ands, r⟩, outer⟩
  | .ands, n => ∃ (ands : Option Node) (r : Operand) (m : Node), r.node? = some m ∧
      joinAnd ands m = n ∧ ∀ ors outer,
      Parser.run ⟨⟨ors, none, .missing⟩, outer⟩ ts = some ⟨⟨ors, ands, r⟩, outer⟩
  | .ors, n => ∃ l : Level, l.close = some (some n) ∧ ∀ outer,
      Parser.run ⟨.empty, outer⟩ ts = some ⟨l, outer⟩

variable {ts us : List Token} {l r : Node}

theorem close_eq_some {lv : Level} {n : Node} (h : lv.close = some (some n)) :
    ∃ m, lv.operand.node? = some m ∧ joinOr lv.ors (joinAnd lv.ands m) = n := by
  rw [Level.close] at h
  split at h
  · rename_i m hm
    exact ⟨m, hm, by simpa using h⟩
  · split at h <;> simp at h

theorem Parsed.string {s : Str} (h : '\n' ∉ s) : Parsed [.string s] .factor (.constant s) :=
  ⟨.literal s, rfl, fun ors ands outer => by simp [Parser.step, h]⟩

theorem Parsed.factor (h : Parsed ts .factor l) : Parsed ts .ands l := by
  obtain ⟨r, hr, hrun⟩ := h
  exact ⟨none, r, l, hr, rfl, fun ors outer => hrun ors none outer⟩

theorem Parsed.and (hl : Parsed ts .ands l) (hr : Parsed us .factor r) :
    Parsed (ts ++ .amp :: us) .ands (.binOp l .bitAnd r) := by
  obtain ⟨ands, ol, m, hm, rfl, hts⟩ := hl
  obtain ⟨or, hor, hus⟩ := hr
  refine ⟨some (joinAnd ands m), or, r, hor, rfl, fun ors outer => ?_⟩
  rw [Parser.run_append, hts, Option.bind_some, Parser.run_cons, Parser.step]
  simp only [hm, Option.bind_eq_bind, Option.bind_some]
  exact hus _ _ _

theorem Parsed.ands (h : Parsed ts .ands l) : Parsed ts .ors l := by
  obtain ⟨ands, o, m, hm, rfl, hts⟩ := h
  exact ⟨⟨none, ands, o⟩, by simp [Level.close, hm, joinOr], fun outer => hts none outer⟩

theorem Parsed.or (hl : Parsed ts .ors l) (hr : Parsed us .ands r) :
    Parsed (ts ++ .bar :: us) .ors (.binOp l .bitOr r) := by
  obtain ⟨lv, hlv, hts⟩ := hl
  obtain ⟨m, hm, rfl⟩ := close_eq_some hlv
  obtain ⟨ands, o, n, hn, rfl, hus⟩ := hr
  refine ⟨⟨some (joinOr lv.ors (joinAnd lv.ands m)), ands, o⟩, by simp [Level.close, hn, joinOr],
    fun outer => ?_⟩
  rw [Parser.run_append, hts, Option.bind_some, Parser.run_cons, Parser.step]
  simp only [hm, Option.bind_eq_bind, Option.bind_some]
  exact hus _ _

/-- An expression in parentheses is a group. -/
theorem Parsed.par (h : Parsed ts .ors l) : Parsed (.lpar :: ts ++ [.rpar]) .factor l := by
  obtain ⟨lv, hlv, hts⟩ := h
  refine ⟨.closed l, rfl, fun ors ands outer => ?_⟩
  rw [List.cons_append, Parser.run_cons, Parser.step]
  simp only [Operand.node?, Option.bind_some]
  rw [Parser.run_append, hts, Option.bind_some]
  simp [Parser.step, Parser.close, hlv, closePar]

/-- An expression in brackets is a list. -/
theorem Parsed.sqb (h : Parsed ts .ors l) : Parsed (.lsqb :: ts ++ [.rsqb]) .factor (.list l) := by
  obtain ⟨lv, hlv, hts⟩ := h
  refine ⟨.closed (.list l), rfl, fun ors ands outer => ?_⟩
  rw [List.cons_append, Parser.run_cons, Parser.step]
  simp only [Operand.node?, Option.bind_some]
  rw [Parser.run_append, hts, Option.bind_some]
  simp [Parser.step, Parser.close, hlv, closeSqb]

/-- `ast.parse(' '.join(tokens))`: the expression of the line, if there is one; `none` is a
`SyntaxError`. -/
def parse (ts : List Token) : Option (Option Node) := do
  let p ← Parser.start.run ts
  if p.outer = [] then p.level.close else none

theorem parse_of_parsed {ts : List Token} {n : Node} (h : Parsed ts .ors n) :
    parse ts = some (some n) := by
  obtain ⟨l, hl, hts⟩ := h
  simp [parse, Parser.start, hts, hl]

end Ast
end Py
end OpenBmc
