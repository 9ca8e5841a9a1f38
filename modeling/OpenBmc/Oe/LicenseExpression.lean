import OpenBmc.Oe.License
import OpenBmc.Lib.AndOr

/-!
# License expressions

The grammar of license strings: `&` binds more tightly than `|`, and names side by side stand for
their `&`. What `get_elements` makes of an expression, Python reads as the same expression.
-/

namespace OpenBmc
namespace Oe
open Py

inductive Expression
  | name (n : Str)
  | group (e : Expression)
  | both (l r : Expression)
  | either (l r : Expression)
deriving DecidableEq

namespace Expression

/-- The names of the expression, in their order. -/
def names : Expression → List Str
  | name n => [n]
  | group e => e.names
  | both l r => l.names ++ r.names
  | either l r => l.names ++ r.names

/-- What the expression requires. -/
def tree : Expression → AndOr Str
  | name n => .leaf n
  | group e => e.tree
  | both l r => .both l.tree r.tree
  | either l r => .either l.tree r.tree

theorem leaves_tree : ∀ e : Expression, e.tree.leaves = e.names
  | name _ => rfl
  | group e => leaves_tree e
  | both l r => by rw [tree, AndOr.leaves, leaves_tree l, leaves_tree r, names]
  | either l r => by rw [tree, AndOr.leaves, leaves_tree l, leaves_tree r, names]

/-- The expression in Python, when `group` is what the brackets of a group make. -/
def node (group : Ast.Node → Ast.Node) : Expression → Ast.Node
  | .name n => .constant n
  | .group e => group (e.node group)
  | .both l r => .binOp (l.node group) .bitAnd (r.node group)
  | .either l r => .binOp (l.node group) .bitOr (r.node group)

end Expression

/-- A text that is a license name. -/
def IsLicenseName (n : Str) : Prop := n ≠ [] ∧ ∀ c ∈ n, isLicenseChar c

instance (n : Str) : Decidable (IsLicenseName n) :=
  decidable_of_iff (n ≠ [] ∧ n.all isLicenseChar) (and_congr_right' List.all_eq_true)

/-- `Reads k ps e`: the pieces `ps` are an operand of rank `k` that is the expression `e`. -/
inductive Reads : Ast.Rank → List Str → Expression → Prop
  | name {n : Str} : IsLicenseName n → Reads .factor [n] (.name n)
  | group {ps : List Str} {e : Expression} :
    Reads .ors ps e → Reads .factor (['('] :: ps ++ [[')']]) (.group e)
  | factor {ps : List Str} {e : Expression} : Reads .factor ps e → Reads .ands ps e
  | and {ps qs : List Str} {l r : Expression} :
    Reads .ands ps l → Reads .factor qs r → Reads .ands (ps ++ ['&'] :: qs) (.both l r)
  | sideBySide {ps : List Str} {m n : Str} {l : Expression} : Reads .ands (ps ++ [m]) l →
    IsLicenseName m → IsLicenseName n → Reads .ands (ps ++ [m] ++ [n]) (.both l (.name n))
  | ands {ps : List Str} {e : Expression} : Reads .ands ps e → Reads .ors ps e
  | or {ps qs : List Str} {l r : Expression} :
    Reads .ors ps l → Reads .ands qs r → Reads .ors (ps ++ ['|'] :: qs) (.either l r)

/-- A license string that is an expression. -/
def IsExpression (licensestr : Str) (e : Expression) : Prop :=
  Reads .ors (licensePieces licensestr) e

/-! ### `get_elements` -/

theorem isLicense_of_name {n : Str} (h : IsLicenseName n) : isLicense n := by
  have htake : n.takeWhile isLicenseChar = n := List.takeWhile_eq_self_iff.2 h.2
  have hdrop : n.dropWhile isLicenseChar = [] := List.dropWhile_eq_nil_iff.2 h.2
  simp [isLicense, htake, hdrop, h.1]

theorem not_newline_of_name {n : Str} (h : IsLicenseName n) : '\n' ∉ n :=
  fun hc => absurd (h.2 '\n' hc) (by decide)

variable {prev : Option Str} {ps qs : List Str} {ts us : List Ast.Token} {k : Ast.Rank} {e : Expression}

theorem elementsFrom_cons {p : Str} : elementsFrom prev (p :: ps) = .ok ts ↔
    ∃ new rest, newElements prev p = .ok new ∧ elementsFrom (some p) ps = .ok rest ∧
      ts = new ++ rest := by
  rw [elementsFrom]
  cases newElements prev p with
  | error err => simp [bind, Except.bind]
  | ok new => cases elementsFrom (some p) ps <;> simp [bind, Except.bind, eq_comm]

theorem elementsFrom_append {a b : List Str} (ha : elementsFrom prev a = .ok ts)
    (hb : elementsFrom (a.getLast?.or prev) b = .ok us) :
    elementsFrom prev (a ++ b) = .ok (ts ++ us) := by
  induction a generalizing prev ts with
  | nil =>
    cases ha
    simpa using hb
  | cons p a ih =>
    obtain ⟨new, rest, hnew, hrest, rfl⟩ := elementsFrom_cons.1 ha
    have hlast : (p :: a).getLast?.or prev = a.getLast?.or (some p) := by
      cases a <;> simp [List.getLast?_cons]
    rw [hlast] at hb
    exact elementsFrom_cons.2 ⟨new, rest ++ us, hnew, ih hrest hb, by rw [List.append_assoc]⟩

theorem elementsFrom_operator {c : Char} {t : Ast.Token} (hl : ¬ isLicense [c])
    (ht : operatorToken [c] = some t) (h : elementsFrom (some [c]) ps = .ok ts) :
    elementsFrom prev ([c] :: ps) = .ok (t :: ts) := by
  have hnew : newElements prev [c] = .ok [t] := by rw [newElements, if_neg hl, ht]
  exact elementsFrom_cons.2 ⟨[t], ts, hnew, h, rfl⟩

theorem elementsFrom_name {n : Str} (h : IsLicenseName n) :
    elementsFrom prev [n] =
      .ok ((if prev.any isLicense then [.amp] else []) ++ [.string n]) := by
  have hnew : newElements prev n = _ := if_pos (isLicense_of_name h)
  exact elementsFrom_cons.2 ⟨_, [], hnew, rfl, (List.append_nil _).symm⟩

/-! ### What Python reads -/

/-- A pair of brackets for groups: the token that stands for each token, and the node of a group. -/
structure Grouping where
  token : Ast.Token → Ast.Token
  node : Ast.Node → Ast.Node
  string : ∀ s, token (.string s) = .string s
  amp : token .amp = .amp
  bar : token .bar = .bar
  group : ∀ {ts n}, Ast.Parsed ts .ors n →
    Ast.Parsed (token .lpar :: ts ++ [token .rpar]) .factor (node n)

/-- The parentheses of the string. -/
def roundGrouping : Grouping where
  token := id
  node := id
  string _ := rfl
  amp := rfl
  bar := rfl
  group h := h.par

/-- Python reads the elements of an expression as the expression. -/
theorem Reads.parsed (g : Grouping) (h : Reads k ps e) :
    ∀ prev : Option Str, ¬ prev.any isLicense →
      ∃ ts, elementsFrom prev ps = .ok ts ∧ Ast.Parsed (ts.map g.token) k (e.node g.node) := by
  induction h with
  | name hn =>
    intro prev hp
    refine ⟨_, elementsFrom_name hn, ?_⟩
    rw [if_neg hp, List.nil_append, List.map_singleton, g.string]
    exact .string (not_newline_of_name hn)
  | group _ ih =>
    intro prev hp
    obtain ⟨ts, hts, hparsed⟩ := ih (some ['(']) (by decide)
    have hopen : elementsFrom prev (['('] :: _) = _ := elementsFrom_operator (by decide) rfl hts
    have hclose : ∀ q : Option Str, elementsFrom q [[')']] = .ok [.rpar] := fun q =>
      elementsFrom_operator (by decide) rfl rfl
    refine ⟨_, elementsFrom_append hopen (hclose _), ?_⟩
    rw [List.map_append, List.map_cons, List.map_singleton]
    exact g.group hparsed
  | factor _ ih =>
    intro prev hp
    obtain ⟨ts, hts, hparsed⟩ := ih prev hp
    exact ⟨ts, hts, hparsed.factor⟩
  | and _ _ ihl ihr =>
    intro prev hp
    obtain ⟨ts, hts, hl⟩ := ihl prev hp
    obtain ⟨us, hus, hr⟩ := ihr (some ['&']) (by decide)
    refine ⟨_, elementsFrom_append hts (elementsFrom_operator (by decide) rfl hus), ?_⟩
    rw [List.map_append, List.map_cons, g.amp]
    exact hl.and hr
  | @sideBySide ps m n l _ hm hn ih =>
    intro prev hp
    obtain ⟨ts, hts, hl⟩ := ih prev hp
    have hn' : elementsFrom ((ps ++ [m]).getLast?.or prev) [n] = .ok [.amp, .string n] := by
      have hlast : ((some m).or prev).any isLicense := isLicense_of_name hm
      rw [List.getLast?_concat, elementsFrom_name hn, if_pos hlast]
      rfl
    refine ⟨_, elementsFrom_append hts hn', ?_⟩
    rw [List.map_append, List.map_cons, List.map_singleton, g.amp, g.string]
    exact hl.and (.string (not_newline_of_name hn))
  | ands _ ih =>
    intro prev hp
    obtain ⟨ts, hts, hparsed⟩ := ih prev hp
    exact ⟨ts, hts, hparsed.ands⟩
  | or _ _ ihl ihr =>
    intro prev hp
    obtain ⟨ts, hts, hl⟩ := ihl prev hp
    obtain ⟨us, hus, hr⟩ := ihr (some ['|']) (by decide)
    refine ⟨_, elementsFrom_append hts (elementsFrom_operator (by decide) rfl hus), ?_⟩
    rw [List.map_append, List.map_cons, g.bar]
    exact hl.or hr

/-- The elements of a license string that is an expression, and the node that they are. -/
theorem parse_elements (g : Grouping) {licensestr : Str} (h : IsExpression licensestr e) :
    ∃ ts, getElements licensestr = .ok ts ∧
      Ast.parse (ts.map g.token) = some (some (e.node g.node)) := by
  obtain ⟨ts, hts, hparsed⟩ := h.parsed g none (by decide)
  exact ⟨ts, hts, Ast.parse_of_parsed hparsed⟩

end Oe
end OpenBmc
