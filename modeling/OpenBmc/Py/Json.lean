import OpenBmc.Lib.Dict
import OpenBmc.Py.Str

/-!
# Python values of a JSON document

What `json.load` returns, and what the service does with it: `str(v)`, truth value, `v.get(k, d)`,
iteration, and the reordering a `json.dump(.., sort_keys=True)` followed by `json.load` causes.
-/

namespace OpenBmc
namespace Py

/-- Exceptions. `jsonDecodeError` is `json.load`'s; `other` stands for what neither `urllib` nor
this program names (a read timeout, a reset connection). -/
inductive PyError
  | valueError (msg : Str)
  | keyError (key : Str)
  | attributeError (name : Str)
  | typeError (msg : Str)
  | jsonDecodeError
  | httpError (code : Nat) (msg : Str)
  | urlError (reason : Str)
  | osError (msg : Str)
  | other (msg : Str)
deriving DecidableEq

/-- A JSON value as a Python value; a float is given by its `repr`, an object by its items in
order. -/
inductive Json
  | null
  | bool (b : Bool)
  | int (i : Int)
  | float (repr : Str)
  | str (s : Str)
  | arr (elems : List Json)
  | obj (items : List (Str × Json))

/-! ### `repr` and `str` -/

def hexPad (width n : Nat) : Str :=
  let digits := Nat.toDigits 16 n
  List.replicate (width - digits.length) '0' ++ digits

section Repr
variable [UnicodeData]

def reprChar (quote c : Char) : Str :=
  if c = quote ∨ c = '\\' then ['\\', c]
  else if c = '\n' then ['\\', 'n']
  else if c = '\r' then ['\\', 'r']
  else if c = '\t' then ['\\', 't']
  else if UnicodeData.isPrintable c then [c]
  else if c.toNat < 0x100 then ['\\', 'x'] ++ hexPad 2 c.toNat
  else if c.toNat < 0x10000 then ['\\', 'u'] ++ hexPad 4 c.toNat
  else ['\\', 'U'] ++ hexPad 8 c.toNat

/-- `repr` of a string: double quotes only when it holds a single and no double quote. -/
def reprStr (s : Str) : Str :=
  let quote := if '\'' ∈ s ∧ '"' ∉ s then '"' else '\''
  quote :: (s.flatMap (reprChar quote) ++ [quote])

mutual
def Json.repr : Json → Str
  | .null => "None"
  | .bool true => "True"
  | .bool false => "False"
  | .int i => intStr i
  | .float r => r
  | .str s => reprStr s
  | .arr elems => '[' :: (reprElems elems ++ [']'])
  | .obj items => '{' :: (reprItems items ++ ['}'])
def reprElems : List Json → Str
  | [] => []
  | [v] => v.repr
  | v :: vs => v.repr ++ ([',', ' '] ++ reprElems vs)
def reprItems : List (Str × Json) → Str
  | [] => []
  | [(k, v)] => reprStr k ++ ([':', ' '] ++ v.repr)
  | (k, v) :: vs => reprStr k ++ ([':', ' '] ++ (v.repr ++ ([',', ' '] ++ reprItems vs)))
end

/-- `str(v)`. -/
def Json.toStr : Json → Str
  | .str s => s
  | v => v.repr

end Repr

namespace Json

/-- `bool(v)`. -/
def truthy : Json → Bool
  | .null => false
  | .bool b => b
  | .int i => i ≠ 0
  | .float r => r ≠ "0.0" ∧ r ≠ "-0.0"
  | .str s => s ≠ []
  | .arr elems => !elems.isEmpty
  | .obj items => !items.isEmpty

/-- `v.get(key, default)`: only a dictionary has the method. -/
def get (v : Json) (key : Str) (default : Json) : Except PyError Json :=
  match v with
  | .obj items => .ok ((items.lookup key).getD default)
  | _ => .error (.attributeError "get")

/-- What `for x in v` runs over. -/
def iter : Json → Except PyError (List Json)
  | .arr elems => .ok elems
  | .obj items => .ok (items.map fun e => .str e.1)
  | .str s => .ok (s.map fun c => .str [c])
  | _ => .error (.typeError "object is not iterable")

theorem get_ok {v : Json} {key : Str} {default w : Json} (h : v.get key default = .ok w) :
    ∃ items, v = .obj items := by
  cases v <;> simp [get] at h ⊢

theorem get_obj (items : List (Str × Json)) (key : Str) (default : Json) :
    (Json.obj items).get key default = .ok ((items.lookup key).getD default) := rfl

theorem get_isOk {v : Json} {key key' : Str} {default default' w : Json}
    (h : v.get key default = .ok w) : ∃ w', v.get key' default' = .ok w' := by
  obtain ⟨items, rfl⟩ := get_ok h
  exact ⟨_, rfl⟩

mutual
/-- The value read back after `json.dump(v, .., sort_keys=True)`. -/
def sortKeys : Json → Json
  | .arr elems => .arr (sortElems elems)
  | .obj items => .obj ((sortItems items).insertionSort fun a b => a.1 ≤ b.1)
  | v => v
def sortElems : List Json → List Json
  | [] => []
  | v :: vs => v.sortKeys :: sortElems vs
def sortItems : List (Str × Json) → List (Str × Json)
  | [] => []
  | (k, v) :: vs => (k, v.sortKeys) :: sortItems vs
end

mutual
/-- Every object inside lists its keys in ascending order. -/
def KeysSorted : Json → Prop
  | .arr elems => ElemsSorted elems
  | .obj items => (items.map Prod.fst).Pairwise (· ≤ ·) ∧ ItemsSorted items
  | _ => True
def ElemsSorted : List Json → Prop
  | [] => True
  | v :: vs => v.KeysSorted ∧ ElemsSorted vs
def ItemsSorted : List (Str × Json) → Prop
  | [] => True
  | (_, v) :: vs => v.KeysSorted ∧ ItemsSorted vs
end

mutual
theorem sortKeys_of_keysSorted : ∀ v : Json, v.KeysSorted → v.sortKeys = v
  | .null, _ | .bool _, _ | .int _, _ | .float _, _ | .str _, _ => by simp [sortKeys]
  | .arr elems, h => by
    rw [KeysSorted] at h
    rw [sortKeys, sortElems_of_sorted elems h]
  | .obj items, h => by
    rw [KeysSorted] at h
    rw [sortKeys, sortItems_of_sorted items h.2, List.Pairwise.insertionSort_eq]
    exact List.pairwise_map.1 h.1
theorem sortElems_of_sorted : ∀ vs : List Json, ElemsSorted vs → sortElems vs = vs
  | [], _ => by simp [sortElems]
  | v :: vs, h => by
    rw [ElemsSorted] at h
    rw [sortElems, sortKeys_of_keysSorted v h.1, sortElems_of_sorted vs h.2]
theorem sortItems_of_sorted : ∀ vs : List (Str × Json), ItemsSorted vs → sortItems vs = vs
  | [], _ => by simp [sortItems]
  | (k, v) :: vs, h => by
    rw [ItemsSorted] at h
    rw [sortItems, sortKeys_of_keysSorted v h.1, sortItems_of_sorted vs h.2]
end

theorem itemsSorted_iff {items : List (Str × Json)} :
    ItemsSorted items ↔ ∀ e ∈ items, e.2.KeysSorted := by
  induction items with
  | nil => simp [ItemsSorted]
  | cons e items ih => simp [ItemsSorted, ih]

mutual
theorem keysSorted_sortKeys : ∀ v : Json, v.sortKeys.KeysSorted
  | .null | .bool _ | .int _ | .float _ | .str _ => by simp [sortKeys, KeysSorted]
  | .arr elems => by
    rw [sortKeys, KeysSorted]
    exact elemsSorted_sortElems elems
  | .obj items => by
    rw [sortKeys, KeysSorted, List.pairwise_map]
    refine ⟨List.pairwise_insertionSort _ _, itemsSorted_iff.2 fun e he => ?_⟩
    exact itemsSorted_iff.1 (itemsSorted_sortItems items) e ((List.mem_insertionSort _).1 he)
theorem elemsSorted_sortElems : ∀ vs : List Json, ElemsSorted (sortElems vs)
  | [] => by simp [sortElems, ElemsSorted]
  | v :: vs => by
    rw [sortElems, ElemsSorted]
    exact ⟨keysSorted_sortKeys v, elemsSorted_sortElems vs⟩
theorem itemsSorted_sortItems : ∀ vs : List (Str × Json), ItemsSorted (sortItems vs)
  | [] => by simp [sortItems, ItemsSorted]
  | (k, v) :: vs => by
    rw [sortItems, ItemsSorted]
    exact ⟨keysSorted_sortKeys v, itemsSorted_sortItems vs⟩
end

theorem sortKeys_sortKeys (v : Json) : v.sortKeys.sortKeys = v.sortKeys :=
  sortKeys_of_keysSorted _ (keysSorted_sortKeys v)

theorem length_sortItems (items : List (Str × Json)) : (sortItems items).length = items.length := by
  induction items with
  | nil => rfl
  | cons e items ih => simp [sortItems, ih]

theorem truthy_sortKeys (v : Json) : v.sortKeys.truthy = v.truthy := by
  cases v with
  | arr elems => cases elems <;> simp [sortKeys, truthy, sortElems]
  | obj items =>
    have hlen := ((sortItems items).perm_insertionSort fun a b => a.1 ≤ b.1).length_eq
    rw [length_sortItems] at hlen
    have hnil : (sortItems items).insertionSort (fun a b => a.1 ≤ b.1) = [] ↔ items = [] := by
      rw [← List.length_eq_zero_iff, hlen, List.length_eq_zero_iff]
    rw [sortKeys, truthy, truthy, Bool.eq_iff_iff]
    simp [hnil]
  | _ => rfl

end Json
end Py
end OpenBmc
