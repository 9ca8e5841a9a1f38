import OpenBmc.Lib.Dict
import OpenBmc.Py.Sorted

/-!
# Copy-on-write dictionaries

A `COWDict` is a class, its copy a subclass. An immutable value is a class attribute under its key, a
mutable one under the key with `__mutable__` behind it, and a deleted one is the empty tuple. Values
are found by attribute lookup, through the ancestors and at last in the metaclass. `Plain` are the
dictionaries of the language, for comparison.
-/

namespace OpenBmc
namespace BitBake
namespace Cow

variable {α μ : Type}

/-- A value: the empty tuple, which also marks what was deleted; any other immutable value or
`None`; an object with contents of its own; a method of the metaclass. -/
inductive Value (α : Type)
  | marker
  | atom (a : α)
  | object (ref : Nat)
  | method (name : Str)
  deriving DecidableEq

/-- What is seen of a value. -/
inductive Seen (α μ : Type)
  | emptyTuple
  | atom (a : α)
  | contents (m : μ)
  | method (name : Str)
  deriving DecidableEq

def Value.see (heap : Nat → μ) : Value α → Seen α μ
  | .marker => .emptyTuple
  | .atom a => .atom a
  | .object ref => .contents (heap ref)
  | .method name => .method name

/-- Neither `None` nor one of the `ImmutableTypes`. -/
def Value.isMutable : Value α → Bool
  | .object _ | .method _ => true
  | _ => false

/-- The value on the right of an assignment `d[key] = ...`: `new m` is a new object, `same key'` is
`d[key']`. -/
inductive Arg (α μ : Type)
  | emptyTuple
  | atom (a : α)
  | new (m : μ)
  | same (key : Str)

inductive PyError
  | keyError
  | typeError
  deriving DecidableEq

def mutableSuffix : Str := "__mutable__".toList

/-- The name under which a mutable value is stored. -/
def mutableName (key : Str) : Str := key ++ mutableSuffix

/-- The attributes of the metaclass that do not start with `__`. -/
def metaNames : List Str :=
  ["copy", "cow", "has_key", "iter", "iteritems", "iterkeys", "itervalues", "mro"].map
    String.toList

def isDunder (name : Str) : Bool := "__".toList.isPrefixOf name

/-- The classes: of each its ancestors from itself on, and its own attributes. -/
structure Classes (α μ : Type) where
  count : Nat
  mro : Nat → List Nat
  names : Nat → Dict Str (Value α)
  heap : Nat → μ
  next : Nat

/-- The first class of the list that has the attribute. -/
def findName (s : Classes α μ) (name : Str) (classes : List Nat) : Option (Value α) :=
  classes.findSome? fun j => (s.names j).get? name

def attr (s : Classes α μ) (i : Nat) (name : Str) : Option (Value α) := findName s name (s.mro i)

/-- `getattr(cls, name)`: the metaclass comes last. -/
def getattr (s : Classes α μ) (i : Nat) (name : Str) : Option (Value α) :=
  match attr s i name with
  | some v => some v
  | none => if name ∈ metaNames then some (.method name) else none

/-- `setattr(cls, name, value)`. -/
def setattr (s : Classes α μ) (i : Nat) (name : Str) (v : Value α) : Classes α μ :=
  { s with names := Function.update s.names i ((s.names i).set name v) }

/-- A new object. -/
def alloc (s : Classes α μ) (m : μ) : Classes α μ :=
  { s with heap := Function.update s.heap s.next m, next := s.next + 1 }

/-- `cls.name()`: an attribute of a class hides the method of its metaclass. -/
def callable (s : Classes α μ) (i : Nat) (name : String) : Bool := (attr s i name.toList).isNone

def setItem (s : Classes α μ) (i : Nat) (key : Str) (v : Value α) : Classes α μ :=
  setattr s i (if v.isMutable then mutableName key else key) v

/-- `value.copy()`, or `copy.copy(value)`. -/
def copyValue (s : Classes α μ) : Value α → Value α × Classes α μ
  | .object ref => (.object s.next, alloc s (s.heap ref))
  | v => (v, s)

/-- `__getmutable__`; `none` is the `AttributeError`. -/
def getMutable (s : Classes α μ) (i : Nat) (key : Str) (readonly : Bool) :
    Option (Value α) × Classes α μ :=
  match (s.names i).get? (mutableName key) with
  | some v => (some v, s)
  | none =>
    match getattr s i (mutableName key) with
    | none => (none, s)
    | some v =>
      if readonly then (some v, s)
      else
        let (v, s) := copyValue s v
        (some v, setattr s i (mutableName key) v)

/-- The value unless it is the marker. -/
def unmark : Option (Value α) → Option (Value α)
  | some .marker => none
  | v => v

/-- `__getitem__`; `none` is the `KeyError`. -/
def getItem (s : Classes α μ) (i : Nat) (key : Str) (readonly : Bool) :
    Option (Value α) × Classes α μ :=
  match getattr s i key with
  | some v => (unmark (some v), s)
  | none =>
    let (v, s) := getMutable s i key readonly
    (unmark v, s)

/-- What `cls[key]`, or `cls.__getreadonly__(key)`, shows. -/
def shown (s : Classes α μ) (i : Nat) (key : Str) (readonly : Bool) : Option (Seen α μ) :=
  (getItem s i key readonly).1.map (Value.see (getItem s i key readonly).2.heap)

def delItem (s : Classes α μ) (i : Nat) (key : Str) : Classes α μ := setItem s i key .marker

/-- `key in cls`. -/
def contains (s : Classes α μ) (i : Nat) (key : Str) : Except PyError Bool :=
  if callable s i "has_key" then .ok (getItem s i key true).1.isSome else .error .typeError

/-- `cls.copy()`. -/
def copy (s : Classes α μ) (i : Nat) : Classes α μ :=
  if callable s i "copy" then
    { s with
      count := s.count + 1
      mro := Function.update s.mro s.count (s.count :: s.mro i)
      names := Function.update s.names s.count .empty }
  else s

/-- `dir(cls)`. -/
def dirNames (s : Classes α μ) (i : Nat) : List Str :=
  Py.sorted ((s.mro i).flatMap fun j => (s.names j).keys).toFinset

/-- The key of a stored name. -/
def nameKey (name : Str) : Str :=
  if mutableSuffix.isSuffixOf name then name.take (name.length - mutableSuffix.length) else name

/-- The loop of `iter`: the keys it comes to, each with what reading it shows. -/
def iterNames (i : Nat) (readonly : Bool) :
    List Str → Classes α μ → List (Str × Option (Seen α μ)) × Classes α μ
  | [], s => ([], s)
  | name :: names, s =>
    if isDunder name then iterNames i readonly names s
    else
      let seen := shown s i (nameKey name) readonly
      let (l, s) := iterNames i readonly names (getItem s i (nameKey name) readonly).2
      ((nameKey name, seen) :: l, s)

/-- `list(cls.iterkeys())`: a key is yielded before it is read. -/
def iterKeys (s : Classes α μ) (i : Nat) : Except PyError (List Str) :=
  if callable s i "iterkeys" && callable s i "iter" then
    .ok ((iterNames i false (dirNames s i) s).1.map Prod.fst)
  else .error .typeError

/-- `list(cls.iteritems())`: a key that cannot be read is passed over. -/
def iterItems (s : Classes α μ) (i : Nat) (readonly : Bool) :
    Except PyError (List (Str × Seen α μ)) :=
  if callable s i "iteritems" && callable s i "iter" then
    .ok ((iterNames i readonly (dirNames s i) s).1.filterMap fun e => e.2.map (e.1, ·))
  else .error .typeError

/-! ### Operations -/

inductive Op (α μ : Type)
  | copy (i : Nat)
  | set (i : Nat) (key : Str) (arg : Arg α μ)
  | del (i : Nat) (key : Str)
  | read (i : Nat) (key : Str) (readonly : Bool)
  | contains (i : Nat) (key : Str)
  /-- A change in place of the object `cls[key]`. -/
  | update (i : Nat) (key : Str) (f : μ → μ)
  | iterate (i : Nat) (readonly : Bool)

def setArg (s : Classes α μ) (i : Nat) (key : Str) : Arg α μ → Classes α μ
  | .emptyTuple => setItem s i key .marker
  | .atom a => setItem s i key (.atom a)
  | .new m => setItem (alloc s m) i key (.object s.next)
  | .same key' =>
    match getItem s i key' false with
    | (none, s) => s
    | (some v, s) => setItem s i key v

def updateItem (s : Classes α μ) (i : Nat) (key : Str) (f : μ → μ) : Classes α μ :=
  match getItem s i key false with
  | (some (.object ref), s) => { s with heap := Function.update s.heap ref (f (s.heap ref)) }
  | (_, s) => s

def step (s : Classes α μ) : Op α μ → Classes α μ
  | .copy i => copy s i
  | .set i key arg => setArg s i key arg
  | .del i key => delItem s i key
  | .read i key readonly => (getItem s i key readonly).2
  | .contains _ _ => s
  | .update i key f => updateItem s i key f
  | .iterate i readonly =>
    if callable s i "iter" then (iterNames i readonly (dirNames s i) s).2 else s

/-- `COWDictBase`, before anything was assigned. -/
def start (m : μ) : Classes α μ := ⟨1, fun i => [i], fun _ => .empty, fun _ => m, 0⟩

/-! ### Dictionaries of the language -/

structure PlainDict (α μ : Type) where
  items : Dict Str (Value α)
  heap : Nat → μ
  next : Nat

structure Plain (α μ : Type) where
  count : Nat
  dict : Nat → PlainDict α μ

namespace PlainDict

def shown (d : PlainDict α μ) (key : Str) : Option (Seen α μ) :=
  (d.items.get? key).map (Value.see d.heap)

def setArg (d : PlainDict α μ) (key : Str) : Arg α μ → PlainDict α μ
  | .emptyTuple => { d with items := d.items.set key .marker }
  | .atom a => { d with items := d.items.set key (.atom a) }
  | .new m =>
    ⟨d.items.set key (.object d.next), Function.update d.heap d.next m, d.next + 1⟩
  | .same key' =>
    match d.items.get? key' with
    | none => d
    | some v => { d with items := d.items.set key v }

def delItem (d : PlainDict α μ) (key : Str) : PlainDict α μ :=
  { d with items := d.items.erase key }

def updateItem (d : PlainDict α μ) (key : Str) (f : μ → μ) : PlainDict α μ :=
  match d.items.get? key with
  | some (.object ref) => { d with heap := Function.update d.heap ref (f (d.heap ref)) }
  | _ => d

end PlainDict

/-- The same operation: a copy is a deep copy, objects and all. -/
def plainStep (p : Plain α μ) : Op α μ → Plain α μ
  | .copy i => ⟨p.count + 1, Function.update p.dict p.count (p.dict i)⟩
  | .set i key arg => { p with dict := Function.update p.dict i ((p.dict i).setArg key arg) }
  | .del i key => { p with dict := Function.update p.dict i ((p.dict i).delItem key) }
  | .update i key f => { p with dict := Function.update p.dict i ((p.dict i).updateItem key f) }
  | .read .. | .contains .. | .iterate .. => p

def plainStart (m : μ) : Plain α μ := ⟨1, fun _ => ⟨.empty, fun _ => m, 0⟩⟩

end Cow
end BitBake
end OpenBmc
