/-
  TillLang.Json.Basic — JSON values.

  Integers and doubles are told apart by how they are written, and the fields of an
  object keep the order in which they first appeared. Three views are used elsewhere:
  - `inspect`, the text of a value in messages and logs, and `text`, which differs from it
    for texts only;
  - `typeName`, the word messages use for the kind of a value;
  - `same`, equality by value: truth values and doubles count as the numbers they are, the
    order of fields does not matter, and the word for the result of an operation without a
    result means one and the same value wherever it stands.
-/

import TillLang.Decimal.Layout
import TillLang.Text.Inspect

namespace TillLang

inductive Json where
  | null
  | bool (b : Bool)
  | int (n : Int)
  | float (x : Float)
  | str (s : String)
  | list (items : List Json)
  | object (fields : List (String × Json))
  deriving Inhabited

namespace Json

def nat (n : Nat) : Json := .int n

instance : Coe String Json := ⟨.str⟩

/-- The fields with `key` bound to `value`; a key that is already there keeps its place. -/
def setField (fields : List (String × Json)) (key : String) (value : Json) :
    List (String × Json) :=
  if fields.any (·.1 == key) then fields.map fun f => if f.1 == key then (key, value) else f
  else fields ++ [(key, value)]

def field? (fields : List (String × Json)) (key : String) : Option Json :=
  (fields.find? (·.1 == key)).map (·.2)

/-- The word messages use for the kind of a value. -/
def typeName : Json → String
  | .null => "NoneType"
  | .bool _ => "bool"
  | .int _ => "int"
  | .float _ => "float"
  | .str _ => "str"
  | .list _ => "list"
  | .object _ => "dict"

/-! ## Text -/

mutual

/-- The text of a value in messages and logs. -/
def inspect : Json → String
  | .null => "None"
  | .bool true => "True"
  | .bool false => "False"
  | .int n => toString n
  | .float x => Decimal.inspectNumber x
  | .str s => Text.inspect s
  | .list items => "[" ++ ", ".intercalate (inspectItems items) ++ "]"
  | .object fields => "\x7b" ++ ", ".intercalate (inspectFields fields) ++ "\x7d"

def inspectItems : List Json → List String
  | [] => []
  | j :: rest => inspect j :: inspectItems rest

def inspectFields : List (String × Json) → List String
  | [] => []
  | (key, j) :: rest => (Text.inspect key ++ ": " ++ inspect j) :: inspectFields rest

end

/-- The text of a value on its own: a text stands for itself. -/
def text : Json → String
  | .str s => s
  | j => j.inspect

/-! ## Equality by value -/

/-- Whether a double is a given integer. -/
def floatIsInt (x : Float) (n : Int) : Bool :=
  match Decimal.Quantity.ofFloat x with
  | .finite negative m =>
    match m.toNat? with
    | some k => (if negative then -(k : Int) else k) == n
    | none => false
  | _ => false

/-- The integer a whole number or a truth value counts as. -/
def int? : Json → Option Int
  | .bool b => some (if b then 1 else 0)
  | .int n => some n
  | _ => none

/-- Whether two doubles are equal, or both the result of an operation without a result. -/
def sameFloat (x y : Float) : Bool :=
  x == y || (Decimal.Quantity.ofFloat x == .undefined && Decimal.Quantity.ofFloat y == .undefined)

def sameNumber : Json → Json → Bool
  | .float x, .float y => sameFloat x y
  | .float x, b => b.int?.any (floatIsInt x)
  | a, .float y => a.int?.any (floatIsInt y)
  | a, b => a.int?.any fun n => b.int? == some n

mutual

/-- Equality by value. -/
def same : Json → Json → Bool
  | .null, .null => true
  | .str s, .str t => s == t
  | .list a, .list b => sameItems a b
  | .object a, .object b => a.length == b.length && sameFields a b
  | a, b => sameNumber a b

def sameItems : List Json → List Json → Bool
  | [], [] => true
  | a :: as, b :: bs => same a b && sameItems as bs
  | _, _ => false

/-- Whether every field on the left has its match on the right. -/
def sameFields : List (String × Json) → List (String × Json) → Bool
  | [], _ => true
  | (key, a) :: rest, right =>
    (match field? right key with
      | some b => same a b
      | none => false) && sameFields rest right

end

/-- Whether a value counts as true: zero and the empty ones do not. -/
def truthy : Json → Bool
  | .null => false
  | .bool b => b
  | .int n => n != 0
  | .float x => x != 0
  | .str s => s != ""
  | .list items => !items.isEmpty
  | .object fields => !fields.isEmpty

end Json

end TillLang
