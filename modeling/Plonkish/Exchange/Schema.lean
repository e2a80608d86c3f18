import Plonkish.Exchange.Tree

/-! The shapes that exchanged values must have, and reading a tree under a shape. Reading checks the
    shape and nothing else: it drops fields that the shape does not name, demands all that it does name, and
    answers the tree in its written form. A record may also be given as the list of its field values, and a
    variant without fields as a record of its name and null. -/

namespace Plonkish
namespace Exchange

/-- The shape of an exchanged value. -/
inductive Schema where
  | bool
  /-- An integer from zero to before `2 ^ 64`. -/
  | count
  /-- An integer from `-2 ^ 31` to before `2 ^ 31`. -/
  | rotation
  | list (item : Schema)
  | record (fields : List (String × Schema))
  /-- One of several variants; a variant may have fields of its own. -/
  | choice (variants : List (String × Option (List (String × Schema))))

namespace Schema

def isCount (n : Int) : Bool := 0 ≤ n ∧ n < Int.ofNat (1 <<< 64)

def isRotation (n : Int) : Bool := -Int.ofNat (1 <<< 31) ≤ n ∧ n < Int.ofNat (1 <<< 31)

mutual

/-- The written form of a tree that has a shape. -/
def read : Schema → Tree → Option Tree
  | bool, .bool b => some (.bool b)
  | count, .int n => if isCount n then some (.int n) else none
  | rotation, .int n => if isRotation n then some (.int n) else none
  | list item, .list items => (items.mapM item.read).map .list
  | record fields, .record given => (readFields fields given).map .record
  | record fields, .list items => (readItems fields items).map .record
  | choice variants, .text name => readUnit variants name
  | choice variants, .record [(name, tree)] => readVariant variants name tree
  | _, _ => none

/-- The fields of a record, each looked up by its name. -/
def readFields : List (String × Schema) → List (String × Tree) → Option (List (String × Tree))
  | [], _ => some []
  | (name, schema) :: rest, given => do
    let tree ← schema.read (← Tree.field? given name)
    let others ← readFields rest given
    some ((name, tree) :: others)

/-- The fields of a record, given in order. -/
def readItems : List (String × Schema) → List Tree → Option (List (String × Tree))
  | [], [] => some []
  | (name, schema) :: rest, item :: items => do
    let tree ← schema.read item
    let others ← readItems rest items
    some ((name, tree) :: others)
  | _, _ => none

/-- A variant without fields, by its name. -/
def readUnit : List (String × Option (List (String × Schema))) → String → Option Tree
  | [], _ => none
  | (variant, fields) :: rest, name =>
    if variant = name then
      match fields with
      | none => some (.text name)
      | some _ => none
    else readUnit rest name

/-- A variant with what stands under its name. -/
def readVariant : List (String × Option (List (String × Schema))) → String → Tree → Option Tree
  | [], _, _ => none
  | (variant, fields) :: rest, name, tree =>
    if variant = name then
      match fields, tree with
      | none, .null => some (.text name)
      | some fields, .record given =>
        (readFields fields given).map fun fs => .record [(name, .record fs)]
      | _, _ => none
    else readVariant rest name tree

end

end Schema
end Exchange
end Plonkish
