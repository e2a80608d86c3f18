import Plonkish.Circuit
import Plonkish.Lookup.Referenced
import Plonkish.Lookup.Refusal

/-! The steps that every packing is made of: handing out a selector, writing a grid into constant columns,
    and registering a subtable under its id. -/

namespace Plonkish
namespace Lookup

/-- The circuit as changed so far, with a result or the reason for stopping. -/
abbrev Outcome (α : Type) := Circuit × Except Refusal α

/-- Hands out a selector that must have a column. It is used up even if it has none. -/
def allocate (c : Circuit) : Outcome Nat :=
  let (selector, system) := c.system.allocate
  let available := c.table.width .selector
  ({ c with system },
    if selector < available then .ok selector else .error (.selectorColumns selector available))

/-- Writes the columns of a grid, side by side from a row on, into constant columns. -/
def writeGrid (c : Circuit) (row : Nat) : List (Nat × Array Scalar) → Except Fault Circuit
  | [] => .ok c
  | (column, values) :: rest => do
    let c ← c.writeDown .constant column row values.toList
    writeGrid c row rest

/-- The cells of a subtable in the row of the lookup, where the table lies in `columns`. -/
def Subtable.option (s : Subtable) (columns : List Nat) : Except Fault (List Variable) :=
  s.columns.mapM fun i =>
    match columns[i]? with
    | some column => .ok (Variable.constant column 0)
    | none => .error .outOfBounds

/-- The target of a subtable with one option for each place that its table lies in. -/
def Subtable.target (s : Subtable) (tag : Nat) (places : List (List Nat)) : Except Fault Target :=
  places.foldlM (fun target columns => do target.addOption (← s.option columns))
    (.blank s.columns.length tag)

def register (c : Circuit) (r : Reference) (tag : Nat) (places : List (List Nat)) :
    Except Fault Circuit := do
  let target ← r.subtable.target tag places
  c.register r.id target

end Lookup
end Plonkish
