import Plonkish.Lookup.Layout
import Plonkish.Lookup.Referenced
import Plonkish.Lookup.Refusal

/-! The search for a layout. A table must be no wider than the columns given, and within the first budget
    if it cannot be folded. Then smaller and smaller budgets are tried until the tables fit, since a smaller
    budget may fold a table into more groups. -/

namespace Plonkish
namespace Lookup

/-- The first budget, from `budget` down, under which the tables fit. -/
def search (shapes : List Shape) (available budget : Nat) : Except Refusal Layout :=
  match attempt shapes available budget with
  | some l => .ok l
  | none =>
    match _h : shrink? budget with
    | some next =>
      if next ≤ firstRow then .error (.exhausted budget)
      else if shapes.any fun s => !s.foldable && next < firstRow + s.rows then
        .error (.exhausted next)
      else search shapes available next
    | none => .error (.exhausted budget)
termination_by budget
decreasing_by exact shrink?_lt _h

/-- Why a table can have no place under any budget up to `budget`. -/
def Shape.refusal? (s : Shape) (available budget : Nat) : Option Refusal :=
  if available < s.columns then some (.constantColumns s.name s.columns available)
  else if !s.foldable && budget < firstRow + s.rows then
    some (.tableTooLong s.name s.rows budget)
  else none

def layoutShapes (shapes : List Shape) (available budget : Nat) : Except Refusal Layout :=
  match shapes.findSome? (·.refusal? available budget) with
  | some r => .error r
  | none => search shapes available budget

def Table.shape (t : Table) (reserved : Reserved) : Except Fault Shape := do
  let rows ← t.rows
  .ok ⟨t.name, t.width, rows, (t.references reserved).all (·.subtable.spans rows)⟩

def layout (reserved : Reserved) (tables : List Table) (available budget : Nat) :
    Except Fault (Except Refusal Layout) := do
  let shapes ← (referenced reserved tables).mapM (·.shape reserved)
  .ok (layoutShapes shapes available budget)

end Lookup
end Plonkish
