import Plonkish.Lookup.Budget
import Plonkish.Lookup.Fold

/-! Laying tables side by side under a row budget. Tables are folded until they are low enough, and taken
    by decreasing width, then increasing height, then name. The first table left opens a band of columns at
    the first row, and the tables after it that are no wider and still fit are stacked below it in the band.
    What is left opens the next band to the right. -/

namespace Plonkish
namespace Lookup

structure Shape where
  name : String
  columns : Nat
  rows : Nat
  /-- Every subtable in use covers the whole table. -/
  foldable : Bool
  deriving DecidableEq

/-- A table after folding: groups of `columns` columns and `rows` rows, side by side. -/
structure Strip where
  name : String
  columns : Nat
  rows : Nat
  folds : Nat
  deriving DecidableEq

def Strip.width (s : Strip) : Nat := s.columns * s.folds

/-- The order in which strips are placed: wide before narrow, then low before high, then by name. -/
def Strip.before (s t : Strip) : Bool :=
  t.width < s.width ∨ s.width = t.width ∧ (s.rows < t.rows ∨ s.rows = t.rows ∧ s.name ≤ t.name)

/-- A strip with its first column, counted among the columns given, and its first row. -/
structure Placement where
  strip : Strip
  x : Nat
  y : Nat
  deriving DecidableEq

namespace Placement

def bottom (p : Placement) : Nat := p.y + p.strip.rows

def right (p : Placement) : Nat := p.x + p.strip.width

end Placement

/-- Placements in the order in which they were made, with the row budget that they respect. -/
structure Layout where
  budget : Nat
  placements : List Placement
  deriving DecidableEq

namespace Layout

def width (l : Layout) : Nat := (l.placements.map Placement.right).max?.getD 0

def rows (l : Layout) : Nat := (l.placements.map Placement.bottom).max?.getD 0

def find? (l : Layout) (name : String) : Option Placement :=
  l.placements.find? (·.strip.name = name)

end Layout

/-! ### One attempt -/

/-- Folds a table into the least number of groups that are at most `capacity` rows high, or not at all if
    it may not be folded. -/
def Shape.fold (s : Shape) (capacity : Nat) : Strip :=
  let folds := if s.foldable then max 1 (ceilDiv s.rows capacity) else 1
  ⟨s.name, s.columns, ceilDiv s.rows folds, folds⟩

/-- Stacks the strips that fit into a band downwards from row `y`. Answers the placements and the strips
    that are left. -/
def fillBand (budget x width : Nat) (y : Nat) : List Strip → List Placement × List Strip
  | [] => ([], [])
  | s :: rest =>
    if s.width ≤ width ∧ y + s.rows ≤ budget then
      let (placed, left) := fillBand budget x width (y + s.rows) rest
      (⟨s, x, y⟩ :: placed, left)
    else
      let (placed, left) := fillBand budget x width y rest
      (placed, s :: left)

theorem length_fillBand_le (budget x width y : Nat) (strips : List Strip) :
    (fillBand budget x width y strips).2.length ≤ strips.length := by
  induction strips generalizing y with
  | nil => simp [fillBand]
  | cons s rest ih =>
    unfold fillBand
    split
    · exact Nat.le_succ_of_le (ih _)
    · exact Nat.succ_le_succ (ih _)

/-- Fills bands from column `x` on until no strip is left, unless a band does not fit. -/
def fillBands (budget available x : Nat) : List Strip → Option (List Placement)
  | [] => some []
  | s :: rest =>
    if x + s.width ≤ available then
      let band := fillBand budget x s.width (firstRow + s.rows) rest
      (fillBands budget available (x + s.width) band.2).map fun others =>
        ⟨s, x, firstRow⟩ :: band.1 ++ others
    else none
termination_by strips => strips.length
decreasing_by exact Nat.lt_succ_of_le (length_fillBand_le ..)

/-- The layout under one budget, if the tables fit. -/
def attempt (shapes : List Shape) (available budget : Nat) : Option Layout :=
  if budget ≤ firstRow then none
  else
    let strips := shapes.map (·.fold (budget - firstRow))
    if strips.any fun s => budget < firstRow + s.rows then none
    else
      (fillBands budget available 0 (strips.mergeSort Strip.before)).map fun ps => ⟨budget, ps⟩

end Lookup
end Plonkish
