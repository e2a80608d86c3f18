import Plonkish.Lookup.Table

/-! Folding a table: its rows are cut into groups of equal height that are laid side by side. The last
    group is filled up with the last row of the table. Every row of every column is read, so a column shorter
    than the first one is found out before anything is laid. -/

namespace Plonkish
namespace Lookup

/-- The least number of groups of `size` that hold `n` things. -/
def ceilDiv (n size : Nat) : Nat := (n + size - 1) / size

/-- One column of one group: `height` cells from row `start`, past the end the last of `rows` rows. -/
def foldColumn (column : Array Scalar) (start height rows : Nat) : Array Scalar :=
  Array.ofFn fun r : Fin height => column[min (start + r.val) (rows - 1)]?.getD 0

/-- The columns of all groups of a grid, group by group. -/
def groups (g : Grid) (folds : Nat) : Grid :=
  if g.isEmpty then []
  else
    let height := ceilDiv g.rows folds
    (List.range folds).flatMap fun fold =>
      g.map fun column => foldColumn column (fold * height) height g.rows

/-- A grid cut into groups. No column may be shorter than the first one. -/
def foldGrid (g : Grid) (folds : Nat) : Except Fault Grid :=
  if folds = 0 then .error .zeroFolds
  else if g.any (·.size < g.rows) then .error .outOfBounds
  else .ok (groups g folds)

end Lookup
end Plonkish
