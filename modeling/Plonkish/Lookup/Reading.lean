import Plonkish.Lookup.Table

/-! A table that is being read. The grid is generated and checked at the first access and kept for all
    later ones, so the generator runs at most once. -/

namespace Plonkish
namespace Lookup

/-- A table with the grid generated so far and the number of times that its generator ran. -/
structure Reading where
  table : Table
  grid : Option Grid
  runs : Nat

namespace Reading

/-- A table not yet accessed. -/
def start (t : Table) : Reading := ⟨t, none, 0⟩

/-- The columns, generated only if they are not there yet. -/
def columns (r : Reading) : Except Fault (Grid × Reading) :=
  match r.grid with
  | some g => .ok (g, r)
  | none => do
    let g ← r.table.columns
    .ok (g, { r with grid := some g, runs := r.runs + 1 })

def cell (r : Reading) (column row : Nat) : Except Fault (Scalar × Reading) := do
  let (g, r) ← r.columns
  match g[column]?.bind (·[row]?) with
  | some x => .ok (x, r)
  | none => .error .outOfBounds

def describe (r : Reading) : String := r.table.describe r.grid.isSome

end Reading
end Lookup
end Plonkish
