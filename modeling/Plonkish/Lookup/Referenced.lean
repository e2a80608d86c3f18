import Plonkish.Lookup.Name
import Plonkish.Lookup.Table

/-! Which tables and subtables a circuit uses. A subtable is referenced if its full name has an id, and a
    table if one of its subtables is. -/

namespace Plonkish
namespace Lookup

/-- Table ids by full name. -/
abbrev Reserved := SortedMap String Nat

/-- A subtable in use, with its id. -/
structure Reference where
  name : String
  subtable : Subtable
  id : Nat
  deriving DecidableEq

namespace Table

/-- The subtables of a table that have an id, in the order of their names. -/
def references (t : Table) (reserved : Reserved) : List Reference :=
  t.subtables.entries.filterMap fun (name, subtable) =>
    (reserved.get? (join t.name name)).map fun id => ⟨name, subtable, id⟩

end Table

/-- The tables with a subtable in use, in the order of their names. -/
def referenced (reserved : Reserved) (tables : List Table) : List Table :=
  (tables.filter fun t => !(t.references reserved).isEmpty).mergeSort fun s t => s.name ≤ t.name

end Lookup
end Plonkish
