import Plonkish.Lookup.Subtable
import Plonkish.Scalar
import Plonkish.Sorted.Map
import Plonkish.Text.Quoted

/-! Definitions of lookup tables: a named grid of values, stored column by column and computed when it is
    first needed, with the subtables that lookups may name. A grid is used only after it was found to have
    the declared width, columns of one length, and rows for every subtable. -/

namespace Plonkish
namespace Lookup

abbrev Grid := List (Array Scalar)

/-- The length of the first column. -/
def Grid.rows (g : Grid) : Nat := (g.head?.map Array.size).getD 0

structure Table where
  name : String
  width : Nat
  subtables : SortedMap String Subtable
  /-- The grid as generated, before any check. -/
  grid : Thunk Grid

namespace Table

def make (name : String) (width : Nat) (grid : Thunk Grid) : Table := ⟨name, width, .empty, grid⟩

/-- Adds a subtable. Its columns have to be columns of the table, its rows in order, its name new. -/
def addSubtable (t : Table) (name : String) (columns : List Nat) (first last : Nat) :
    Except Fault Table :=
  if columns.any (t.width ≤ ·) then .error (.subtableColumn t.name name t.width)
  else do
    let s ← Subtable.make? columns first last
    if t.subtables.contains name then .error (.subtableTwice t.name name)
    else .ok { t with subtables := t.subtables.insert name s }

def subtable? (t : Table) (name : String) : Option Subtable := t.subtables.get? name

/-- A grid that fits the definition: its width, the lengths of its columns, then the subtables in
    order of their names. -/
def check (t : Table) (g : Grid) : Except Fault Grid :=
  if g.length ≠ t.width then .error (.gridWidth t.name)
  else if g.any (·.size ≠ g.rows) then .error (.gridRagged t.name)
  else
    match t.subtables.entries.find? fun e => g.rows ≤ e.2.last with
    | some (name, s) => .error (.subtableTooLong t.name name s.last g.rows)
    | none => .ok g

def columns (t : Table) : Except Fault Grid := t.check t.grid.get

def rows (t : Table) : Except Fault Nat := t.columns.map Grid.rows

/-- The description of a table, which tells whether its grid was generated. -/
def describe (t : Table) (generated : Bool) : String :=
  let subtables := t.subtables.entries.map fun (name, s) => Text.quote name ++ ": " ++ s.text
  "LookupTableDefinition \x7b name: " ++ Text.quote t.name ++ ", columns_number: " ++
    toString t.width ++ ", subtables: \x7b" ++ String.intercalate ", " subtables ++
    "\x7d, generated: " ++ toString generated ++ " \x7d"

end Table
end Lookup
end Plonkish
