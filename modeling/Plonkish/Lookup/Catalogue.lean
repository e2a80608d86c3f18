import Plonkish.Lookup.Builtin
import Plonkish.Lookup.Pack.Horizontal
import Plonkish.Lookup.Pack.Vertical
import Plonkish.Sorted.Set

/-! The tables that a circuit may use, and the subtables that it does use. A subtable is reserved by its
    full name; the reserved names are numbered from one in their order, whatever the order in which they were
    reserved. -/

namespace Plonkish
namespace Lookup

inductive Packing where
  /-- One below the other. -/
  | vertical
  /-- Side by side within a number of rows. -/
  | horizontal (budget : Nat)
  deriving DecidableEq

/-- Tables are packed side by side within the default budget unless told otherwise. -/
def Packing.standard : Packing := .horizontal defaultBudget

def Packing.pack (packing : Packing) (reserved : Reserved) (tables : List Table) (c : Circuit)
    (columns : List Nat) (usable : Nat) : Except Fault (Outcome Nat) :=
  match packing with
  | .vertical => packVertical reserved tables c columns usable
  | .horizontal budget => packHorizontal reserved tables c columns usable budget

/-- Tables by name, with the full names in use. -/
structure Catalogue where
  tables : SortedMap String Table
  reserved : SortedSet String

namespace Catalogue

def empty : Catalogue := ⟨.empty, .empty⟩

def register (l : Catalogue) (t : Table) : Except Fault Catalogue :=
  if l.tables.contains t.name then .error (.tableTwice t.name)
  else .ok { l with tables := l.tables.insert t.name t }

/-- The exclusive-or table and the range tables of 8 and 16 bits. -/
def builtin : Catalogue :=
  ⟨.ofList ([xorTable, rangeOf 8, rangeOf 16].map fun t => (t.name, t)), .empty⟩

def table? (l : Catalogue) (name : String) : Option Table := l.tables.get? name

def knows (l : Catalogue) (table subtable : String) : Bool :=
  ((l.table? table).bind (·.subtable? subtable)).isSome

/-- Marks a subtable as used by the circuit. -/
def reserve (l : Catalogue) (name : String) : Except Fault Catalogue :=
  match split? name with
  | none => .error (.malformedName name)
  | some (table, subtable) =>
    if l.knows table subtable then .ok { l with reserved := SortedSet.add l.reserved name }
    else .error (.unknownTable name)

/-- The ids of the reserved names: from one on, in the order of the names. -/
def ids (l : Catalogue) : Reserved :=
  SortedMap.ofList (l.reserved.toList.zipIdx 1)

def reservedTables (l : Catalogue) : List Table :=
  l.tables.values.filter fun t =>
    l.reserved.toList.any fun name => (split? name).any (·.1 = t.name)

/-- Installs the ids of the reserved names and packs the tables in use. -/
def pack (l : Catalogue) (packing : Packing) (c : Circuit) (columns : List Nat) (usable : Nat) :
    Except Fault (Outcome Nat) :=
  packing.pack l.ids l.reservedTables { c with system := c.system.setReserved l.ids } columns usable

end Catalogue
end Lookup
end Plonkish
