import Plonkish.Fault

/-! A part of a lookup table that lookups may name: some of its columns, on a range of rows that includes
    both ends. -/

namespace Plonkish
namespace Lookup

/-- Columns of a table on the rows from `first` to `last`. -/
structure Subtable where
  columns : List Nat
  first : Nat
  last : Nat
  first_le_last : first ≤ last
  deriving DecidableEq

namespace Subtable

def make? (columns : List Nat) (first last : Nat) : Except Fault Subtable :=
  if h : first ≤ last then .ok ⟨columns, first, last, h⟩ else .error (.reversedRows first last)

def rows (s : Subtable) : Nat := s.last - s.first + 1

/-- Whether the subtable covers a table of `n` rows. -/
def spans (s : Subtable) (n : Nat) : Bool := s.first = 0 ∧ s.last + 1 = n

def text (s : Subtable) : String :=
  "Subtable \x7b column_indices: [" ++ String.intercalate ", " (s.columns.map toString) ++
    "], begin: " ++ toString s.first ++ ", end: " ++ toString s.last ++ " \x7d"

end Subtable
end Lookup
end Plonkish
