import Plonkish.Assignment.Basic

/-! The text of a whole table. A first line counts columns and rows; then every row is a line of its
    witness, constant, public input and selector cells. Cells are parted by a blank, kinds by a bar with
    blanks around it, and a kind without columns leaves its place empty. -/

namespace Plonkish
namespace Assignment

def rowText (t : Assignment) (row : Nat) : String :=
  String.intercalate " | " (ColumnKind.all.map fun kind =>
    String.intercalate " " ((List.range (t.width kind)).map fun column =>
      (t.cell kind column row).decimal))

def sizesText (t : Assignment) : String :=
  "witnesses_size: " ++ toString (t.width .witness) ++
    " constants_size: " ++ toString (t.width .constant) ++
    " public_inputs_size: " ++ toString (t.width .publicInput) ++
    " selectors_size: " ++ toString (t.width .selector) ++
    " rows: " ++ toString t.height

/-- The text of a table, with an end of line after every line. -/
def dump (t : Assignment) : String :=
  String.join ((t.sizesText :: (List.range t.height).map t.rowText).map (· ++ "\n"))

end Assignment
end Plonkish
