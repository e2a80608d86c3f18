import Plonkish.Exchange.Schema
import Plonkish.Lookup.Catalogue
import Plonkish.Zone.Check

/-! The written forms of the types of this library that are exchanged, as shapes, and the trees of
    variables and packings. -/

namespace Plonkish
namespace Exchange

def names (variants : List String) : Schema := .choice (variants.map (·, none))

def kindName : ColumnKind → String
  | .witness => "Witness"
  | .constant => "Constant"
  | .publicInput => "PublicInput"
  | .selector => "Selector"

def kindForm : Schema := names (ColumnKind.all.map kindName)

/-- A variable, with its position as a rotation that is relative or not. -/
def variableForm : Schema :=
  .record [("typ", kindForm), ("index", .count), ("rotation", .rotation), ("relative", .bool)]

def copyForm : Schema := .record [("first", variableForm), ("second", variableForm)]

def targetForm : Schema :=
  .record [("tag_index", .count), ("columns_number", .count),
    ("lookup_options", .list (.list variableForm))]

def subtableForm : Schema :=
  .record [("column_indices", .list .count), ("begin", .count), ("end", .count)]

def manifestForm : Schema :=
  .record [("witness_amount", .count), ("constant_required", .count),
    ("public_input_required", .count)]

def packingForm : Schema :=
  .choice [("Vertical", none), ("Horizontal", some [("max_usable_rows", .count)])]

def checkForm : Schema :=
  .record [("kind", names ["None", "Weak", "Strong"]), ("islands", names ["None", "Islands"])]

/-- The shape of a type, by the name under which it is exchanged. -/
def schema? : String → Option Schema
  | "ColumnType" => some kindForm
  | "Variable" => some variableForm
  | "CopyConstraint" => some copyForm
  | "LookupTable" => some targetForm
  | "Subtable" => some subtableForm
  | "Manifest" => some manifestForm
  | "LookupPacking" => some packingForm
  | "ConnectednessCheck" => some checkForm
  | _ => none

/-! ### Trees of values -/

def ofVariable (v : Variable) : Tree :=
  .record [("typ", .text (kindName v.kind)), ("index", .int v.index), ("rotation", .int v.rotation),
    ("relative", .bool v.relative)]

def ofPacking : Lookup.Packing → Tree
  | .vertical => .text "Vertical"
  | .horizontal budget => .record [("Horizontal", .record [("max_usable_rows", .int budget)])]

end Exchange
end Plonkish
