import Plonkish.Component.Manifest
import Plonkish.Variable.Basic

/-! The ways in which a computation stops: a caller broke a rule that the library checks. A fault ends
    the computation, and no state survives it. Refusals that leave a usable state behind are values of
    their own (`Refusal`, `Violation`). -/

namespace Plonkish

/-- A broken rule, with what the message about it names. -/
inductive Fault where
  /-- A list or a set of cells was read past its end. -/
  | outOfBounds
  | logarithmOfZero
  /-- An absolute variable was given a negative row. -/
  | negativeRow (kind : ColumnKind) (index : Nat) (rotation : Int)
  /-- A row is too large for a rotation. -/
  | rowTooLarge
  /-- An absolute row was asked of a relative variable. -/
  | relativeRow (v : Variable)
  | relativeCopy (v : Variable)
  | selectorCopy (v : Variable)
  /-- An option of a lookup table has the wrong number of columns. -/
  | optionWidth
  /-- A constraint reads a selector. -/
  | selectorOperand (v : Variable)
  | tableIdTaken (id : Nat)
  /-- A table name has no id in the circuit. -/
  | unreservedTable (name : String)
  | missingColumn (kind : ColumnKind) (column available : Nat)
  /-- A column to be replaced as a whole that the table does not have. -/
  | missingTarget (kind : ColumnKind) (column : Nat)
  /-- A subtable uses a column that its table does not have. -/
  | subtableColumn (table subtable : String) (width : Nat)
  /-- The rows of a subtable end before they begin. -/
  | reversedRows (first last : Nat)
  | subtableTwice (table subtable : String)
  | gridWidth (table : String)
  /-- The columns of a grid differ in length. -/
  | gridRagged (table : String)
  /-- A subtable ends past the last row of its table. -/
  | subtableTooLong (table subtable : String) (last rows : Nat)
  /-- No range table is made for this number of bits. -/
  | rangeBits (bits : Nat)
  | tableTwice (name : String)
  /-- A name without a separator between table and subtable. -/
  | malformedName (name : String)
  | unknownTable (name : String)
  /-- A table is to be cut into no parts. -/
  | zeroFolds
  | noTerms
  | termsMismatch (terms inputs : Nat)
  | unmetManifest (m : Manifest)
  deriving DecidableEq

namespace Fault

def message : Fault → String
  | outOfBounds => "index out of bounds"
  | logarithmOfZero => "assertion failed: d != 0"
  | negativeRow kind index rotation =>
    s!"absolute variable {kind.name}[{index}] at negative row {rotation}"
  | rowTooLarge => "row does not fit in a rotation"
  | relativeRow v => s!"{v.text} is relative, an absolute row is required"
  | relativeCopy v => s!"copy constraint end {v.text} must be absolute"
  | selectorCopy v => s!"copy constraint end {v.text} cannot be a selector"
  | optionWidth => "lookup option width does not match the table"
  | selectorOperand v => s!"selector {v.text} cannot be an operand of a constraint"
  | tableIdTaken id => s!"lookup table id {id} registered twice"
  | unreservedTable name => s!"lookup table `{name}` is not among the reserved lookup tables"
  | missingColumn kind column available =>
    s!"{kind.name} column {column} out of range ({available} available)"
  | missingTarget kind column => s!"{kind.name} column {column} out of range"
  | subtableColumn table subtable width =>
    s!"subtable {table}/{subtable} uses a column past the {width} of the table"
  | reversedRows first last => s!"subtable rows {first}..={last} are reversed"
  | subtableTwice table subtable => s!"subtable {table}/{subtable} defined twice"
  | gridWidth table => s!"table {table} generated the wrong number of columns"
  | gridRagged table => s!"table {table} has columns of different lengths"
  | subtableTooLong table subtable last rows =>
    s!"subtable {table}/{subtable} ends at row {last} but the table has {rows} rows"
  | rangeBits bits => s!"range tables are supported from 2 to 20 bits, not {bits}"
  | tableTwice name => s!"lookup table {name} registered twice"
  | malformedName name => s!"lookup table name {name} is not of the form table/subtable"
  | unknownTable name => s!"unknown lookup table {name}"
  | zeroFolds => "a table is folded at least once"
  | noTerms => "a running sum needs at least one term"
  | termsMismatch terms inputs => s!"running sum of {terms} terms given {inputs} inputs"
  | unmetManifest m => s!"assignment table does not meet the component manifest {m.text}"

end Fault
end Plonkish
