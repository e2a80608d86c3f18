import Plonkish.Component.Manifest
import Plonkish.Lookup.Builtin
import Plonkish.Lookup.Name
import Plonkish.Gate
import Plonkish.Variable.Row

/-! The components that circuits are assembled from. A component is described by what it puts into a
    circuit: the constraints of its gates, its lookups, the rows at which each of them is active, and the
    copies that bind its inputs to its cells and its rows to one another. Rows are counted from the row at
    which the component is placed.

    - Addition, multiplication and exclusive or take one row: two operands and the result.
    - A running sum takes one row for each term: the term, the sum so far, and the new sum. The sum so far is
      a copy of the new sum of the row above; the first row has none.
    - A range check takes one cell, which has to lie in a range table. -/

namespace Plonkish

structure Trio where
  first : Nat
  second : Nat
  third : Nat
  deriving DecidableEq

def Trio.toList (w : Trio) : List Nat := [w.first, w.second, w.third]

/-- A piece of circuit, with the witness columns that it uses. -/
inductive Component where
  /-- The third column is the sum of the others. -/
  | addition (w : Trio)
  /-- The third column is the product of the others. -/
  | multiplication (w : Trio)
  /-- The third column is the exclusive or of the others, for numbers of 4 bits. -/
  | xor (w : Trio)
  /-- The columns hold the terms, the sums before them, and the sums with them. -/
  | runningSum (w : Trio) (terms : Nat) (terms_pos : 0 < terms)
  /-- The column is looked up in a table, given by its full name. -/
  | rangeCheck (column : Nat) (table : String)

namespace Component

/-- A running sum of at least one term. -/
def runningSum? (w : Trio) (terms : Nat) : Except Fault Component :=
  if h : 0 < terms then .ok (.runningSum w terms h) else .error .noTerms

/-- A check against a subtable of the range table of a number of bits. -/
def rangeOf (column bits : Nat) (subtable : String) : Component :=
  .rangeCheck column (Lookup.join (Lookup.rangeName bits) subtable)

/-- The cells that a component reads. -/
def Input : Component → Type
  | addition _ => Variable × Variable
  | multiplication _ => Variable × Variable
  | xor _ => Variable × Variable
  | runningSum .. => List Variable
  | rangeCheck .. => Variable

def inputs : (c : Component) → c.Input → List Variable
  | addition _, (x, y) => [x, y]
  | multiplication _, (x, y) => [x, y]
  | xor _, (x, y) => [x, y]
  | runningSum .., values => values
  | rangeCheck .., x => [x]

def columns : Component → List Nat
  | addition w => w.toList
  | multiplication w => w.toList
  | xor w => w.toList
  | runningSum w _ _ => w.toList
  | rangeCheck column _ => [column]

def rows : Component → Nat
  | runningSum _ terms _ => terms
  | _ => 1

/-- The columns that the table must have. -/
def manifest (c : Component) : Manifest := .covering c.columns

/-! ### Constraints -/

/-- The cell of a witness column in the row of the gate. -/
def operand (column : Nat) : Expr := .var (.witness column 0)

def gates : Component → List (List Expr)
  | addition w =>
    [[.sub (.add (operand w.first) (operand w.second)) (operand w.third)]]
  | multiplication w =>
    [[.sub (.mul (operand w.first) (operand w.second)) (operand w.third)]]
  | xor _ => []
  | runningSum w _ _ =>
    [[.sub (operand w.third) (operand w.first)],
      [.sub (.sub (operand w.third) (operand w.second)) (operand w.first)]]
  | rangeCheck .. => []

def lookups : Component → List (String × List Expr)
  | xor w => [(Lookup.join Lookup.xorName Lookup.fullName, w.toList.map operand)]
  | rangeCheck column table => [(table, [operand column])]
  | _ => []

def tables (c : Component) : List String := c.lookups.map Prod.fst

/-- For each gate, and then for each lookup gate, the rows at which it is active: from the first number
    to before the second. -/
def firing : Component → List (Nat × Nat)
  | runningSum _ terms _ => [(0, 1), (1, terms)]
  | _ => [(0, 1)]

/-! ### Copies -/

/-- An end of a copy: a cell that was given, or a witness cell of the component itself. -/
inductive End where
  | given (v : Variable)
  | own (column row : Nat)
  deriving DecidableEq

def End.variable : End → Except Fault Variable
  | given v => .ok v
  | own column row => Variable.at? .witness column row

/-- The copies of a component placed at a row: first of its inputs, then between its own rows. -/
def wires : (c : Component) → c.Input → Nat → List (End × End)
  | addition w, (x, y), row => [(.given x, .own w.first row), (.given y, .own w.second row)]
  | multiplication w, (x, y), row => [(.given x, .own w.first row), (.given y, .own w.second row)]
  | xor w, (x, y), row => [(.given x, .own w.first row), (.given y, .own w.second row)]
  | runningSum w terms _, values, row =>
    (values.zipIdx row).map (fun (v, r) => (.given v, .own w.first r)) ++
      (List.range' row (terms - 1)).map fun r => (.own w.second (r + 1), .own w.third r)
  | rangeCheck column _, x, row => [(.given x, .own column row)]

/-- The cell that holds the result of a component placed at a row. -/
def output : Component → Nat → Except Fault Variable
  | addition w, row => Variable.at? .witness w.third row
  | multiplication w, row => Variable.at? .witness w.third row
  | xor w, row => Variable.at? .witness w.third row
  | runningSum w terms _, row => Variable.at? .witness w.third (row + terms - 1)
  | rangeCheck column _, row => Variable.at? .witness column row

end Component
end Plonkish
