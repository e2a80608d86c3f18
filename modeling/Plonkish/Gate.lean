import Plonkish.Expr.Basic
import Plonkish.Fault

/-! The parts of a constraint system. A gate holds constraints that must vanish, and a lookup gate holds
    queries that must find their tuple in a table, both at the rows where a selector is on. A copy ties two
    cells to one value everywhere. A target is a table as lookups see it: a selector that marks its rows, and
    one tuple of columns for each place it was laid out in. -/

namespace Plonkish

/-- Constraints that are zero at every row where the selector is on. -/
structure Gate where
  selector : Nat
  constraints : List Expr
  deriving DecidableEq

/-- A tuple of expressions to be found in a table. -/
structure Query where
  table : Nat
  input : List Expr
  deriving DecidableEq

/-- Queries that are answered at every row where the tag is on. -/
structure LookupGate where
  tag : Nat
  queries : List Query
  deriving DecidableEq

/-- An equality between two cells, whatever is active. -/
structure Copy where
  first : Variable
  second : Variable
  deriving DecidableEq

/-- A table as registered: the selector of its rows, its width, and its options. -/
structure Target where
  tag : Nat
  width : Nat
  options : List (List Variable)
  deriving DecidableEq

def Gate.support (g : Gate) : SortedSet Variable := Expr.collect g.constraints

def LookupGate.support (g : LookupGate) : SortedSet Variable :=
  Expr.collect (g.queries.flatMap Query.input)

namespace Copy

/-- An end of a copy is absolute and no selector. -/
def checkEnd (v : Variable) : Except Fault Unit :=
  if v.relative then .error (.relativeCopy v)
  else if v.kind = .selector then .error (.selectorCopy v)
  else .ok ()

def make? (first second : Variable) : Except Fault Copy := do
  checkEnd first
  checkEnd second
  .ok ⟨first, second⟩

end Copy

namespace Target

/-- A target that nothing matches yet. -/
def blank (width tag : Nat) : Target := ⟨tag, width, []⟩

/-- Adds one more place to read the table from. -/
def addOption (t : Target) (columns : List Variable) : Except Fault Target :=
  if columns.length = t.width then .ok { t with options := t.options ++ [columns] }
  else .error .optionWidth

end Target
end Plonkish
