/-! Why tables were not packed. A refusal is an answer: the circuit stays usable, as far as it was
    changed before the refusal. -/

namespace Plonkish
namespace Lookup

/-- The reason why tables have no place. -/
inductive Refusal where
  /-- A table is wider than the constant columns given. -/
  | constantColumns (table : String) (required available : Nat)
  /-- A selector was handed out that has no column. -/
  | selectorColumns (selector available : Nat)
  /-- A table that cannot be folded is longer than the row budget. -/
  | tableTooLong (table : String) (rows budget : Nat)
  /-- No budget is left to try. -/
  | exhausted (budget : Nat)
  deriving DecidableEq

def Refusal.message : Refusal → String
  | constantColumns table required available =>
    s!"table {table} needs {required} constant columns, only {available} are available"
  | selectorColumns selector available =>
    s!"selector {selector} does not fit in the {available} selector columns"
  | tableTooLong table rows budget =>
    s!"table {table} has {rows} rows and cannot be folded, the row budget is {budget}"
  | exhausted budget =>
    s!"the lookup tables do not fit in any row budget, gave up at {budget} rows"

end Lookup
end Plonkish
