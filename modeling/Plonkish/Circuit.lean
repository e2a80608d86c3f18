import Plonkish.Assignment.Basic
import Plonkish.System

/-! A constraint system together with the table that it is assigned into: what packing and the placing of
    components change. -/

namespace Plonkish

/-- A constraint system and its assignment. -/
structure Circuit where
  system : System
  table : Assignment

namespace Circuit

def writeDown (c : Circuit) (kind : ColumnKind) (column row : Nat) (values : List Scalar) :
    Except Fault Circuit := do
  let table ← c.table.writeDown kind column row values
  .ok { c with table }

def enableRange (c : Circuit) (selector first stop : Nat) : Except Fault Circuit := do
  let table ← c.table.enableRange selector first stop
  .ok { c with table }

def register (c : Circuit) (id : Nat) (target : Target) : Except Fault Circuit := do
  let system ← c.system.register id target
  .ok { c with system }

end Circuit
end Plonkish
