import Plonkish.Circuit
import Plonkish.Component.Basic
import Plonkish.Zone.Check

/-! Checking how a placed component is wired, from its inputs to its result, on its own rows. -/

namespace Plonkish
namespace Component

def connected (c : Component) (circuit : Circuit) (input : c.Input) (row : Nat) (check : Check) :
    Except Fault Bool := do
  let output ← c.output row
  check.run circuit.system circuit.table (c.inputs input) [output] row c.rows

end Component
end Plonkish
