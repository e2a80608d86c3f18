import Plonkish.Assignment.Dump
import Plonkish.Zone.Basic

/-! The zones as a table: every cell of the window and every public input holds the number of its zone.
    The window starts at the first row of the table. -/

namespace Plonkish
namespace Zones

def value (z : Zones) (address : Nat) : Scalar :=
  if h : address < z.space.size then Scalar.ofNat (z.classes.find ⟨address, h⟩).val else 0

def table (z : Zones) : Assignment :=
  let window place := Array.ofFn fun i : Fin z.space.rows =>
    z.value (z.space.windowCell (z.space.start + i.val) place)
  { witnesses := Array.ofFn fun c : Fin z.space.witnesses => window c.val
    constants := Array.ofFn fun c : Fin z.space.constants => window (z.space.witnesses + c.val)
    publicInputs := Array.ofFn fun c : Fin z.space.publicInputs =>
      Array.ofFn fun r : Fin z.space.publicRows => z.value (z.space.publicCell c.val r.val)
    selectors := #[] }

def dump (z : Zones) : String := z.table.dump

end Zones
end Plonkish
