import Plonkish.Zone.Basic

/-! What the zones of a component may be asked for: that its inputs and outputs are wired to each other,
    and that no constraint stands apart from them. -/

namespace Plonkish
namespace Zones

/-- All inputs and outputs lie in the zone of the first of them. -/
def strong (z : Zones) (inputs outputs : List Variable) : Bool :=
  match inputs ++ outputs with
  | [] => true
  | v :: rest =>
    match z.zone? v with
    | none => false
    | some zone => rest.all fun w => z.zone? w = some zone

/-- Whether every variable of a list has a zone, and some target lies in it. -/
def reaches (z : Zones) (vs targets : List Variable) : Bool :=
  let zones := targets.filterMap z.zone?
  vs.all fun v => (z.zone? v).any fun zone => zone ∈ zones

/-- Every output lies in the zone of an input, and every input in the zone of an output. -/
def weak (z : Zones) (inputs outputs : List Variable) : Bool :=
  z.reaches outputs inputs && z.reaches inputs outputs

/-- Every cell touched by a link lies in the zone of an input or an output. -/
def noIslands (z : Zones) (inputs outputs : List Variable) : Bool :=
  let zones := (inputs ++ outputs).filterMap z.zone?
  z.touched.all fun a => z.classes.find a ∈ zones

end Zones

/-- How inputs and outputs are to be wired. -/
inductive Wiring where
  | none
  | weak
  | strong
  deriving DecidableEq

structure Check where
  wiring : Wiring
  islands : Bool
  deriving DecidableEq

namespace Check

def nothing : Check := ⟨.none, false⟩

/-- The answer of given zones to a check. -/
def answer (c : Check) (z : Zones) (inputs outputs : List Variable) : Bool :=
  (match c.wiring with
    | .none => true
    | .weak => z.weak inputs outputs
    | .strong => z.strong inputs outputs) &&
  (!c.islands || z.noIslands inputs outputs)

/-- Checks a window of a table. The zones are made only if something is asked for. -/
def run (c : Check) (s : System) (t : Assignment) (inputs outputs : List Variable)
    (start rows : Nat) : Except Fault Bool :=
  if c = nothing then .ok true
  else (Zones.make s t inputs outputs start rows).map fun z => c.answer z inputs outputs

end Check
end Plonkish
