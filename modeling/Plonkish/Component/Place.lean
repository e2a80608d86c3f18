import Plonkish.Circuit
import Plonkish.Component.Basic

/-! Placing a component at a row of a circuit: its gates are registered and turned on at its rows, then
    its copies are added. The witness is filled apart from this (`Component.assign`). -/

namespace Plonkish

/-- Whether a table has the columns that a component needs. -/
def Manifest.isMetBy (m : Manifest) (t : Assignment) : Bool :=
  m.witnesses ≤ t.width .witness ∧ m.constants ≤ t.width .constant ∧
    m.publicInputs ≤ t.width .publicInput

namespace Component

/-- Registers gates one by one. Answers their selectors in order. -/
def addGates (s : System) : List (List Expr) → Except Fault (List Nat × System)
  | [] => .ok ([], s)
  | constraints :: rest => do
    let (selector, s) ← s.addGate constraints
    let (selectors, s) ← addGates s rest
    .ok (selector :: selectors, s)

/-- Registers lookup gates with a single query each. Answers their tags in order. -/
def addLookups (s : System) : List (String × List Expr) → Except Fault (List Nat × System)
  | [] => .ok ([], s)
  | (name, input) :: rest => do
    let table ← s.tableId name
    let (tag, s) ← s.addLookupGate [⟨table, input⟩]
    let (tags, s) ← addLookups s rest
    .ok (tag :: tags, s)

def register (c : Component) (s : System) : Except Fault (List Nat × System) := do
  let (selectors, s) ← addGates s c.gates
  let (tags, s) ← addLookups s c.lookups
  .ok (selectors ++ tags, s)

/-- Turns the selectors of a component on at its active rows. -/
def enable (c : Component) (selectors : List Nat) (t : Assignment) (row : Nat) :
    Except Fault Assignment :=
  (selectors.zip c.firing).foldlM
    (fun t (selector, first, stop) => t.enableRange selector (row + first) (row + stop)) t

/-- A running sum is given as many inputs as it has terms. -/
def checkInput : (c : Component) → c.Input → Except Fault Unit
  | runningSum _ terms _, values =>
    if values.length = terms then .ok () else .error (.termsMismatch terms values.length)
  | addition _, _ => .ok ()
  | multiplication _, _ => .ok ()
  | xor _, _ => .ok ()
  | rangeCheck .., _ => .ok ()

def addWires (s : System) (wires : List (End × End)) : Except Fault System :=
  wires.foldlM (fun s (first, second) => do s.addCopy (← first.variable) (← second.variable)) s

def wire (c : Component) (s : System) (input : c.Input) (row : Nat) : Except Fault System := do
  c.checkInput input
  addWires s (c.wires input row)

/-- Registers the gates of a component and turns them on from a row on. Answers their selectors. -/
def fire (c : Component) (circuit : Circuit) (row : Nat) : Except Fault (List Nat × Circuit) := do
  let (selectors, system) ← c.register circuit.system
  let table ← c.enable selectors circuit.table row
  .ok (selectors, ⟨system, table⟩)

/-- Places a component at a row. Answers the cell of its result. -/
def place (c : Component) (circuit : Circuit) (input : c.Input) (row : Nat) :
    Except Fault (Variable × Circuit) :=
  if c.manifest.isMetBy circuit.table then do
    let (_, circuit) ← c.fire circuit row
    let system ← c.wire circuit.system input row
    let output ← c.output row
    .ok (output, { circuit with system })
  else .error (.unmetManifest c.manifest)

end Component
end Plonkish
