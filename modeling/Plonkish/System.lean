import Plonkish.Gate

/-! The constraint system that components write into. Gates, lookup gates and tables draw their
    selectors from one counter, in the order in which they ask. A gate equal to an earlier one shares its
    selector, and no constraint may read a selector. -/

namespace Plonkish

/-- Gates, copies and tables, with the next selector to hand out. -/
structure System where
  gates : List Gate
  lookupGates : List LookupGate
  copies : List Copy
  /-- Registered tables by id. -/
  targets : SortedMap Nat Target
  /-- Table ids by full name. -/
  reserved : SortedMap String Nat
  nextSelector : Nat

namespace System

def empty : System := ⟨[], [], [], .empty, .empty, 0⟩

/-- Hands out a fresh selector. -/
def allocate (s : System) : Nat × System :=
  (s.nextSelector, { s with nextSelector := s.nextSelector + 1 })

/-! ### Gates -/

/-- No variable of a set is a selector; the least one that is gets reported. -/
def checkOperands (vs : SortedSet Variable) : Except Fault Unit :=
  match vs.toList.find? (·.kind = .selector) with
  | some v => .error (.selectorOperand v)
  | none => .ok ()

/-- Registers a gate and answers its selector, an old one if the gate is known. -/
def addGate (s : System) (constraints : List Expr) : Except Fault (Nat × System) := do
  checkOperands (Expr.collect constraints)
  match s.gates.find? (·.constraints = constraints) with
  | some g => .ok (g.selector, s)
  | none =>
    let gate := ⟨s.nextSelector, constraints⟩
    .ok (gate.selector,
      { s with gates := s.gates ++ [gate], nextSelector := s.nextSelector + 1 })

/-- Registers a lookup gate and answers its tag, an old one if the gate is known. -/
def addLookupGate (s : System) (queries : List Query) : Except Fault (Nat × System) := do
  checkOperands (Expr.collect (queries.flatMap Query.input))
  match s.lookupGates.find? (·.queries = queries) with
  | some g => .ok (g.tag, s)
  | none =>
    let gate := ⟨s.nextSelector, queries⟩
    .ok (gate.tag,
      { s with lookupGates := s.lookupGates ++ [gate], nextSelector := s.nextSelector + 1 })

/-! ### Copies -/

/-- Ties two absolute cells together. -/
def addCopy (s : System) (first second : Variable) : Except Fault System := do
  let copy ← Copy.make? first second
  .ok { s with copies := s.copies ++ [copy] }

/-- Drops the copy at an index and answers it. -/
def removeCopy (s : System) (index : Nat) : Except Fault (Copy × System) :=
  match s.copies[index]? with
  | some copy => .ok (copy, { s with copies := s.copies.eraseIdx index })
  | none => .error .outOfBounds

/-! ### Tables -/

def setReserved (s : System) (reserved : SortedMap String Nat) : System :=
  { s with reserved := reserved }

def tableId (s : System) (name : String) : Except Fault Nat :=
  match s.reserved.get? name with
  | some id => .ok id
  | none => .error (.unreservedTable name)

/-- Registers the table that answers the lookups of an id; an id is used once. -/
def register (s : System) (id : Nat) (target : Target) : Except Fault System :=
  if s.targets.contains id then .error (.tableIdTaken id)
  else .ok { s with targets := s.targets.insert id target }

end System
end Plonkish
