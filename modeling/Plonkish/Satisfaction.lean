import Plonkish.Assignment.Basic
import Plonkish.System
import Std.Data.HashSet.Lemmas

/-! Whether an assignment satisfies a constraint system, and if not, what is violated first. Gates come
    first, in the order of registration, each row by row and constraint by constraint; then copies; then
    lookup gates, each row by row and query by query. -/

namespace Plonkish

/-- The first thing found wrong with an assignment. -/
inductive Violation where
  /-- A constraint of an active gate is not zero. -/
  | gate (selector row constraint : Nat)
  /-- The tuple of an active query is not in its table. -/
  | lookup (tag row constraint table : Nat)
  /-- An active query names a table that was not registered. -/
  | unregistered (tag table : Nat)
  /-- The ends of a copy differ. -/
  | copy (first second : Variable)
  deriving DecidableEq

namespace Violation

def message : Violation → String
  | gate selector row constraint =>
    s!"constraint {constraint} of the gate with selector {selector} does not hold at row {row}"
  | lookup tag row constraint table =>
    s!"lookup {constraint} of the lookup gate with tag {tag} finds no match in table {table} at row {row}"
  | unregistered tag table =>
    s!"the lookup gate with tag {tag} references table {table}, which is not registered"
  | copy first second => s!"the copy constraint {first.text} = {second.text} does not hold"

end Violation

namespace Assignment

/-- The tuples of a table: each option read at each row where the table is marked. -/
def entries (t : Assignment) (target : Target) : Except Fault (List (List Scalar)) :=
  ((t.activeRows target.tag 0 t.height).flatMap fun row =>
      target.options.map fun option => (row, option)).mapM
    fun (row, option) => option.mapM (t.valueAt · row)

/-- The first constraint of a gate that is not zero at a row. -/
def gateViolation (t : Assignment) (g : Gate) (row : Nat) : Except Fault (Option Violation) :=
  g.constraints.zipIdx.findSomeM? fun (constraint, i) => do
    let x ← constraint.evaluate (t.valueAt · row)
    .ok (if x = 0 then none else some (.gate g.selector row i))

/-- Whether the ends of a copy differ. -/
def copyViolation (t : Assignment) (c : Copy) : Except Fault (Option Violation) := do
  let x ← t.value c.first
  let y ← t.value c.second
  .ok (if x = y then none else some (.copy c.first c.second))

/-- The same tuples without their order, to be searched many times. -/
def tuples (t : Assignment) (target : Target) : Except Fault (Std.HashSet (List Scalar)) :=
  (t.entries target).map .ofList

/-- The tuples of each table by its id. A set is made when it is first needed, and kept. -/
abbrev Answers := List (Nat × Thunk (Except Fault (Std.HashSet (List Scalar))))

def answers (t : Assignment) (s : System) : Answers :=
  s.targets.entries.map fun (id, target) => (id, Thunk.mk fun _ => t.tuples target)

/-- The first query of a lookup gate without an answer at a row. -/
def lookupViolation (t : Assignment) (known : Answers) (g : LookupGate) (row : Nat) :
    Except Fault (Option Violation) :=
  g.queries.zipIdx.findSomeM? fun (query, i) =>
    match SortedMap.lookup query.table known with
    | none => .ok (some (.unregistered g.tag query.table))
    | some tuples => do
      let tuples ← tuples.get
      let input ← query.input.mapM (·.evaluate (t.valueAt · row))
      .ok (if input ∈ tuples then none else some (.lookup g.tag row i query.table))

/-- A set of tuples has the entries of its table as members. -/
theorem mem_tuples {t : Assignment} {target : Target} {known : Std.HashSet (List Scalar)}
    (h : t.tuples target = .ok known) {entries : List (List Scalar)}
    (he : t.entries target = .ok entries) (x : List Scalar) : x ∈ known ↔ x ∈ entries := by
  unfold tuples at h
  rw [he] at h
  obtain rfl := Except.ok.inj h
  rw [Std.HashSet.mem_ofList, List.contains_iff_mem]

/-- A table answers with its own tuples. -/
theorem lookup_answers (t : Assignment) (s : System) (id : Nat) :
    SortedMap.lookup id (t.answers s) =
      (s.targets.get? id).map fun target => Thunk.mk fun _ => t.tuples target := by
  unfold answers SortedMap.get?
  induction s.targets.entries with
  | nil => rfl
  | cons e rest ih =>
    simp only [List.map_cons, SortedMap.lookup, ih]
    split <;> rfl

end Assignment

namespace System

def firstGateViolation (s : System) (t : Assignment) : Except Fault (Option Violation) :=
  s.gates.findSomeM? fun g =>
    (t.activeRows g.selector 0 t.height).findSomeM? (t.gateViolation g)

def firstLookupViolation (s : System) (t : Assignment) : Except Fault (Option Violation) :=
  let known := t.answers s
  s.lookupGates.findSomeM? fun g =>
    (t.activeRows g.tag 0 t.height).findSomeM? (t.lookupViolation known g)

/-- The first violation of a system by an assignment; none if it is satisfied. -/
def firstViolation (s : System) (t : Assignment) : Except Fault (Option Violation) := do
  match ← s.firstGateViolation t with
  | some v => .ok (some v)
  | none =>
    match ← s.copies.findSomeM? t.copyViolation with
    | some v => .ok (some v)
    | none => s.firstLookupViolation t

end System
end Plonkish
