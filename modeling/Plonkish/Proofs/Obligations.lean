import Plonkish.Proofs.Expr.Leaves
import Plonkish.Proofs.Satisfaction
import Plonkish.Proofs.System

/-! What a system asks of an assignment. In a row where its selector is on, a gate asks that its constraints
    vanish and a lookup gate that its queries find their tuples. An assignment satisfies a system exactly if
    what is asked in each row is met and the ends of every copy agree (`holds_iff`). Selectors do not occur in
    this: two systems that ask the same in the same rows are satisfied alike (`firstViolation_congr`). -/

namespace Plonkish

namespace Assignment
variable {t t' : Assignment} {v : Variable}

theorem valueAt_of_cell (hwidth : t'.width v.kind = t.width v.kind)
    (hcell : ∀ r, t'.cell v.kind v.index r = t.cell v.kind v.index r) (row : Nat) :
    t'.valueAt v row = t.valueAt v row := by
  simp only [valueAt, get?, hwidth, hcell]

theorem valueAt_of_columns (h : t'.columns v.kind = t.columns v.kind) (row : Nat) :
    t'.valueAt v row = t.valueAt v row :=
  valueAt_of_cell (by rw [width, width, h]) (fun r => by rw [cell, cell, h]) row

theorem get?_of_columns (h : t'.columns v.kind = t.columns v.kind) :
    t'.get? v.kind v.index = t.get? v.kind v.index := by
  funext r
  rw [get?, get?, width, width, cell, cell, h]

theorem value_of_columns (h : t'.columns v.kind = t.columns v.kind) : t'.value v = t.value v := by
  rw [value, value, get?_of_columns h]

/-- Whether a selector is on is told by the selectors alone. -/
theorem isOn_of_selectors (h : t'.selectors = t.selectors) (selector row : Nat) :
    t'.isOn selector row = t.isOn selector row := by
  rw [isOn, isOn, cell, cell, columns, columns, h]

end Assignment

/-- What a gate or a lookup gate asks for in the rows where it is on. -/
inductive Ask where
  | gate (constraints : List Expr)
  | lookup (queries : List Query)
  deriving DecidableEq

namespace Ask

/-- The expressions that are asked about. -/
def exprs : Ask → List Expr
  | gate constraints => constraints
  | lookup queries => queries.flatMap Query.input

/-- In a row all constraints vanish, or all queries find their tuples in the tables of their ids. -/
def Met (targets : SortedMap Nat Target) (t : Assignment) (row : Nat) : Ask → Prop
  | gate constraints => ∀ x ∈ constraints, x.evaluate (t.valueAt · row) = .ok 0
  | lookup queries => ∀ q ∈ queries, ∃ target, targets.get? q.table = some target ∧ t.Finds target row q.input

end Ask

namespace System

/-- A gate or a lookup gate is registered under a selector. -/
def Registers (s : System) (selector : Nat) : Ask → Prop
  | .gate constraints => ⟨selector, constraints⟩ ∈ s.gates
  | .lookup queries => ⟨selector, queries⟩ ∈ s.lookupGates

/-- A system asks for something in a row. -/
def Obliges (s : System) (t : Assignment) (row : Nat) (ask : Ask) : Prop :=
  ∃ selector, s.Registers selector ask ∧ t.isOn selector row

variable {s s' : System} {t t' : Assignment} {targets : SortedMap Nat Target} {row : Nat} {ask : Ask}

theorem obliges_of_selectors (h : t'.selectors = t.selectors) : s.Obliges t' row ask ↔ s.Obliges t row ask := by
  simp only [Obliges, Assignment.isOn_of_selectors h]

theorem Grows.registers (h : Grows s s') {selector : Nat} (hask : s.Registers selector ask) :
    s'.Registers selector ask := by
  cases ask with
  | gate constraints => exact h.mem_gates hask
  | lookup queries => exact h.mem_lookupGates hask

theorem not_registers (hgates : s.gates = []) (hlookups : s.lookupGates = []) {selector : Nat} :
    ¬ s.Registers selector ask := by
  cases ask <;> simp [Registers, hgates, hlookups]

theorem holds_iff : s.Holds t ↔ (∀ row ask, s.Obliges t row ask → ask.Met s.targets t row) ∧
    ∀ c ∈ s.copies, ∃ x, t.value c.first = .ok x ∧ t.value c.second = .ok x := by
  constructor
  · refine fun h => ⟨fun row ask ⟨selector, hask, hon⟩ => ?_, h.copies⟩
    cases ask with
    | gate constraints => exact h.gates _ hask row hon
    | lookup queries => exact h.lookups _ hask row hon
  · rintro ⟨hasks, hcopies⟩
    exact ⟨fun g hg row hon => hasks row (.gate g.constraints) ⟨g.selector, hg, hon⟩, hcopies,
      fun g hg row hon => hasks row (.lookup g.queries) ⟨g.tag, hg, hon⟩⟩

/-! ### Assignments that show the same -/

theorem met_congr (hread : ∀ x ∈ ask.exprs, ∀ v ∈ x.leaves, t'.valueAt v row = t.valueAt v row)
    (htables : ∀ id target, targets.get? id = some target → t'.entries target = t.entries target) :
    ask.Met targets t' row ↔ ask.Met targets t row := by
  have hevaluate : ∀ x ∈ ask.exprs,
      (x.evaluate (t'.valueAt · row) : Except Fault Scalar) = x.evaluate (t.valueAt · row) :=
    fun x hx => Expr.evaluate_congr (hread x hx)
  cases ask with
  | gate constraints => exact forall₂_congr fun x hx => by rw [hevaluate x hx]
  | lookup queries =>
    refine forall₂_congr fun q hq => exists_congr fun target => and_congr_right fun htarget => ?_
    have hinput : q.input.mapM (·.evaluate (t'.valueAt · row)) = q.input.mapM (·.evaluate (t.valueAt · row)) :=
      mapM_congr fun x hx => hevaluate x (List.mem_flatMap.mpr ⟨q, hq, hx⟩)
    simp only [Assignment.Finds, htables _ _ htarget, hinput]

/-- What the operands, the tables and the ends of the copies show is all that an assignment is asked about. -/
theorem firstViolation_congr (htargets : s'.targets = s.targets) (hcopies : ∀ c, c ∈ s'.copies ↔ c ∈ s.copies)
    (hobliges : ∀ row ask, s'.Obliges t' row ask ↔ s.Obliges t row ask)
    (hread : ∀ row ask, s.Obliges t row ask → ∀ x ∈ ask.exprs, ∀ v ∈ x.leaves, t'.valueAt v row = t.valueAt v row)
    (htables : ∀ id target, s.targets.get? id = some target → t'.entries target = t.entries target)
    (hends : ∀ c ∈ s.copies, t'.value c.first = t.value c.first ∧ t'.value c.second = t.value c.second) :
    s'.firstViolation t' = .ok none ↔ s.firstViolation t = .ok none := by
  rw [firstViolation_eq_none_iff, firstViolation_eq_none_iff, holds_iff, holds_iff]
  refine and_congr ?_ ?_
  · refine forall₂_congr fun row ask => ?_
    rw [hobliges, htargets]
    exact forall_congr' fun hask => met_congr (hread row ask hask) htables
  · refine forall_congr' fun c => ?_
    rw [hcopies]
    refine forall_congr' fun hc => ?_
    rw [(hends c hc).1, (hends c hc).2]

end System
end Plonkish
