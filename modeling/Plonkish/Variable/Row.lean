import Plonkish.Fault

/-! Which row a variable stands for. An offset is resolved against the row of an active gate and may
    reach above the first row, where there is no cell; an absolute row stays where it is. Rows and offsets
    are kept within the range of a rotation, so that every variable has a written form. -/

namespace Plonkish
namespace Variable

/-- Rows from here on do not fit in a rotation. -/
def rowLimit : Nat := 1 <<< 31

/-- A variable from its written form: an absolute one must not be at a negative row. -/
def make? (kind : ColumnKind) (index : Nat) (rotation : Int) (relative : Bool) :
    Except Fault Variable :=
  if relative then .ok ⟨kind, index, .offset rotation⟩
  else if rotation < 0 then .error (.negativeRow kind index rotation)
  else .ok ⟨kind, index, .row rotation.toNat⟩

/-- The cell of a column at an absolute row. -/
def at? (kind : ColumnKind) (index row : Nat) : Except Fault Variable :=
  if row < rowLimit then .ok ⟨kind, index, .row row⟩ else .error .rowTooLarge

theorem at?_eq_ok_iff {kind : ColumnKind} {index row : Nat} {v : Variable} :
    at? kind index row = .ok v ↔ row < rowLimit ∧ v = ⟨kind, index, .row row⟩ := by
  unfold at?
  split
  · rename_i hlt
    simp [hlt, eq_comm]
  · rename_i hle
    simp [hle]

/-- The absolute row meant by a variable read from `row`; none above the first row. -/
def row? (v : Variable) (row : Nat) : Option Nat :=
  match v.position with
  | .offset d => if 0 ≤ (row : Int) + d then some ((row : Int) + d).toNat else none
  | .row r => some r

/-- The same cell as an absolute variable, for a gate active at `row`. -/
def resolve (v : Variable) (row : Nat) : Except Fault (Option Variable) :=
  match v.position with
  | .offset _ =>
    match v.row? row with
    | some r => (at? v.kind v.index r).map some
    | none => .ok none
  | .row _ => .ok (some v)

def absoluteRow (v : Variable) : Except Fault Nat :=
  match v.position with
  | .offset _ => .error (.relativeRow v)
  | .row r => .ok r

end Variable
end Plonkish
