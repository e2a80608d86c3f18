import Plonkish.Assignment.Basic

/-! Addresses of cells. The zones of a component are about the witness and constant cells of a window of
    rows, about the public inputs, and about the boundary variables that are none of these. All of them are
    numbered without gaps: first the window, row by row with witnesses before constants; then the public
    inputs, column by column; then one slot for each further boundary variable. Every address is below the
    size of the space (`address?_lt`). -/

namespace Plonkish
namespace Zone

/-- The cells that have addresses. -/
structure Space where
  start : Nat
  rows : Nat
  witnesses : Nat
  constants : Nat
  publicInputs : Nat
  /-- The number of rows of the longest public input column. -/
  publicRows : Nat
  /-- The boundary variables outside the window and the public inputs. A relative one has a slot for each
      time it occurs, though it is never found there. -/
  slots : List Variable

namespace Space

def rowSize (s : Space) : Nat := s.witnesses + s.constants

def windowSize (s : Space) : Nat := s.rowSize * s.rows

def gridSize (s : Space) : Nat := s.windowSize + s.publicInputs * s.publicRows

/-- The number of addresses. -/
def size (s : Space) : Nat := s.gridSize + s.slots.length

def inWindow (s : Space) (row : Nat) : Bool := s.start ≤ row ∧ row < s.start + s.rows

/-- The address of a cell of the window, by its row and its place in the row. -/
def windowCell (s : Space) (row place : Nat) : Nat := (row - s.start) * s.rowSize + place

def publicCell (s : Space) (column row : Nat) : Nat := s.windowSize + column * s.publicRows + row

/-- The address of a cell of the window or a public input. -/
def gridAddress? (s : Space) (kind : ColumnKind) (index row : Nat) : Option Nat :=
  match kind with
  | .witness =>
    if s.inWindow row ∧ index < s.witnesses then some (s.windowCell row index) else none
  | .constant =>
    if s.inWindow row ∧ index < s.constants then some (s.windowCell row (s.witnesses + index))
    else none
  | .publicInput =>
    if index < s.publicInputs ∧ row < s.publicRows then some (s.publicCell index row) else none
  | .selector => none

def slotAddress? (s : Space) (v : Variable) : Option Nat :=
  (s.slots.idxOf? v).map (s.gridSize + ·)

/-- The address of an absolute variable. -/
def address? (s : Space) (v : Variable) : Option Nat :=
  match v.position with
  | .offset _ => none
  | .row r => (s.gridAddress? v.kind v.index r).or (s.slotAddress? v)

/-- Gives a variable a slot, unless it has an address. -/
def cover (s : Space) (v : Variable) : Space :=
  if (s.address? v).isSome then s else { s with slots := s.slots ++ [v] }

/-- The cells around a window of a table, for a list of boundary variables. -/
def ofTable (t : Assignment) (boundary : List Variable) (start rows : Nat) : Space :=
  boundary.foldl cover {
    start, rows
    witnesses := t.width .witness
    constants := t.width .constant
    publicInputs := t.width .publicInput
    publicRows := t.publicRows
    slots := [] }

/-! ### Bounds -/

theorem mul_add_lt {a b m n : Nat} (ha : a < m) (hb : b < n) : a * n + b < m * n :=
  calc a * n + b < a * n + n := by omega
    _ = (a + 1) * n := by rw [Nat.add_mul, Nat.one_mul]
    _ ≤ m * n := Nat.mul_le_mul_right n ha

theorem windowCell_lt {s : Space} {row place : Nat} (hr : s.inWindow row) (hp : place < s.rowSize) :
    s.windowCell row place < s.windowSize := by
  simp only [inWindow, decide_eq_true_eq] at hr
  rw [windowSize, Nat.mul_comm]
  exact mul_add_lt (by omega) hp

theorem gridAddress?_lt {s : Space} {kind : ColumnKind} {index row a : Nat}
    (h : s.gridAddress? kind index row = some a) : a < s.gridSize := by
  unfold gridAddress? at h
  unfold gridSize
  split at h
  · split at h
    · rename_i hc
      obtain rfl := Option.some.inj h
      have := windowCell_lt hc.1 (show index < s.rowSize from Nat.lt_add_right _ hc.2)
      omega
    · cases h
  · split at h
    · rename_i hc
      obtain rfl := Option.some.inj h
      have := windowCell_lt hc.1
        (show s.witnesses + index < s.rowSize from Nat.add_lt_add_left hc.2 _)
      omega
    · cases h
  · split at h
    · rename_i hc
      obtain rfl := Option.some.inj h
      have := mul_add_lt hc.1 hc.2
      unfold publicCell
      omega
    · cases h
  · cases h

theorem slotAddress?_lt {s : Space} {v : Variable} {a : Nat} (h : s.slotAddress? v = some a) :
    a < s.size := by
  obtain ⟨i, hi, rfl⟩ := Option.map_eq_some_iff.1 h
  have := (List.idxOf?_eq_some_iff.1 hi).1
  unfold size
  omega

/-- Every address is below the size of the space. -/
theorem address?_lt {s : Space} {v : Variable} {a : Nat} (h : s.address? v = some a) :
    a < s.size := by
  unfold address? at h
  split at h
  · cases h
  · rcases Option.or_eq_some_iff.1 h with h | ⟨-, h⟩
    · exact Nat.lt_of_lt_of_le (gridAddress?_lt h) (Nat.le_add_right ..)
    · exact slotAddress?_lt h

/-- The address of a variable as a number below the size. -/
def cell? (s : Space) (v : Variable) : Option (Fin s.size) :=
  match h : s.address? v with
  | some a => some ⟨a, address?_lt h⟩
  | none => none

end Space
end Zone
end Plonkish
