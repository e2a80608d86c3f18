import Plonkish.Component.Basic
import Plonkish.Assignment.Basic

/-! Filling the witness of a component from the values of its inputs. Inputs are read before the cells of
    their row are written; a running sum reads and writes row by row. -/

namespace Plonkish
namespace Component

/-- Fills one row with two operands and the result of an operation on them. -/
def assignRow (w : Trio) (op : Scalar → Scalar → Scalar) (t : Assignment) (x y : Variable)
    (row : Nat) : Except Fault Assignment := do
  let a ← t.value x
  let b ← t.value y
  let t ← t.set .witness w.first row a
  let t ← t.set .witness w.second row b
  t.set .witness w.third row (op a b)

/-- Fills the rows of a running sum after the first, where `sum` is the sum of the terms above. -/
def assignTerms (w : Trio) (t : Assignment) (row : Nat) (sum : Scalar) :
    List Variable → Except Fault Assignment
  | [] => .ok t
  | v :: rest => do
    let a ← t.value v
    let t ← t.write (← Variable.at? .witness w.second row) sum
    let t ← t.write (← Variable.at? .witness w.first row) a
    let t ← t.write (← Variable.at? .witness w.third row) (sum + a)
    assignTerms w t (row + 1) (sum + a) rest

/-- Fills the rows of a running sum. The first row has no sum before it. -/
def assignSum (w : Trio) (t : Assignment) (row : Nat) : List Variable → Except Fault Assignment
  | [] => .ok t
  | v :: rest => do
    let a ← t.value v
    let t ← t.write (← Variable.at? .witness w.first row) a
    let t ← t.write (← Variable.at? .witness w.third row) a
    assignTerms w t (row + 1) a rest

/-- The exclusive or of the low 64 bits of two values. -/
def xorLow (a b : Scalar) : Scalar := Scalar.ofNat (a.low64 ^^^ b.low64)

def fill : (c : Component) → Assignment → c.Input → Nat → Except Fault Assignment
  | addition w, t, (x, y), row => assignRow w (· + ·) t x y row
  | multiplication w, t, (x, y), row => assignRow w (· * ·) t x y row
  | xor w, t, (x, y), row => assignRow w xorLow t x y row
  | runningSum w _ _, t, values, row => assignSum w t row values
  | rangeCheck column _, t, x, row => do
    let a ← t.value x
    t.set .witness column row a

/-- Fills the witness of a component placed at a row. Answers the cell of its result. -/
def assign (c : Component) (t : Assignment) (input : c.Input) (row : Nat) :
    Except Fault (Variable × Assignment) := do
  let t ← c.fill t input row
  let output ← c.output row
  .ok (output, t)

end Component
end Plonkish
