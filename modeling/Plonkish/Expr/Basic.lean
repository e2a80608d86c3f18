import Plonkish.Sorted.Set
import Plonkish.Scalar
import Plonkish.Variable.Basic

/-! Polynomial expressions over cells. Constraints and lookup inputs are expression trees; nothing is
    simplified. Variables are collected by a walk over a list of trees still to visit, which meets the leaves
    from left to right. -/

namespace Plonkish

inductive Expr where
  | constant (c : Scalar)
  | var (v : Variable)
  | add (x y : Expr)
  | sub (x y : Expr)
  | mul (x y : Expr)
  | neg (x : Expr)
  deriving DecidableEq

namespace Expr

/-- The text of an expression. Sums and differences stand in parentheses, products and negations do
    not, and a zero constant is left blank. -/
def text : Expr → String
  | constant c => c.operand
  | var v => v.text
  | add x y => "(" ++ x.text ++ " + " ++ y.text ++ ")"
  | sub x y => "(" ++ x.text ++ " - " ++ y.text ++ ")"
  | mul x y => x.text ++ " * " ++ y.text
  | neg x => "-" ++ x.text

/-- The value of an expression whose variables are read by `read`, left operands first. -/
def evaluate {m : Type → Type} [Monad m] (read : Variable → m Scalar) : Expr → m Scalar
  | constant c => pure c
  | var v => read v
  | add x y => do
    let a ← x.evaluate read
    let b ← y.evaluate read
    pure (a + b)
  | sub x y => do
    let a ← x.evaluate read
    let b ← y.evaluate read
    pure (a.minus b)
  | mul x y => do
    let a ← x.evaluate read
    let b ← y.evaluate read
    pure (a * b)
  | neg x => do
    let a ← x.evaluate read
    pure a.opposite

/-! ### Variables -/

def size : Expr → Nat
  | constant _ => 1
  | var _ => 1
  | add x y => x.size + y.size + 1
  | sub x y => x.size + y.size + 1
  | mul x y => x.size + y.size + 1
  | neg x => x.size + 1

/-- The number of nodes of the trees of a stack. -/
def nodes : List Expr → Nat
  | [] => 0
  | x :: rest => x.size + nodes rest

/-- Visits the trees of a stack from the top: a leaf is answered, a node gives way to its operands. -/
def walk : List Expr → List Variable
  | [] => []
  | constant _ :: rest => walk rest
  | var v :: rest => v :: walk rest
  | add x y :: rest => walk (x :: y :: rest)
  | sub x y :: rest => walk (x :: y :: rest)
  | mul x y :: rest => walk (x :: y :: rest)
  | neg x :: rest => walk (x :: rest)
termination_by stack => nodes stack
decreasing_by all_goals simp only [nodes, size]; omega

/-- Every occurrence of a variable, from left to right. -/
def occurrences (x : Expr) : List Variable := walk [x]

/-- The distinct variables of a group of expressions. -/
def collect (xs : List Expr) : SortedSet Variable := SortedSet.ofList (xs.flatMap occurrences)

def support (x : Expr) : SortedSet Variable := collect [x]

end Expr
end Plonkish
