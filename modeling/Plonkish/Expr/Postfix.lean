import Plonkish.Expr.Basic

/-! Expressions in postfix order: operands come before their operator. A sequence of tokens is an
    expression if it leaves exactly one tree. -/

namespace Plonkish
namespace Expr

inductive Token where
  | constant (c : Scalar)
  | var (v : Variable)
  | add
  | sub
  | mul
  | neg
  deriving DecidableEq

/-- Carries out one step on the trees built so far, the latest one first. -/
def Token.apply : Token → List Expr → Option (List Expr)
  | .constant c, stack => some (.constant c :: stack)
  | .var v, stack => some (.var v :: stack)
  | .add, y :: x :: stack => some (.add x y :: stack)
  | .sub, y :: x :: stack => some (.sub x y :: stack)
  | .mul, y :: x :: stack => some (.mul x y :: stack)
  | .neg, x :: stack => some (.neg x :: stack)
  | _, _ => none

def ofPostfix? (tokens : List Token) : Option Expr :=
  match tokens.foldlM (fun stack t => t.apply stack) [] with
  | some [x] => some x
  | _ => none

end Expr
end Plonkish
