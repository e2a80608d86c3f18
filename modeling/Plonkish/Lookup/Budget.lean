import Plonkish.Fault

/-! Row budgets for the layout search. A budget shrinks to three less than the largest power of two in
    it, until nothing is left to shrink to; every step makes it strictly smaller (`shrink?_lt`), so the
    steps end. -/

namespace Plonkish
namespace Lookup

/-- The first row of the constant columns that tables may use. The row above it stays zero, so that an
    inactive lookup of zeros finds an entry. -/
def firstRow : Nat := 1

/-- The row budget that the search starts from unless told otherwise. -/
def defaultBudget : Nat := 250000

/-- The exponent of the largest power of two that is at most `n`. -/
def floorLog2 (n : Nat) : Except Fault Nat :=
  if n = 0 then .error .logarithmOfZero else .ok n.log2

/-- Three less than the largest power of two in the budget, unless that would be negative. -/
def shrink? (budget : Nat) : Option Nat :=
  if budget = 0 ∨ 1 <<< budget.log2 < 3 then none else some ((1 <<< budget.log2) - 3)

theorem shrink?_lt {b c : Nat} (h : shrink? b = some c) : c < b := by
  unfold shrink? at h
  split at h
  · cases h
  · rename_i hb
    have hne : b ≠ 0 := fun h => hb (Or.inl h)
    have hle : 1 <<< b.log2 ≤ b := Nat.one_shiftLeft _ ▸ Nat.log2_self_le hne
    have hc := Option.some.inj h
    omega

/-- The budgets reached from `b` by shrinking, in order. -/
def shrinkings (b : Nat) : List Nat :=
  match _h : shrink? b with
  | some c => c :: shrinkings c
  | none => []
termination_by b
decreasing_by exact shrink?_lt _h

end Lookup
end Plonkish
