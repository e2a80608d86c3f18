import Plonkish.Assignment.Basic

/-! Tables that come out of another one by writes. What is written is left open, up to a condition on the single cells
    (`Edits`). Through any number of writes no column comes or goes, and a cell either keeps its value or takes one
    that was allowed there (`Edits.cell`). -/

namespace Plonkish
namespace Assignment

/-- A table comes out of another one by writing cells one at a time, or whole columns of constants and selectors, and
    nothing is written to a cell but what may be there. -/
inductive Edits (may : ColumnKind → Nat → Nat → Scalar → Prop) (t : Assignment) : Assignment → Prop where
  | refl : Edits may t t
  | set {a b : Assignment} {kind : ColumnKind} {column row : Nat} {x : Scalar} (h : Edits may t a)
    (hmay : may kind column row x) (hb : a.set kind column row x = .ok b) : Edits may t b
  | replace {a b : Assignment} {kind : ColumnKind} {column : Nat} {values : Array Scalar} (h : Edits may t a)
    (hkind : kind = .constant ∨ kind = .selector) (hmay : ∀ row, may kind column row (values[row]?.getD 0))
    (hb : a.replace kind column values = .ok b) : Edits may t b

namespace Edits
variable {may : ColumnKind → Nat → Nat → Scalar → Prop} {t t' : Assignment}

theorem width (h : Edits may t t') (kind : ColumnKind) : t'.width kind = t.width kind := by
  induction h with
  | refl => rfl
  | set _ _ hb ih => rw [width_set hb, ih]
  | replace _ _ _ hb ih => rw [width_replace hb, ih]

/-- A cell has the value that it had, or one that may be written there. -/
theorem cell (h : Edits may t t') (kind : ColumnKind) (column row : Nat) :
    t'.cell kind column row = t.cell kind column row ∨ may kind column row (t'.cell kind column row) := by
  induction h with
  | refl => exact Or.inl rfl
  | set _ hmay hb ih =>
    rw [cell_set hb]
    split
    · rename_i hcell
      obtain ⟨rfl, rfl, rfl⟩ := hcell
      exact Or.inr hmay
    · exact ih
  | replace _ _ hmay hb ih =>
    rw [cell_replace hb]
    split
    · rename_i hcell
      obtain ⟨rfl, rfl⟩ := hcell
      exact Or.inr (hmay row)
    · exact ih

end Edits
end Assignment
end Plonkish
