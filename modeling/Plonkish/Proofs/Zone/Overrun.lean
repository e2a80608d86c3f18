import Plonkish.Proofs.System
import Plonkish.Proofs.Zone.Active
import Plonkish.Satisfaction

/-! When a check of a window faults. Cells outside a window are left out of its zones, but before that every variable of
    whatever is on in the window is turned into an absolute one. There a variable overruns if it stands for a row that
    does not fit in a rotation. This is the only way in which a check ends without an answer, and each check that asks
    for anything ends so then (`run_answers_iff`), although the cell is not one of the window, and the check of the
    constraints takes it for zero (`rowTooLarge_of_far_gate`). -/

namespace Plonkish
namespace Check

theorem faults_run (c : Check) (s : System) (t : Assignment) (inputs outputs : List Variable) (start rows : Nat) :
    Faults (c.run s t inputs outputs start rows) .rowTooLarge (c ≠ nothing ∧ s.Overruns t start rows) := by
  unfold run
  split
  · rename_i hnothing
    exact (Faults.ok true).congr (by simp [hnothing])
  · rename_i hnothing
    exact ((Zones.faults_make s t inputs outputs start rows).map _).congr (by simp [hnothing])

/-- A check answers unless it asks for something and a variable that something on in the window reads overruns. Then it
    ends with the fault of a row that is too large, and no other fault is known. Every address that a variable has in
    zones that were made has a zone. -/
theorem run_answers_iff (c : Check) (s : System) (t : Assignment) (inputs outputs : List Variable)
    (start rows : Nat) :
    ((∃ b, c.run s t inputs outputs start rows = .ok b) ↔ c = nothing ∨ ¬ s.Overruns t start rows) ∧
      (∀ e, c.run s t inputs outputs start rows = .error e ↔
        e = .rowTooLarge ∧ c ≠ nothing ∧ s.Overruns t start rows) ∧
      ∀ z, Zones.make s t inputs outputs start rows = .ok z →
        ∀ v a, z.space.address? v = some a → ∃ zone, z.zoneOf a = .ok zone := by
  have hfaults := c.faults_run s t inputs outputs start rows
  refine ⟨?_, hfaults, fun z _ v a ha => ?_⟩
  · rw [hfaults.ok_iff, not_and_or, not_not]
  · have helement : Partition.element? z.space.size a = .ok ⟨a, Zone.Space.address?_lt ha⟩ :=
      dif_pos (Zone.Space.address?_lt ha)
    exact ⟨_, map_eq_ok.mpr ⟨_, helement, rfl⟩⟩

/-- A gate that is on in the row 1 reads a witness so far below that its row does not fit in a rotation. The constraint
    holds, as that cell is zero, but the check of the row ends with a fault. -/
theorem rowTooLarge_of_far_gate :
    let far : Variable := .witness 0 2147483647
    let s : System := { System.empty with gates := [⟨0, [.var far]⟩], nextSelector := 1 }
    let t : Assignment := ⟨#[#[]], #[], #[], #[#[0, 1]]⟩
    let c : Check := ⟨.strong, false⟩
    s.Built ∧ 1 + 1 ≤ Variable.rowLimit ∧ s.firstViolation t = .ok none ∧
      c.run s t [] [] 0 1 = .ok true ∧ c.run s t [] [] 1 1 = .error .rowTooLarge := by
  intro far s t c
  have hgate : System.empty.addGate [.var far] = .ok (0, s) := by cbv
  exact ⟨.gate .empty hgate, by decide, by rfl, by decide +kernel, by decide +kernel⟩

end Check
end Plonkish
