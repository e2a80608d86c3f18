import Mathlib
import Plonkish.Proofs.Component.Feasible
import Plonkish.Proofs.Zone.Active

/-! How the cells of a component hang together. Whatever a component constrains in one of its rows reads the cell
    of that row in the column of the result (`reads_result`), and of every copy that it makes one end is a
    cell that it constrains (`exists_active_of_wire`). The copies of a running sum join each row to the next
    (`joined_succ`). So all cells that a component constrains or ties are joined to the cell of its result
    (`joined_of_active`, `joined_of_ties`), and its inputs are among them (`joined_of_input`). -/

namespace Plonkish
namespace Component
open Zone (Reads)

/-- The expressions that a component placed at a row constrains in row `r`. -/
inductive Active (c : Component) (row r : Nat) (xs : List Expr) : Prop where
  | gate {first stop : Nat} (hgate : (xs, first, stop) ∈ c.gates.zip c.firing) (hlo : row + first ≤ r)
    (hhi : r < row + stop)
  | lookup {name : String} (hlookup : (name, xs) ∈ c.lookups) (hrow : r = row)

/-- The component constrains two cells together, or ties one to the other by a copy. -/
def Joins (c : Component) (input : c.Input) (row : Nat) (v w : Variable) : Prop :=
  (∃ r xs, c.Active row r xs ∧ Reads xs r v ∧ Reads xs r w) ∨ c.Ties input row ⟨v, w⟩

/-- A witness cell. -/
def cell (column row : Nat) : Variable := ⟨.witness, column, .row row⟩

variable {c : Component} {input : c.Input} {row r : Nat} {xs : List Expr} {v w : Variable}

/-! ### What is constrained in a row -/

theorem cellAt?_operand (i r : Nat) : (Variable.witness i 0).cellAt? r = some (cell i r) := by
  simp [Variable.cellAt?, Variable.row?, Variable.witness, cell]

theorem resolve_operand (i : Nat) (hr : r < Variable.rowLimit) :
    (Variable.witness i 0).resolve r = .ok (some (cell i r)) := by
  simp [Variable.resolve, Variable.row?, Variable.witness, Variable.at?, hr, Except.map, cell]

theorem Active.mem_rows (h : c.Active row r xs) : row ≤ r ∧ r < row + c.rows := by
  cases h with
  | gate hgate hlo hhi =>
    have hstop := stop_le_rows (List.of_mem_zip hgate).2
    omega
  | lookup _ hrow =>
    have hrows := c.rows_pos
    omega

theorem Active.operand (h : c.Active row r xs) {x : Expr} (hx : x ∈ xs) (hv : v ∈ x.leaves) :
    ∃ i ∈ c.columns, v = .witness i 0 := by
  cases h with
  | gate hgate => exact operand_of_gates (List.of_mem_zip hgate).1 hx hv
  | lookup hlookup => exact operand_of_lookups hlookup hx hv

/-- A component constrains cells of its own, in the row of the gate. -/
theorem Active.eq_cell (h : c.Active row r xs) (hv : Reads xs r v) : ∃ i ∈ c.columns, v = cell i r := by
  obtain ⟨x, hx, u, hu, hcell⟩ := hv
  obtain ⟨i, hi, rfl⟩ := h.operand hx hu
  rw [cellAt?_operand] at hcell
  exact ⟨i, hi, (Option.some.inj hcell).symm⟩

theorem reads_operand {x : Expr} {i : Nat} (hx : x ∈ xs) (hi : .witness i 0 ∈ x.leaves) : Reads xs r (cell i r) :=
  ⟨x, hx, _, hi, cellAt?_operand i r⟩

/-- The columns that a component constrains in each of its rows: all, but for the sums so far of a running sum, which
    it does not constrain in the first row. -/
def rowColumns : Component → List Nat
  | runningSum w _ _ => [w.first, w.third]
  | addition w => w.toList
  | multiplication w => w.toList
  | xor w => w.toList
  | rangeCheck column _ => [column]

theorem resultColumn_mem (c : Component) : c.resultColumn ∈ c.rowColumns := by
  cases c <;> simp [resultColumn, rowColumns, Trio.toList]

theorem rowColumns_subset (c : Component) : c.rowColumns ⊆ c.columns := by
  cases c <;> simp [rowColumns, columns, Trio.toList]

theorem reads_of_active (h : c.Active row r xs) {i : Nat} (hi : i ∈ c.rowColumns) : Reads xs r (cell i r) := by
  have htrio : ∀ {w : Trio} {op : Expr → Expr → Expr}, i ∈ w.toList → (∀ x y, (op x y).leaves = x.leaves ++ y.leaves) →
      Reads [.sub (op (operand w.first) (operand w.second)) (operand w.third)] r (cell i r) := by
    intro w op hi hop
    simp only [Trio.toList, List.mem_cons, List.not_mem_nil, or_false] at hi
    refine reads_operand List.mem_cons_self ?_
    rcases hi with rfl | rfl | rfl <;> simp [Expr.leaves, hop, operand]
  cases c with
  | addition w =>
    cases h with
    | gate hgate =>
      obtain ⟨rfl, -⟩ := Prod.mk.inj (List.mem_singleton.mp hgate)
      exact htrio hi fun _ _ => rfl
    | lookup hlookup => cases hlookup
  | multiplication w =>
    cases h with
    | gate hgate =>
      obtain ⟨rfl, -⟩ := Prod.mk.inj (List.mem_singleton.mp hgate)
      exact htrio hi fun _ _ => rfl
    | lookup hlookup => cases hlookup
  | xor w =>
    cases h with
    | gate hgate => cases hgate
    | lookup hlookup =>
      obtain ⟨-, rfl⟩ := Prod.mk.inj (List.mem_singleton.mp hlookup)
      exact reads_operand (List.mem_map_of_mem hi) (List.mem_singleton_self _)
  | runningSum w terms pos =>
    cases h with
    | gate hgate =>
      -- Both gates of a running sum read the term and the new sum.
      rcases List.mem_pair.mp hgate with hgate | hgate <;> obtain ⟨rfl, -⟩ := Prod.mk.inj hgate <;>
        rcases List.mem_pair.mp hi with rfl | rfl <;>
        exact reads_operand List.mem_cons_self (by simp [operand, Expr.leaves])
    | lookup hlookup => cases hlookup
  | rangeCheck column table =>
    cases h with
    | gate hgate => cases hgate
    | lookup hlookup =>
      obtain ⟨-, rfl⟩ := Prod.mk.inj (List.mem_singleton.mp hlookup)
      obtain rfl := List.mem_singleton.mp hi
      exact reads_operand (List.mem_singleton_self _) (List.mem_singleton_self _)

/-- Below its first row a running sum constrains the sum so far. -/
theorem reads_second {w : Trio} {terms : Nat} {pos : 0 < terms} (h : (runningSum w terms pos).Active row r xs)
    (hbelow : row < r) : Reads xs r (cell w.second r) := by
  cases h with
  | gate hgate hlo hhi =>
    rcases List.mem_pair.mp hgate with hgate | hgate <;> simp only [Prod.mk.injEq] at hgate <;>
      obtain ⟨rfl, rfl, rfl⟩ := hgate
    · omega
    · exact reads_operand List.mem_cons_self (by simp [operand, Expr.leaves])
  | lookup hlookup => cases hlookup

/-- In each of its rows a component constrains something. -/
theorem exists_active (hlo : row ≤ r) (hhi : r < row + c.rows) : ∃ xs, c.Active row r xs := by
  cases c with
  | runningSum w terms pos =>
    rcases Nat.eq_or_lt_of_le hlo with rfl | hlo
    · exact ⟨_, .gate List.mem_cons_self le_rfl (Nat.lt_succ_self _)⟩
    · exact ⟨_, .gate (List.mem_cons_of_mem _ List.mem_cons_self) hlo hhi⟩
  | addition w => exact ⟨_, .gate (List.mem_singleton_self _) hlo hhi⟩
  | multiplication w => exact ⟨_, .gate (List.mem_singleton_self _) hlo hhi⟩
  | xor w => exact ⟨_, .lookup (List.mem_singleton_self _) (Nat.le_antisymm (Nat.le_of_lt_succ hhi) hlo)⟩
  | rangeCheck column table =>
    exact ⟨_, .lookup (List.mem_singleton_self _) (Nat.le_antisymm (Nat.le_of_lt_succ hhi) hlo)⟩

/-! ### Copies -/

/-- The second end of a copy that a component makes is a cell that it constrains. -/
theorem second_of_wire (harity : c.checkInput input = .ok ()) {e : End × End} (he : e ∈ c.wires input row) :
    ∃ i ∈ c.rowColumns, ∃ r, row ≤ r ∧ r < row + c.rows ∧ e.2 = .own i r := by
  have hpair : ∀ {w : Trio} {x y : Variable}, e ∈ [(End.given x, End.own w.first row), (.given y, .own w.second row)] →
      ∃ i ∈ w.toList, ∃ r, row ≤ r ∧ r < row + 1 ∧ e.2 = .own i r := by
    intro w x y he
    rcases List.mem_pair.mp he with rfl | rfl
    · exact ⟨w.first, by simp [Trio.toList], row, le_rfl, Nat.lt_succ_self _, rfl⟩
    · exact ⟨w.second, by simp [Trio.toList], row, le_rfl, Nat.lt_succ_self _, rfl⟩
  cases c with
  | addition w => exact hpair he
  | multiplication w => exact hpair he
  | xor w => exact hpair he
  | rangeCheck column table =>
    obtain rfl := List.mem_singleton.mp he
    exact ⟨column, List.mem_singleton_self _, row, le_rfl, Nat.lt_succ_self _, rfl⟩
  | runningSum w terms pos =>
    have hlength : List.length (α := Variable) input = terms := length_of_checkInput harity
    rcases List.mem_append.mp he with he | he
    · -- The copies of the inputs end in the first column, those of the sums begin in the third one.
      obtain ⟨⟨v, r⟩, hr, rfl⟩ := List.mem_map.mp he
      obtain ⟨hle, hv⟩ := List.mem_zipIdx_iff_le_and_getElem?_sub.mp hr
      have hlt := (List.getElem?_eq_some_iff.mp hv).1
      exact ⟨w.first, List.mem_cons_self, r, hle, by simp only [rows]; omega, rfl⟩
    · obtain ⟨r, hr, rfl⟩ := List.mem_map.mp he
      have hr := List.mem_range'_1.mp hr
      exact ⟨w.third, by simp [rowColumns], r, hr.1, by simp only [rows]; omega, rfl⟩

/-! ### Chains -/

section Chains
variable (hrows : row + c.rows ≤ Variable.rowLimit)
include hrows

theorem variable_own {i : Nat} (hhi : r < row + c.rows) : (End.own i r).variable = .ok (cell i r) :=
  if_pos (Nat.lt_of_lt_of_le hhi hrows)

/-- A component of several rows joins the cells of the result column in two rows that follow each other. -/
theorem joined_succ (hlo : row ≤ r) (hhi : r + 1 < row + c.rows) :
    Relation.EqvGen (c.Joins input row) (cell c.resultColumn (r + 1)) (cell c.resultColumn r) := by
  have hsingle : c.rows = 1 → False := fun h => by omega
  cases c with
  | runningSum w terms pos =>
    obtain ⟨xs, hactive⟩ := exists_active (Nat.le_succ_of_le hlo) hhi
    have hgate : (runningSum w terms pos).Joins input row (cell w.third (r + 1)) (cell w.second (r + 1)) :=
      Or.inl ⟨r + 1, xs, hactive, reads_of_active hactive (resultColumn_mem _), reads_second hactive (by omega)⟩
    have hmem : r ∈ List.range' row (terms - 1) := List.mem_range'_1.mpr ⟨hlo, by simp only [rows] at hhi; omega⟩
    have hcopy : (runningSum w terms pos).Joins input row (cell w.second (r + 1)) (cell w.third r) :=
      Or.inr ⟨_, List.mem_append_right _ (List.mem_map_of_mem hmem), variable_own hrows hhi,
        variable_own hrows (Nat.lt_of_succ_lt hhi)⟩
    exact .trans _ _ _ (.rel _ _ hgate) (.rel _ _ hcopy)
  | addition w => exact (hsingle rfl).elim
  | multiplication w => exact (hsingle rfl).elim
  | xor w => exact (hsingle rfl).elim
  | rangeCheck column table => exact (hsingle rfl).elim

theorem joined_row (hlo : row ≤ r) (hhi : r < row + c.rows) :
    Relation.EqvGen (c.Joins input row) (cell c.resultColumn r) (c.result row) := by
  obtain ⟨k, hk⟩ : ∃ k, r + k + 1 = row + c.rows := ⟨row + c.rows - 1 - r, by omega⟩
  -- From the last row upwards.
  induction k generalizing r with
  | zero =>
    obtain rfl : r = row + c.rows - 1 := by omega
    exact .refl _
  | succ k ih =>
    have hnext : Relation.EqvGen (c.Joins input row) (cell c.resultColumn (r + 1)) (cell c.resultColumn r) :=
      joined_succ hrows hlo (by omega)
    exact .trans _ _ _ hnext.symm (ih (by omega) (by omega) (by omega))

/-- Every cell that a component constrains is joined to the cell of its result. -/
theorem joined_of_active (h : c.Active row r xs) (hv : Reads xs r v) :
    Relation.EqvGen (c.Joins input row) v (c.result row) :=
  .trans _ _ _ (.rel _ _ (Or.inl ⟨r, xs, h, hv, reads_of_active h c.resultColumn_mem⟩))
    (joined_row hrows h.mem_rows.1 h.mem_rows.2)

variable (harity : c.checkInput input = .ok ())
include harity

/-- The second end of a copy that a component makes is a cell of its own. -/
theorem second_of_ties (h : c.Ties input row ⟨v, w⟩) :
    ∃ i ∈ c.rowColumns, ∃ r, row ≤ r ∧ r < row + c.rows ∧ w = cell i r := by
  obtain ⟨e, he, -, hw⟩ := h
  obtain ⟨i, hi, r, hlo, hhi, hend⟩ := second_of_wire harity he
  rw [hend, variable_own hrows hhi] at hw
  exact ⟨i, hi, r, hlo, hhi, (Except.ok.inj hw).symm⟩

omit hrows in
/-- The first end is an input or a cell of its own. -/
theorem first_of_ties (h : c.Ties input row ⟨v, w⟩) :
    v ∈ c.inputs input ∨ ∃ i ∈ c.columns, ∃ r, row ≤ r ∧ r < row + c.rows ∧ v = cell i r := by
  obtain ⟨e, he, hv, -⟩ := h
  obtain ⟨hend, -⟩ := endOf_wires harity he
  dsimp only at hv
  generalize e.1 = x at hend hv
  cases hend with
  | given hmem =>
    obtain rfl := Except.ok.inj hv
    exact Or.inl hmem
  | own hi hlo hhi => exact Or.inr ⟨_, hi, _, hlo, hhi, eq_of_at? hv⟩

/-- Both ends of every copy that a component makes are joined to the cell of its result. -/
theorem joined_of_ties (h : c.Ties input row ⟨v, w⟩) :
    Relation.EqvGen (c.Joins input row) v (c.result row) ∧ Relation.EqvGen (c.Joins input row) w (c.result row) := by
  obtain ⟨i, hi, r, hlo, hhi, rfl⟩ := second_of_ties hrows harity h
  obtain ⟨xs, hactive⟩ := exists_active hlo hhi
  have hsecond : Relation.EqvGen (c.Joins input row) (cell i r) (c.result row) :=
    joined_of_active hrows hactive (reads_of_active hactive hi)
  exact ⟨.trans _ _ _ (.rel _ _ (Or.inr h)) hsecond, hsecond⟩

/-- The inputs of a component are joined to its result. -/
theorem joined_of_input (hv : v ∈ c.inputs input) : Relation.EqvGen (c.Joins input row) v (c.result row) := by
  obtain ⟨e, he, hgiven⟩ : ∃ e ∈ c.wires input row, e.1 = .given v := exists_wire hv
  obtain ⟨i, -, r, -, hhi, hown⟩ := second_of_wire harity he
  have htie : c.Ties input row ⟨v, cell i r⟩ := ⟨e, he, by rw [hgiven]; rfl, by rw [hown]; exact variable_own hrows hhi⟩
  exact (joined_of_ties hrows harity htie).1

end Chains

end Component
end Plonkish
