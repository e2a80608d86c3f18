import Mathlib
import Plonkish.Component.Assign
import Plonkish.Proofs.Component.Placed
import Plonkish.Proofs.Satisfaction

/-! Soundness of the arithmetic components. Whatever a table holds, if the cells that placing a component
    lit are still on and the system is satisfied, then the cell of the result holds what the component
    computes from its inputs. For a running sum this goes down the rows: the copies carry the sum of the
    row above into the next one, so the third column holds the sum of the terms so far. -/

namespace Plonkish

/-! ### Reading single cells -/

namespace Assignment
variable {t : Assignment} {k : ColumnKind} {i r : Nat}

theorem value_at? {v : Variable} (h : Variable.at? k i r = .ok v) : t.value v = t.get? k i r := by
  obtain ⟨-, rfl⟩ := Variable.at?_eq_ok_iff.mp h
  rfl

/-- The values of the absolute variables of a table; zero for all others. -/
def read (t : Assignment) (v : Variable) : Scalar := (t.value v).toOption.getD 0

theorem read_eq {v : Variable} {x : Scalar} (h : t.value v = .ok x) : t.read v = x := by
  rw [read, h]
  rfl

end Assignment

namespace Component

theorem evaluate_operand {t : Assignment} {column row : Nat} :
    (operand column).evaluate (t.valueAt · row) = t.get? .witness column row := by
  simp [operand, Expr.evaluate, Assignment.valueAt, Variable.witness, Variable.row?]

/-- What a component computes from the values of its inputs. -/
def compute : (c : Component) → (Variable → Scalar) → c.Input → Scalar
  | addition _, read, (x, y) => read x + read y
  | multiplication _, read, (x, y) => read x * read y
  | xor _, read, (x, y) => xorLow (read x) (read y)
  | runningSum .., read, values => (values.map read).sum
  | rangeCheck .., read, x => read x

/-- The components that are made of gates alone. -/
def IsArithmetic : Component → Prop
  | addition _ => True
  | multiplication _ => True
  | runningSum .. => True
  | xor _ => False
  | rangeCheck .. => False

/-- The value at an end of a wire. -/
def End.read (t : Assignment) : End → Except Fault Scalar
  | given v => t.value v
  | own column row => t.get? .witness column row

theorem End.value_eq_read {t : Assignment} {e : End} {v : Variable} (h : e.variable = .ok v) :
    t.value v = e.read t := by
  cases e with
  | given w =>
    obtain rfl := Except.ok.inj h
    rfl
  | own column row => exact Assignment.value_at? h

/-! ### One row -/

/-- A tree of two operands is evaluated by an operation on their values. -/
def Computes (op : Expr → Expr → Expr) (f : Scalar → Scalar → Scalar) : Prop :=
  ∀ (x y : Expr) (read : Variable → Except Fault Scalar) (a b : Scalar),
    x.evaluate read = .ok a → y.evaluate read = .ok b → (op x y).evaluate read = .ok (f a b)

theorem computes_add : Computes .add (· + ·) := fun _ _ _ a b hx hy =>
  bind_eq_ok.mpr ⟨a, hx, bind_eq_ok.mpr ⟨b, hy, rfl⟩⟩

theorem computes_mul : Computes .mul (· * ·) := fun _ _ _ a b hx hy =>
  bind_eq_ok.mpr ⟨a, hx, bind_eq_ok.mpr ⟨b, hy, rfl⟩⟩

theorem third_eq_of_row {t : Assignment} {w : Trio} {row : Nat} {op : Expr → Expr → Expr}
    {f : Scalar → Scalar → Scalar} (hop : Computes op f) {x y : Variable}
    (hwire : ∀ e ∈ [(End.given x, End.own w.first row), (.given y, .own w.second row)],
      ∃ a, e.1.read t = .ok a ∧ e.2.read t = .ok a)
    (hgate : (Expr.sub (op (operand w.first) (operand w.second)) (operand w.third)).evaluate (t.valueAt · row) =
      .ok 0) :
    (∀ v ∈ [x, y], t.value v = .ok (t.read v)) ∧
      t.get? .witness w.third row = .ok (f (t.read x) (t.read y)) := by
  obtain ⟨a, hx, ha⟩ := hwire _ List.mem_cons_self
  obtain ⟨b, hy, hb⟩ := hwire _ (List.mem_cons_of_mem _ List.mem_cons_self)
  obtain ⟨s, hs, h⟩ := bind_eq_ok.mp hgate
  obtain ⟨z, hz, h⟩ := bind_eq_ok.mp h
  rw [hop _ _ _ a b (evaluate_operand.trans ha) (evaluate_operand.trans hb)] at hs
  obtain rfl := Except.ok.inj hs
  have hsub := Except.ok.inj h
  rw [Scalar.minus_eq_sub, sub_eq_zero] at hsub
  refine ⟨fun v hv => ?_, ?_⟩
  · rcases List.mem_cons.mp hv with rfl | hv
    · exact Assignment.read_eq hx ▸ hx
    · obtain rfl := List.mem_singleton.mp hv
      exact Assignment.read_eq hy ▸ hy
  · rw [← evaluate_operand, hz, Assignment.read_eq hx, Assignment.read_eq hy, hsub]

/-! ### Running sums -/

section RunningSum
variable {t : Assignment} {w : Trio} {row : Nat}

theorem third_eq_first (h : (Expr.sub (operand w.third) (operand w.first)).evaluate (t.valueAt · row) = .ok 0) :
    t.get? .witness w.third row = t.get? .witness w.first row := by
  obtain ⟨z, hz, h⟩ := bind_eq_ok.mp h
  obtain ⟨a, ha, h⟩ := bind_eq_ok.mp h
  have hsub := Except.ok.inj h
  rw [Scalar.minus_eq_sub, sub_eq_zero] at hsub
  rw [← evaluate_operand, ← evaluate_operand, hz, ha, hsub]

theorem third_eq_add {a p : Scalar} (ha : t.get? .witness w.first row = .ok a)
    (hp : t.get? .witness w.second row = .ok p)
    (h : (Expr.sub (.sub (operand w.third) (operand w.second)) (operand w.first)).evaluate (t.valueAt · row) =
      .ok 0) : t.get? .witness w.third row = .ok (p + a) := by
  obtain ⟨d, hd, h⟩ := bind_eq_ok.mp h
  obtain ⟨a', ha', h⟩ := bind_eq_ok.mp h
  obtain ⟨z, hz, hd⟩ := bind_eq_ok.mp hd
  obtain ⟨p', hp', hd⟩ := bind_eq_ok.mp hd
  rw [evaluate_operand, ha] at ha'
  rw [evaluate_operand, hp] at hp'
  obtain rfl := Except.ok.inj ha'
  obtain rfl := Except.ok.inj hp'
  obtain rfl := Except.ok.inj hd
  have hsub := Except.ok.inj h
  rw [Scalar.minus_eq_sub, Scalar.minus_eq_sub, sub_eq_zero, sub_eq_iff_eq_add'] at hsub
  rw [← evaluate_operand, hz, hsub]

/-- Down the rows of a running sum the third column holds the sums of the terms so far. -/
theorem third_eq_sum {values : List Variable} {read : Variable → Scalar}
    (hterm : ∀ j v, values[j]? = some v → t.get? .witness w.first (row + j) = .ok (read v))
    (hfirst : t.get? .witness w.third row = t.get? .witness w.first row)
    (hstep : ∀ j, 0 < j → j < values.length → ∀ a p, t.get? .witness w.first (row + j) = .ok a →
      t.get? .witness w.second (row + j) = .ok p → t.get? .witness w.third (row + j) = .ok (p + a))
    (hprev : ∀ j, j + 1 < values.length →
      t.get? .witness w.second (row + (j + 1)) = t.get? .witness w.third (row + j))
    {j : Nat} (hj : j < values.length) :
    t.get? .witness w.third (row + j) = .ok ((values.take (j + 1)).map read).sum := by
  induction j with
  | zero =>
    have h₀ : values[0]? = some values[0] := List.getElem?_eq_getElem hj
    rw [Nat.add_zero, hfirst, ← Nat.add_zero row, hterm 0 _ h₀]
    simp [List.take_add_one, h₀]
  | succ j ih =>
    -- The copy brings the sum of the row above into the second column of this one.
    have hj' : values[j + 1]? = some values[j + 1] := List.getElem?_eq_getElem hj
    have hp := (hprev j hj).trans (ih (Nat.lt_of_succ_lt hj))
    rw [hstep (j + 1) (Nat.succ_pos j) hj _ _ (hterm _ _ hj') hp, List.take_add_one (i := j + 1), hj',
      List.map_append, List.sum_append, Option.toList_some, List.map_singleton, List.sum_singleton]

theorem third_eq_sum_of_rows {values : List Variable} {terms : Nat} (pos : 0 < terms)
    (hlength : values.length = terms)
    (hwire : ∀ e ∈ (values.zipIdx row).map (fun (v, r) => (End.given v, End.own w.first r)) ++
        (List.range' row (terms - 1)).map fun r => (.own w.second (r + 1), .own w.third r),
      ∃ a, e.1.read t = .ok a ∧ e.2.read t = .ok a)
    (hfirst : (Expr.sub (operand w.third) (operand w.first)).evaluate (t.valueAt · row) = .ok 0)
    (hstep : ∀ r, row + 1 ≤ r → r < row + terms →
      (Expr.sub (.sub (operand w.third) (operand w.second)) (operand w.first)).evaluate (t.valueAt · r) = .ok 0) :
    (∀ v ∈ values, t.value v = .ok (t.read v)) ∧
      t.get? .witness w.third (row + terms - 1) = .ok (values.map t.read).sum := by
  -- The copies bring each input into the first cell of its row, and each sum into the row below.
  have hterm : ∀ j v, values[j]? = some v →
      t.value v = .ok (t.read v) ∧ t.get? .witness w.first (row + j) = .ok (t.read v) := fun j v hv => by
    have hmem : (v, row + j) ∈ values.zipIdx row := List.mem_zipIdx_iff_le_and_getElem?_sub.mpr (by simpa using hv)
    obtain ⟨a, hx, ha⟩ := hwire _ (List.mem_append_left _ (List.mem_map.mpr ⟨_, hmem, rfl⟩))
    exact ⟨Assignment.read_eq hx ▸ hx, Assignment.read_eq hx ▸ ha⟩
  have hprev : ∀ j, j + 1 < values.length →
      t.get? .witness w.second (row + (j + 1)) = t.get? .witness w.third (row + j) := fun j hj => by
    have hmem : row + j ∈ List.range' row (terms - 1) := List.mem_range'_1.mpr (by omega)
    obtain ⟨a, hp, hz⟩ := hwire _ (List.mem_append_right _ (List.mem_map.mpr ⟨_, hmem, rfl⟩))
    exact hp.trans hz.symm
  refine ⟨fun v hv => ?_, ?_⟩
  · obtain ⟨j, hj⟩ := List.getElem?_of_mem hv
    exact (hterm j v hj).1
  · have hsum := third_eq_sum (fun j v hv => (hterm j v hv).2) (third_eq_first hfirst)
      (fun j hpos hj a p ha hp => third_eq_add ha hp (hstep (row + j) (by omega) (by omega))) hprev
      (j := terms - 1) (by omega)
    rw [Nat.add_sub_assoc pos, hsum, List.take_of_length_le (by omega)]

end RunningSum

/-! ### Placed components -/

section Placed
variable {c : Component} {circuit placed : Circuit} {input : c.Input} {row : Nat} {output : Variable}
  {selectors : List Nat} {system : System} {t : Assignment}

/-- Where the cells lit by a placed component are on, its constraints vanish. -/
theorem gate_of_holds (h : c.place circuit input row = .ok (output, placed))
    (hregister : c.register circuit.system = .ok (selectors, system))
    (hon : ∀ e ∈ c.lit selectors row, t.isOn e.1 e.2) (ht : placed.system.Holds t) {i : Nat}
    {constraints : List Expr} {first stop : Nat} (hgate : c.gates[i]? = some constraints)
    (hfiring : c.firing[i]? = some (first, stop)) {r : Nat} (hr : row + first ≤ r ∧ r < row + stop) :
    ∀ x ∈ constraints, x.evaluate (t.valueAt · r) = .ok 0 := by
  obtain ⟨selectors', system', hregister', -, -, hwires, -⟩ := place_eq_ok h
  obtain ⟨rfl, rfl⟩ := Prod.mk.inj (Except.ok.inj (hregister.symm.trans hregister'))
  have hmem : (constraints, first, stop) ∈ c.gates.zip c.firing :=
    List.mem_of_getElem? (List.getElem?_zip_eq_some.mpr ⟨hgate, hfiring⟩)
  obtain ⟨selector, hlit, hg⟩ := lit_of_gate hregister hmem hr.1 hr.2
  exact ht.gates _ ((addWires_eq_ok hwires).2.mem_gates hg) r (hon _ hlit)

theorem wire_of_holds (h : c.place circuit input row = .ok (output, placed)) (ht : placed.system.Holds t)
    {e : End × End} (he : e ∈ c.wires input row) : ∃ x, e.1.read t = .ok x ∧ e.2.read t = .ok x := by
  obtain ⟨_, _, -, -, -, hwires, -⟩ := place_eq_ok h
  obtain ⟨v, w, hv, hw, hcopy⟩ := (addWires_eq_ok hwires).1 e he
  obtain ⟨x, hx, hy⟩ := ht.copies _ hcopy
  exact ⟨x, End.value_eq_read hv ▸ hx, End.value_eq_read hw ▸ hy⟩

/-- Where the cells lit by a placed component are on, what it looks up is found in the table of that name. -/
theorem lookup_of_holds (h : c.place circuit input row = .ok (output, placed))
    (hregister : c.register circuit.system = .ok (selectors, system))
    (hon : ∀ e ∈ c.lit selectors row, t.isOn e.1 e.2) (ht : placed.system.Holds t) {lookup : String × List Expr}
    (hl : lookup ∈ c.lookups) : ∃ id target, circuit.system.reserved.get? lookup.1 = some id ∧
      placed.system.targets.get? id = some target ∧ t.Finds target row lookup.2 := by
  obtain ⟨selectors', system', hregister', -, -, hwires, -⟩ := place_eq_ok h
  obtain ⟨rfl, rfl⟩ := Prod.mk.inj (Except.ok.inj (hregister.symm.trans hregister'))
  obtain ⟨tag, id, hlit, hid, hgate⟩ := lit_of_lookup hregister hl row
  obtain ⟨target, htarget, hfinds⟩ := ht.lookups _ ((addWires_eq_ok hwires).2.mem_lookupGates hgate) row (hon _ hlit) _
    (List.mem_singleton_self _)
  exact ⟨id, target, tableId_eq_ok hid, htarget, hfinds⟩

theorem third_eq_of_holds (hc : c.IsArithmetic) (h : c.place circuit input row = .ok (output, placed))
    (hregister : c.register circuit.system = .ok (selectors, system))
    (hon : ∀ e ∈ c.lit selectors row, t.isOn e.1 e.2) (holds : placed.system.Holds t) :
    (∀ v ∈ c.inputs input, t.value v = .ok (t.read v)) ∧ t.value output = .ok (c.compute t.read input) := by
  have gate := @gate_of_holds _ _ _ _ _ _ _ _ _ h hregister hon holds
  have wire := @wire_of_holds _ _ _ _ _ _ _ h holds
  obtain ⟨_, _, -, -, hcheck, -, houtput⟩ := place_eq_ok h
  cases c with
  | addition w =>
    obtain ⟨hx, hz⟩ := third_eq_of_row computes_add (fun e => wire)
      (gate (i := 0) rfl rfl (r := row) (by omega) _ List.mem_cons_self)
    exact ⟨hx, (Assignment.value_at? houtput).trans hz⟩
  | multiplication w =>
    obtain ⟨hx, hz⟩ := third_eq_of_row computes_mul (fun e => wire)
      (gate (i := 0) rfl rfl (r := row) (by omega) _ List.mem_cons_self)
    exact ⟨hx, (Assignment.value_at? houtput).trans hz⟩
  | runningSum w terms pos =>
    have hlength : List.length (α := Variable) input = terms := length_of_checkInput hcheck
    -- The first row is under the first gate, every row below it under the second one.
    obtain ⟨hx, hz⟩ := third_eq_sum_of_rows pos hlength (fun e => wire)
      (gate (i := 0) rfl rfl (r := row) (by omega) _ List.mem_cons_self)
      (fun r h₁ h₂ => gate (i := 1) rfl rfl (r := r) ⟨h₁, h₂⟩ _ List.mem_cons_self)
    exact ⟨hx, (Assignment.value_at? houtput).trans hz⟩
  | xor w => exact absurd hc id
  | rangeCheck column table => exact absurd hc id

/-- Placing a component turns on certain cells and changes no others. Whatever table keeps them on and satisfies
    the system holds the result of the inputs in the cell of the output. -/
theorem value_output_eq_compute (hc : c.IsArithmetic) (h : c.place circuit input row = .ok (output, placed)) :
    ∃ selectors system, c.register circuit.system = .ok (selectors, system) ∧
      (∀ k i r, placed.table.cell k i r =
        if k = .selector ∧ (i, r) ∈ c.lit selectors row then 1 else circuit.table.cell k i r) ∧
      ∀ t : Assignment, (∀ e ∈ c.lit selectors row, t.isOn e.1 e.2) → placed.system.firstViolation t = .ok none →
        (∀ v ∈ c.inputs input, t.value v = .ok (t.read v)) ∧ t.value output = .ok (c.compute t.read input) := by
  obtain ⟨selectors, system, hregister, -⟩ := place_eq_ok h
  refine ⟨selectors, system, hregister, cell_place h hregister, fun t hon ht => ?_⟩
  exact third_eq_of_holds hc h hregister hon (System.firstViolation_eq_none_iff.mp ht)

/-- A running sum of two public inputs, placed from row one on, in a table with other values around it. -/
theorem value_output_of_two_terms :
    let c : Component := .runningSum ⟨0, 1, 2⟩ 2 (by decide)
    let x : Variable := ⟨.publicInput, 0, .row 0⟩
    let y : Variable := ⟨.publicInput, 0, .row 1⟩
    let t : Assignment := ⟨#[#[9, 3, 4], #[0, 8, 3], #[6, 3, 7]], #[], #[#[3, 4]], #[#[0, 5], #[0, 0, 2]]⟩
    ∃ output placed, c.place ⟨.empty, .blank 3 0 1 2⟩ [x, y] 1 = .ok (output, placed) ∧
      (∀ e ∈ c.lit [0, 1] 1, t.isOn e.1 e.2) ∧ placed.system.firstViolation t = .ok none ∧
        t.value output = .ok (3 + 4) := by
  intro c x y t
  let system : System := { System.empty with
    gates := [⟨0, [.sub (operand 2) (operand 0)]⟩, ⟨1, [.sub (.sub (operand 2) (operand 1)) (operand 0)]⟩]
    nextSelector := 2 }
  let placed : Circuit := ⟨{ system with
    copies := [⟨x, ⟨.witness, 0, .row 1⟩⟩, ⟨y, ⟨.witness, 0, .row 2⟩⟩,
      ⟨⟨.witness, 1, .row 2⟩, ⟨.witness, 2, .row 1⟩⟩] },
    ⟨#[#[], #[], #[]], #[], #[#[]], #[#[0, 1], #[0, 0, 1]]⟩⟩
  have hplace : c.place ⟨.empty, .blank 3 0 1 2⟩ [x, y] 1 = .ok (⟨.witness, 2, .row 2⟩, placed) := by cbv
  have hregister : c.register .empty = .ok ([0, 1], system) := by cbv
  have hon : ∀ e ∈ c.lit [0, 1] 1, t.isOn e.1 e.2 := by decide
  have hsat : placed.system.firstViolation t = .ok none := by rfl
  have harith : c.IsArithmetic := trivial
  obtain ⟨selectors, system', hregister', -, hsound⟩ := value_output_eq_compute harith hplace
  obtain ⟨rfl, rfl⟩ := Prod.mk.inj (Except.ok.inj (hregister.symm.trans hregister'))
  exact ⟨_, placed, hplace, hon, hsat, (hsound t hon hsat).2⟩

end Placed

end Component
end Plonkish
