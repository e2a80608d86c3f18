import Mathlib
import Plonkish.Component.Assign
import Plonkish.Proofs.Component.Soundness
import Plonkish.Proofs.Expr.Leaves

/-! What filling a component leaves in the table. It writes cells of the component only (`Writes`), and from
    inputs that lie outside of these the operands, sums and results that the component is about: its wires
    agree, its constraints vanish, and the cell of its result holds what it computes (`Filled`,
    `exists_fill`). For a running sum this goes down the rows with the sum so far. -/

namespace Plonkish

/-! ### Writing cells of a window -/

namespace Assignment
variable {t t' t'' : Assignment}

/-- Only witness cells of some columns from one row to before another are written. -/
structure Writes (columns : List Nat) (first stop : Nat) (t t' : Assignment) : Prop where
  width : ∀ k, t'.width k = t.width k
  cell : ∀ k i r, ¬ (k = .witness ∧ i ∈ columns ∧ first ≤ r ∧ r < stop) → t'.cell k i r = t.cell k i r

/-- A cell that is none of those. -/
def Outside (columns : List Nat) (first stop : Nat) (v : Variable) : Prop :=
  ∀ r, v.position = .row r → ¬ (v.kind = .witness ∧ v.index ∈ columns ∧ first ≤ r ∧ r < stop)

theorem Outside.mono {columns : List Nat} {first stop first' stop' : Nat} {v : Variable} (h : Outside columns first stop v)
    (hfirst : first ≤ first') (hstop : stop' ≤ stop) : Outside columns first' stop' v :=
  fun r hr ⟨hk, hi, hlo, hhi⟩ => h r hr ⟨hk, hi, by omega, by omega⟩

namespace Writes
variable {columns : List Nat} {first stop : Nat}

theorem refl (columns : List Nat) (first stop : Nat) (t : Assignment) : Writes columns first stop t t :=
  ⟨fun _ => rfl, fun _ _ _ _ => rfl⟩

theorem trans (h : Writes columns first stop t t') (h' : Writes columns first stop t' t'') :
    Writes columns first stop t t'' :=
  ⟨fun k => (h'.width k).trans (h.width k), fun k i r hout => (h'.cell k i r hout).trans (h.cell k i r hout)⟩

theorem mono {first' stop' : Nat} (h : Writes columns first stop t t') (hfirst : first' ≤ first) (hstop : stop ≤ stop') :
    Writes columns first' stop' t t' :=
  ⟨h.width, fun k i r hout => h.cell k i r fun ⟨hk, hi, hlo, hhi⟩ => hout ⟨hk, hi, by omega, by omega⟩⟩

/-- One of the columns can be written at a row. -/
theorem exists_set {i : Nat} (hi : i ∈ columns) (hwidth : i < t.width .witness) (r : Nat) (x : Scalar) :
    ∃ t', t.set .witness i r x = .ok t' ∧ Writes columns r (r + 1) t t' ∧ t'.cell .witness i r = x ∧
      ∀ j, j ≠ i → t'.cell .witness j r = t.cell .witness j r := by
  obtain ⟨t', h⟩ : ∃ t', t.set .witness i r x = .ok t' := ⟨_, if_pos hwidth⟩
  refine ⟨t', h, ⟨width_set h, fun k j s hout => ?_⟩, ?_, fun j hj => ?_⟩
  · rw [cell_set h, if_neg]
    rintro ⟨rfl, rfl, rfl⟩
    exact hout ⟨rfl, hi, Nat.le_refl _, Nat.lt_succ_self _⟩
  · rw [cell_set h, if_pos ⟨rfl, rfl, rfl⟩]
  · rw [cell_set h, if_neg fun he => hj he.2.1]

/-- A cell that is not written keeps its value. -/
theorem value_eq (h : Writes columns first stop t t') {v : Variable} (hout : Outside columns first stop v) :
    t'.value v = t.value v := by
  obtain ⟨k, i, d | r⟩ := v
  · rfl
  · show t'.get? k i r = t.get? k i r
    rw [get?, get?, h.width, h.cell k i r (hout r rfl)]

end Writes
end Assignment

namespace Component
open Assignment (Writes Outside)
variable {t t' : Assignment} {w : Trio} {row : Nat}

/-! ### One row -/

/-- What a row holds in three columns. -/
structure Row (t : Assignment) (w : Trio) (row : Nat) (a b z : Scalar) : Prop where
  first : t.cell .witness w.first row = a
  second : t.cell .witness w.second row = b
  third : t.cell .witness w.third row = z

theorem distinct_of_nodup (h : w.toList.Nodup) : w.first ≠ w.second ∧ w.first ≠ w.third ∧ w.second ≠ w.third := by
  simpa [Trio.toList, and_assoc] using h

theorem exists_assignRow (hw : w.toList.Nodup) (hwidth : ∀ i ∈ w.toList, i < t.width .witness)
    {op : Scalar → Scalar → Scalar} {x y : Variable} {a b : Scalar} (hx : t.value x = .ok a) (hy : t.value y = .ok b) :
    ∃ t', assignRow w op t x y row = .ok t' ∧ Writes w.toList row (row + 1) t t' ∧ Row t' w row a b (op a b) := by
  obtain ⟨h₁₂, h₁₃, h₂₃⟩ := distinct_of_nodup hw
  have hmem : w.first ∈ w.toList ∧ w.second ∈ w.toList ∧ w.third ∈ w.toList := by simp [Trio.toList]
  obtain ⟨t₁, hset₁, hw₁, hcell₁, -⟩ := Writes.exists_set hmem.1 (hwidth _ hmem.1) row a
  obtain ⟨t₂, hset₂, hw₂, hcell₂, hother₂⟩ :=
    Writes.exists_set hmem.2.1 (hw₁.width .witness ▸ hwidth _ hmem.2.1) row b
  obtain ⟨t₃, hset₃, hw₃, hcell₃, hother₃⟩ :=
    Writes.exists_set hmem.2.2 ((hw₁.trans hw₂).width .witness ▸ hwidth _ hmem.2.2) row (op a b)
  refine ⟨t₃, ?_, (hw₁.trans hw₂).trans hw₃, ?_, ?_, hcell₃⟩
  · exact bind_eq_ok.mpr ⟨a, hx, bind_eq_ok.mpr ⟨b, hy, bind_eq_ok.mpr ⟨t₁, hset₁, bind_eq_ok.mpr ⟨t₂, hset₂, hset₃⟩⟩⟩⟩
  · rw [hother₃ _ h₁₃, hother₂ _ h₁₂, hcell₁]
  · rw [hother₃ _ h₂₃, hcell₂]

/-! ### Running sums -/

/-- A row keeps what it holds while other rows are written. -/
theorem Row.keep {a b z : Scalar} {first stop : Nat} (h : Row t w row a b z) (hw : Writes w.toList first stop t t')
    (hrow : row < first) : Row t' w row a b z := by
  have hcell : ∀ i, t'.cell .witness i row = t.cell .witness i row := fun i =>
    hw.cell _ _ _ fun ⟨_, _, hle, _⟩ => Nat.not_lt.mpr hle hrow
  exact ⟨(hcell _).trans h.first, (hcell _).trans h.second, (hcell _).trans h.third⟩

/-- While a row is written, terms that lie outside of it and of the rows below keep their values. -/
theorem below_of_writes {v : Variable} {rest : List Variable} {read : Variable → Scalar}
    (h : Writes w.toList row (row + 1) t t') (hread : ∀ u ∈ v :: rest, t.value u = .ok (read u))
    (hout : ∀ u ∈ v :: rest, Outside w.toList row (row + (rest.length + 1)) u) :
    (∀ u ∈ rest, t'.value u = .ok (read u)) ∧ ∀ u ∈ rest, Outside w.toList (row + 1) (row + 1 + rest.length) u := by
  refine ⟨fun u hu => ?_, fun u hu => ?_⟩
  · rw [h.value_eq ((hout u (List.mem_cons_of_mem _ hu)).mono le_rfl (by omega))]
    exact hread u (List.mem_cons_of_mem _ hu)
  · exact (hout u (List.mem_cons_of_mem _ hu)).mono (by omega) (by omega)

/-- The rows of a running sum hold the terms, the sums before them and the sums with them. -/
theorem exists_assignTerms (hw : w.toList.Nodup) (hwidth : ∀ i ∈ w.toList, i < t.width .witness)
    {values : List Variable} {read : Variable → Scalar} (hread : ∀ v ∈ values, t.value v = .ok (read v))
    (hout : ∀ v ∈ values, Outside w.toList row (row + values.length) v)
    (hrow : row + values.length ≤ Variable.rowLimit) (sum : Scalar) :
    ∃ t', assignTerms w t row sum values = .ok t' ∧ Writes w.toList row (row + values.length) t t' ∧
      ∀ j v, values[j]? = some v → Row t' w (row + j) (read v) (sum + ((values.take j).map read).sum)
        (sum + ((values.take (j + 1)).map read).sum) := by
  induction values generalizing t row sum with
  | nil => exact ⟨t, rfl, .refl _ _ _ _, fun j v hv => by simp at hv⟩
  | cons v rest ih =>
    obtain ⟨h₁₂, h₁₃, h₂₃⟩ := distinct_of_nodup hw
    have hmem : w.first ∈ w.toList ∧ w.second ∈ w.toList ∧ w.third ∈ w.toList := by simp [Trio.toList]
    rw [List.length_cons] at hout hrow
    obtain ⟨t₁, hset₁, hw₁, hcell₁, -⟩ := Writes.exists_set hmem.2.1 (hwidth _ hmem.2.1) row sum
    obtain ⟨t₂, hset₂, hw₂, hcell₂, hother₂⟩ :=
      Writes.exists_set hmem.1 (hw₁.width .witness ▸ hwidth _ hmem.1) row (read v)
    obtain ⟨t₃, hset₃, hw₃, hcell₃, hother₃⟩ :=
      Writes.exists_set hmem.2.2 ((hw₁.trans hw₂).width .witness ▸ hwidth _ hmem.2.2) row (sum + read v)
    -- The three writes stay in this row, so what the other terms read is as it was.
    have hrow₃ : Writes w.toList row (row + 1) t t₃ := (hw₁.trans hw₂).trans hw₃
    obtain ⟨hread₃, hout₃⟩ := below_of_writes hrow₃ hread hout
    obtain ⟨t', hrest, hwrites, hrows⟩ := ih (fun i hi => hrow₃.width .witness ▸ hwidth i hi) hread₃ hout₃ (by omega)
      (sum + read v)
    have hat : ∀ i, Variable.at? .witness i row = .ok ⟨.witness, i, .row row⟩ := fun i => if_pos (by omega)
    refine ⟨t', ?_, (hrow₃.mono (Nat.le_refl _) (by simp)).trans (hwrites.mono (by omega) (by simp; omega)), ?_⟩
    · exact bind_eq_ok.mpr ⟨_, hread v List.mem_cons_self, bind_eq_ok.mpr ⟨_, hat _, bind_eq_ok.mpr ⟨t₁, hset₁,
        bind_eq_ok.mpr ⟨_, hat _, bind_eq_ok.mpr ⟨t₂, hset₂, bind_eq_ok.mpr ⟨_, hat _, bind_eq_ok.mpr ⟨t₃, hset₃,
          hrest⟩⟩⟩⟩⟩⟩⟩
    · intro j u hu
      cases j with
      | zero =>
        obtain rfl := Option.some.inj hu
        have hheld : Row t₃ w row (read v) sum (sum + read v) :=
          ⟨by rw [hother₃ _ h₁₃, hcell₂], by rw [hother₃ _ h₂₃, hother₂ _ h₁₂.symm, hcell₁], hcell₃⟩
        simpa using hheld.keep hwrites (Nat.lt_succ_self row)
      | succ j =>
        -- Seen from the next row the terms are one less.
        have hrow' := hrows j u hu
        rw [show row + 1 + j = row + (j + 1) by omega] at hrow'
        simpa [add_assoc] using hrow'

/-- The rows of a running sum: each holds a term, from the second row on the sum before it, and the sum with it. -/
structure Summed (t : Assignment) (w : Trio) (row : Nat) (values : List Variable) (read : Variable → Scalar) : Prop where
  first : ∀ j v, values[j]? = some v → t.cell .witness w.first (row + j) = read v
  second : ∀ j v, values[j]? = some v → 0 < j → t.cell .witness w.second (row + j) = ((values.take j).map read).sum
  third : ∀ j v, values[j]? = some v → t.cell .witness w.third (row + j) = ((values.take (j + 1)).map read).sum

theorem exists_assignSum (hw : w.toList.Nodup) (hwidth : ∀ i ∈ w.toList, i < t.width .witness)
    {values : List Variable} {read : Variable → Scalar} (hread : ∀ v ∈ values, t.value v = .ok (read v))
    (hout : ∀ v ∈ values, Outside w.toList row (row + values.length) v)
    (hrow : row + values.length ≤ Variable.rowLimit) :
    ∃ t', assignSum w t row values = .ok t' ∧ Writes w.toList row (row + values.length) t t' ∧
      Summed t' w row values read := by
  cases values with
  | nil => exact ⟨t, rfl, .refl _ _ _ _, fun _ _ h => by simp at h, fun _ _ h => by simp at h, fun _ _ h => by simp at h⟩
  | cons v rest =>
    obtain ⟨-, h₁₃, -⟩ := distinct_of_nodup hw
    have hmem : w.first ∈ w.toList ∧ w.third ∈ w.toList := by simp [Trio.toList]
    rw [List.length_cons] at hout hrow
    obtain ⟨t₁, hset₁, hw₁, hcell₁, -⟩ := Writes.exists_set hmem.1 (hwidth _ hmem.1) row (read v)
    obtain ⟨t₂, hset₂, hw₂, hcell₂, hother₂⟩ :=
      Writes.exists_set hmem.2 (hw₁.width .witness ▸ hwidth _ hmem.2) row (read v)
    have hrow₂ := hw₁.trans hw₂
    obtain ⟨hread₂, hout₂⟩ := below_of_writes hrow₂ hread hout
    obtain ⟨t', hrest, hwrites, hrows⟩ := exists_assignTerms hw (fun i hi => hrow₂.width .witness ▸ hwidth i hi) hread₂
      hout₂ (by omega) (read v)
    have hat : ∀ i, Variable.at? .witness i row = .ok ⟨.witness, i, .row row⟩ := fun i => if_pos (by omega)
    -- The second cell of the first row is not written: there is no sum before.
    have hheld : Row t₂ w row (read v) (t₂.cell .witness w.second row) (read v) :=
      ⟨by rw [hother₂ _ h₁₃, hcell₁], rfl, hcell₂⟩
    have hkept := hheld.keep hwrites (Nat.lt_succ_self row)
    -- The rows below start from the value of the first term.
    have hbelow : ∀ j u, rest[j]? = some u → Row t' w (row + (j + 1)) (read u) (read v + ((rest.take j).map read).sum)
        (read v + ((rest.take (j + 1)).map read).sum) := fun j u hu => by
      rw [show row + (j + 1) = row + 1 + j by omega]
      exact hrows j u hu
    refine ⟨t', ?_, (hrow₂.mono (Nat.le_refl _) (by simp)).trans (hwrites.mono (by omega) (by simp; omega)), ?_, ?_, ?_⟩
    · exact bind_eq_ok.mpr ⟨_, hread v List.mem_cons_self, bind_eq_ok.mpr ⟨_, hat _, bind_eq_ok.mpr ⟨t₁, hset₁,
        bind_eq_ok.mpr ⟨_, hat _, bind_eq_ok.mpr ⟨t₂, hset₂, hrest⟩⟩⟩⟩⟩
    · rintro (_ | j) u hu
      · obtain rfl := Option.some.inj hu
        exact hkept.first
      · exact (hbelow j u hu).first
    · rintro (_ | j) u hu hpos
      · exact absurd hpos (Nat.lt_irrefl 0)
      · simpa using (hbelow j u hu).second
    · rintro (_ | j) u hu
      · simpa using hkept.third
      · simpa using (hbelow j u hu).third

/-! ### Filled components -/

section Filled
variable {c : Component} {input : c.Input}

/-- The cells of a component placed at a row. -/
def Owns (c : Component) (row : Nat) (k : ColumnKind) (i r : Nat) : Prop :=
  k = .witness ∧ i ∈ c.columns ∧ row ≤ r ∧ r < row + c.rows

/-- A component has columns of its own in the table and rows that exist, and as many inputs as it needs: absolute
    cells other than its own. -/
structure Fits (c : Component) (t : Assignment) (input : c.Input) (row : Nat) : Prop where
  distinct : c.columns.Nodup
  width : ∀ i ∈ c.columns, i < t.width .witness
  rows : row + c.rows ≤ Variable.rowLimit
  arity : c.checkInput input = .ok ()
  inputs : ∀ v ∈ c.inputs input, v.relative = false ∧ v.kind ≠ .selector ∧ t.Has v
  outside : ∀ v ∈ c.inputs input, ∀ r, v.position = .row r → ¬ c.Owns row v.kind v.index r

/-- The tuple that a component looks up. -/
def tuple : (c : Component) → (Variable → Scalar) → c.Input → List Scalar
  | xor _, read, (x, y) => [read x, read y, xorLow (read x) (read y)]
  | rangeCheck .., read, x => [read x]
  | addition _, _, _ => []
  | multiplication _, _, _ => []
  | runningSum .., _, _ => []

/-- A table with the witness of a component filled in from another one. -/
structure Filled (c : Component) (t t' : Assignment) (input : c.Input) (row : Nat) : Prop where
  writes : Writes c.columns row (row + c.rows) t t'
  wires : ∀ e ∈ c.wires input row, ∃ x, e.1.read t' = .ok x ∧ e.2.read t' = .ok x
  gates : ∀ e ∈ c.gates.zip c.firing, ∀ r, row + e.2.1 ≤ r → r < row + e.2.2 →
    ∀ x ∈ e.1, x.denote (t'.seen r) = 0
  lookups : ∀ lookup ∈ c.lookups, lookup.2.map (·.denote (t'.seen row)) = c.tuple t.read input
  output : ∀ v, c.output row = .ok v → t'.value v = .ok (c.compute t.read input)

theorem Fits.value_eq_read (h : c.Fits t input row) {v : Variable} (hv : v ∈ c.inputs input) :
    t.value v = .ok (t.read v) := by
  obtain ⟨habs, -, hhas⟩ := h.inputs v hv
  have hvalue := Assignment.value_eq_seen hhas habs 0
  rw [hvalue, Assignment.read_eq hvalue]

theorem denote_operand (t : Assignment) (column row : Nat) :
    (operand column).denote (t.seen row) = t.cell .witness column row := by
  simp [operand, Expr.denote, Assignment.seen, Variable.witness, Variable.row?]

/-- A row filled with two inputs and the result of an operation on them. -/
theorem exists_row (hw : w.toList.Nodup) (hwidth : ∀ i ∈ w.toList, i < t.width .witness) {x y : Variable}
    (hread : ∀ v ∈ [x, y], t.value v = .ok (t.read v))
    (hout : ∀ v ∈ [x, y], Outside w.toList row (row + 1) v) (op : Scalar → Scalar → Scalar) :
    ∃ t', assignRow w op t x y row = .ok t' ∧ Writes w.toList row (row + 1) t t' ∧
      Row t' w row (t.read x) (t.read y) (op (t.read x) (t.read y)) ∧
      (∀ e ∈ [(End.given x, End.own w.first row), (.given y, .own w.second row)],
        ∃ a, e.1.read t' = .ok a ∧ e.2.read t' = .ok a) ∧
      t'.value ⟨.witness, w.third, .row row⟩ = .ok (op (t.read x) (t.read y)) := by
  obtain ⟨t', hassign, hwrites, hrow⟩ :
      ∃ t', assignRow w op t x y row = .ok t' ∧ Writes w.toList row (row + 1) t t' ∧
        Row t' w row (t.read x) (t.read y) (op (t.read x) (t.read y)) :=
    exists_assignRow hw hwidth (hread x (by simp)) (hread y (by simp))
  have hget : ∀ i ∈ w.toList, t'.get? .witness i row = .ok (t'.cell .witness i row) := fun i hi =>
    if_pos (hwrites.width .witness ▸ hwidth i hi)
  have hgiven : ∀ v ∈ [x, y], t'.value v = .ok (t.read v) := fun v hv =>
    (hwrites.value_eq (hout v hv)).trans (hread v hv)
  refine ⟨t', hassign, hwrites, hrow, fun e he => ?_, ?_⟩
  · rcases List.mem_pair.mp he with rfl | rfl
    · exact ⟨_, hgiven x (by simp), hrow.first ▸ hget _ (by simp [Trio.toList])⟩
    · exact ⟨_, hgiven y (by simp), hrow.second ▸ hget _ (by simp [Trio.toList])⟩
  · exact hrow.third ▸ hget _ (by simp [Trio.toList])

theorem eq_of_at? {k : ColumnKind} {i r : Nat} {v : Variable} (h : Variable.at? k i r = .ok v) : v = ⟨k, i, .row r⟩ :=
  (Variable.at?_eq_ok_iff.mp h).2

theorem sum_take_succ {values : List Variable} {read : Variable → Scalar} {j : Nat} {v : Variable}
    (h : values[j]? = some v) :
    ((values.take (j + 1)).map read).sum = ((values.take j).map read).sum + read v := by
  simp [List.take_add_one, h]

/-! A running sum whose rows hold the terms and the sums agrees with its wires and gates, and with its output. -/

namespace Summed
variable {values : List Variable} {read : Variable → Scalar}

/-- The rows of a sum, by their distance from the first one. -/
theorem exists_term (values : List Variable) (row : Nat) {r : Nat} (hlo : row ≤ r) (hhi : r < row + values.length) :
    ∃ j v, r = row + j ∧ values[j]? = some v :=
  ⟨r - row, _, by omega, List.getElem?_eq_getElem (by omega)⟩

theorem wires {terms : Nat} {pos : 0 < terms} (h : Summed t w row values read) (hlength : values.length = terms)
    (hget : ∀ i ∈ w.toList, ∀ r, t.get? .witness i r = .ok (t.cell .witness i r))
    (hread : ∀ v ∈ values, t.value v = .ok (read v)) :
    ∀ e ∈ (runningSum w terms pos).wires values row, ∃ x, e.1.read t = .ok x ∧ e.2.read t = .ok x := by
  subst hlength
  have hmem : w.first ∈ w.toList ∧ w.second ∈ w.toList ∧ w.third ∈ w.toList := by simp [Trio.toList]
  intro e he
  rcases List.mem_append.mp he with he | he
  · -- An input is copied into the first cell of its row.
    obtain ⟨⟨v, r⟩, hmem', rfl⟩ := List.mem_map.mp he
    obtain ⟨hle, hv⟩ := List.mem_zipIdx_iff_le_and_getElem?_sub.mp hmem'
    have hfirst := h.first _ v hv
    rw [Nat.add_sub_cancel' hle] at hfirst
    exact ⟨_, hread v (List.mem_of_getElem? hv), hfirst ▸ hget _ hmem.1 r⟩
  · -- The sum of a row is copied into the second cell of the row below.
    obtain ⟨r, hr, rfl⟩ := List.mem_map.mp he
    have hr := List.mem_range'_1.mp hr
    obtain ⟨j, v, rfl, hv⟩ := exists_term values row hr.1 (by omega)
    obtain ⟨j', u, hj, hu⟩ : ∃ j' u, row + j + 1 = row + j' ∧ values[j']? = some u :=
      exists_term values row (by omega) (by omega)
    obtain rfl : j' = j + 1 := by omega
    refine ⟨_, hget _ hmem.2.1 _, ?_⟩
    rw [hj, h.second _ u hu (Nat.succ_pos j), ← h.third j v hv]
    exact hget _ hmem.2.2 _

theorem gates {terms : Nat} {pos : 0 < terms} (h : Summed t w row values read) (hlength : values.length = terms) :
    ∀ e ∈ (runningSum w terms pos).gates.zip (runningSum w terms pos).firing, ∀ r, row + e.2.1 ≤ r → r < row + e.2.2 →
      ∀ x ∈ e.1, x.denote (t.seen r) = 0 := by
  subst hlength
  intro e he r hlo hhi
  simp only [Component.gates, firing, List.zip_cons_cons, List.zip_nil_right, List.mem_cons, List.not_mem_nil,
    or_false] at he
  rcases he with rfl | rfl
  · have hlo : row ≤ r := hlo
    have hhi : r < row + 1 := hhi
    obtain ⟨j, v, rfl, hv⟩ := exists_term values row hlo (by omega)
    obtain rfl : j = 0 := by omega
    have hthird := h.third 0 v hv
    have hfirst := h.first 0 v hv
    rw [sum_take_succ hv, List.take_zero, List.map_nil, List.sum_nil, zero_add, ← hfirst] at hthird
    simpa [Expr.denote, denote_operand, sub_eq_zero] using hthird
  · have hlo : row + 1 ≤ r := hlo
    obtain ⟨j, v, rfl, hv⟩ := exists_term values row (Nat.le_of_succ_le hlo) hhi
    have hthird := h.third j v hv
    rw [sum_take_succ hv] at hthird
    simp [Expr.denote, denote_operand, h.first j v hv, h.second j v hv (by omega), hthird]

/-- The last row holds the sum of all terms. -/
theorem last (h : Summed t w row values read) (hpos : 0 < values.length) :
    t.cell .witness w.third (row + values.length - 1) = (values.map read).sum := by
  obtain ⟨j, u, hj, hu⟩ : ∃ j u, row + values.length - 1 = row + j ∧ values[j]? = some u :=
    exists_term values row (by omega) (by omega)
  rw [hj, h.third j u hu, List.take_of_length_le (by omega)]

end Summed

/-- A running sum filled with its terms. -/
theorem exists_sum {terms : Nat} {pos : 0 < terms} {values : List Variable}
    (h : (runningSum w terms pos).Fits t values row) (hread : ∀ v ∈ values, t.value v = .ok (t.read v)) :
    ∃ t', assignSum w t row values = .ok t' ∧ Filled (runningSum w terms pos) t t' values row := by
  obtain rfl : values.length = terms := length_of_checkInput h.arity
  obtain ⟨t', hassign, hwrites, hsummed⟩ := exists_assignSum h.distinct h.width hread h.outside h.rows
  have hget : ∀ i ∈ w.toList, ∀ r, t'.get? .witness i r = .ok (t'.cell .witness i r) := fun i hi r =>
    if_pos (hwrites.width .witness ▸ h.width i hi)
  have hkept : ∀ v ∈ values, t'.value v = .ok (t.read v) := fun v hv =>
    (hwrites.value_eq (h.outside v hv)).trans (hread v hv)
  refine ⟨t', hassign, hwrites, hsummed.wires rfl hget hkept, hsummed.gates rfl, fun _ hl => absurd hl List.not_mem_nil,
    fun v hv => ?_⟩
  rw [eq_of_at? hv]
  refine (hget _ (by simp [Trio.toList]) _).trans ?_
  rw [hsummed.last pos]
  rfl

/-- A single gate that fires in the first row alone is met if its constraint vanishes there. -/
theorem denote_of_single {x : Expr} (h : x.denote (t.seen row) = 0) :
    ∀ e ∈ [([x], (0, 1))], ∀ r, row + e.2.1 ≤ r → r < row + e.2.2 → ∀ y ∈ e.1, y.denote (t.seen r) = 0 := by
  intro e he r hlo hhi y hy
  obtain rfl := List.mem_singleton.mp he
  obtain rfl := List.mem_singleton.mp hy
  obtain rfl : r = row := Nat.le_antisymm (Nat.le_of_lt_succ hhi) hlo
  exact h

/-- A component that fits can be filled. -/
theorem exists_fill (h : c.Fits t input row) : ∃ t', c.fill t input row = .ok t' ∧ Filled c t t' input row := by
  have hread := fun v (hv : v ∈ c.inputs input) => h.value_eq_read hv
  have hout := h.outside
  cases c with
  | addition w =>
    obtain ⟨t', hassign, hwrites, hrow, hwires, hvalue⟩ := exists_row h.distinct h.width hread hout (· + ·)
    refine ⟨t', hassign, hwrites, hwires, denote_of_single ?_, fun _ hl => absurd hl List.not_mem_nil,
      fun v hv => eq_of_at? hv ▸ hvalue⟩
    simp [Expr.denote, denote_operand, hrow.first, hrow.second, hrow.third]
  | multiplication w =>
    obtain ⟨t', hassign, hwrites, hrow, hwires, hvalue⟩ := exists_row h.distinct h.width hread hout (· * ·)
    refine ⟨t', hassign, hwrites, hwires, denote_of_single ?_, fun _ hl => absurd hl List.not_mem_nil,
      fun v hv => eq_of_at? hv ▸ hvalue⟩
    simp [Expr.denote, denote_operand, hrow.first, hrow.second, hrow.third]
  | xor w =>
    obtain ⟨t', hassign, hwrites, hrow, hwires, hvalue⟩ := exists_row h.distinct h.width hread hout xorLow
    refine ⟨t', hassign, hwrites, hwires, fun _ he => absurd he List.not_mem_nil, fun lookup hl => ?_,
      fun v hv => eq_of_at? hv ▸ hvalue⟩
    obtain rfl := List.mem_singleton.mp hl
    simp only [Trio.toList, List.map_cons, List.map_nil, denote_operand, hrow.first, hrow.second, hrow.third]
    rfl
  | runningSum w terms pos =>
    exact exists_sum h hread
  | rangeCheck column table =>
    have hmem : column ∈ [column] := List.mem_singleton_self column
    obtain ⟨t', hset, hwrites, hcell, -⟩ := Writes.exists_set hmem (h.width column hmem) row (t.read input)
    have hget : t'.get? .witness column row = .ok (t.read input) := by
      rw [← hcell]
      exact if_pos (hwrites.width .witness ▸ h.width column hmem)
    have hvalue := hread input (List.mem_singleton_self _)
    refine ⟨t', bind_eq_ok.mpr ⟨_, hvalue, hset⟩, hwrites, fun e he => ?_, fun _ he => absurd he List.not_mem_nil,
      fun lookup hl => ?_, fun v hv => eq_of_at? hv ▸ hget⟩
    · obtain rfl := List.mem_singleton.mp he
      exact ⟨_, (hwrites.value_eq (hout input (List.mem_singleton_self _))).trans hvalue, hget⟩
    · obtain rfl := List.mem_singleton.mp hl
      simp [denote_operand, hcell, tuple]

end Filled

end Component
end Plonkish
