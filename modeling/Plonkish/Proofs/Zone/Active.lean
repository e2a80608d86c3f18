import Plonkish.Proofs.Zone.Checks

/-! Zones from what is on. All that a window takes from the gates and lookup gates of a system are the lists of
    expressions that are constrained at its rows (`System.Active`). Two cells with addresses share an edge if
    one such list reads both, or a copy ties them (`edge_iff`), and the zones can be made exactly if every variable
    of such a list stands for a row that can be written (`faults_make`). -/

namespace Plonkish

/-- The expressions of a gate or of a lookup gate that is on at a row. -/
inductive System.Active (s : System) (t : Assignment) (row : Nat) (xs : List Expr) : Prop where
  | gate {g : Gate} (hg : g ∈ s.gates) (hon : t.isOn g.selector row) (hxs : g.constraints = xs)
  | lookup {g : LookupGate} (hg : g ∈ s.lookupGates) (hon : t.isOn g.tag row) (hxs : g.queries.flatMap Query.input = xs)

/-- A relative variable stands, at a row, for one that does not fit in a rotation. -/
def Variable.Overruns (v : Variable) (row : Nat) : Prop := v.relative ∧ (rowLimit : Int) ≤ row + v.rotation

theorem Variable.faults_at? (kind : ColumnKind) (index row : Nat) :
    Faults (at? kind index row) .rowTooLarge (rowLimit ≤ row) := by
  unfold at?
  split
  · rename_i hlt
    exact (Faults.ok _).congr (iff_of_false id (Nat.not_le_of_lt hlt))
  · rename_i hle
    exact (Faults.error _).congr (iff_of_true trivial (Nat.le_of_not_lt hle))

theorem Variable.faults_resolve (v : Variable) (row : Nat) : Faults (v.resolve row) .rowTooLarge (v.Overruns row) := by
  obtain ⟨kind, index, d | r⟩ := v
  · have hover : Overruns ⟨kind, index, .offset d⟩ row ↔ (rowLimit : Int) ≤ row + d := by
      simp [Overruns, relative, rotation]
    by_cases hrow : 0 ≤ (row : Int) + d
    · simp only [resolve, row?, if_pos hrow]
      refine ((faults_at? kind index _).map some).congr ?_
      rw [hover]
      omega
    · simp only [resolve, row?, if_neg hrow]
      refine (Faults.ok none).congr (iff_of_false id ?_)
      rw [hover]
      omega
  · exact (Faults.ok _).congr (by simp [Overruns, relative])

/-- What is on at some row of a window reads a variable that overruns the rows there. -/
def System.Overruns (s : System) (t : Assignment) (start rows : Nat) : Prop :=
  ∃ row xs, start ≤ row ∧ row < start + rows ∧ s.Active t row xs ∧ ∃ x ∈ xs, ∃ v ∈ x.leaves, v.Overruns row

namespace Zone
variable {s : System} {t : Assignment} {sp : Space} {v w : Variable}

theorem edge_iff : Edge s t sp v w ↔ ((sp.address? v).isSome ∧ (sp.address? w).isSome) ∧
    ((∃ row xs, sp.inWindow row ∧ s.Active t row xs ∧ Reads xs row v ∧ Reads xs row w) ∨ ⟨v, w⟩ ∈ s.copies) := by
  constructor
  · intro h
    refine ⟨h.addressed, ?_⟩
    cases h with
    | gate hg hrow hon hv hw => exact Or.inl ⟨_, _, hrow, .gate hg hon rfl, hv, hw⟩
    | lookup hg hrow hon hv hw => exact Or.inl ⟨_, _, hrow, .lookup hg hon rfl, hv, hw⟩
    | copy hc => exact Or.inr hc
  · rintro ⟨⟨hva, hwa⟩, ⟨row, xs, hrow, hactive, hv, hw⟩ | hc⟩
    · cases hactive with
      | gate hg hon hxs =>
        subst hxs
        exact .gate hg hrow hon hv hw hva hwa
      | lookup hg hon hxs =>
        subst hxs
        exact .lookup hg hrow hon hv hw hva hwa
    · exact .copy hc hva hwa

/-- A touched cell is read by what is on in the window, or it is an end of a copy between cells with addresses. -/
theorem Touched.cases (h : Touched s t sp v) : (∃ row xs, sp.inWindow row ∧ s.Active t row xs ∧ Reads xs row v) ∨
    ∃ c ∈ s.copies, (v = c.first ∨ v = c.second) ∧ (sp.address? c.first).isSome ∧ (sp.address? c.second).isSome := by
  cases h with
  | gate hg hrow hon hv => exact Or.inl ⟨_, _, hrow, .gate hg hon rfl, hv⟩
  | lookup hg hrow hon hv => exact Or.inl ⟨_, _, hrow, .lookup hg hon rfl, hv⟩
  | copy hc hv hfirst hsecond => exact Or.inr ⟨_, hc, hv, hfirst, hsecond⟩

/-! ### Making zones -/

theorem faults_cellsAt (sp : Space) (vs : List Variable) (row : Nat) :
    Faults (cellsAt sp vs row) .rowTooLarge (∃ v ∈ vs, v.Overruns row) :=
  ((Faults.mapM fun v _ => v.faults_resolve row).bind fun _ => Faults.ok _).congr (iff_of_eq (or_false _))

theorem faults_activeLinks (sp : Space) (t : Assignment) (selector : Nat) (xs : List Expr) :
    Faults (activeLinks sp t selector (Expr.collect xs)) .rowTooLarge
      (∃ row, sp.inWindow row ∧ t.isOn selector row ∧ ∃ x ∈ xs, ∃ v ∈ x.leaves, v.Overruns row) := by
  refine (Faults.mapM fun row _ => faults_cellsAt sp _ row).congr (exists_congr fun row => ?_)
  have hwindow : row ∈ t.activeRows selector sp.start sp.rows ↔ sp.inWindow row ∧ t.isOn selector row := by
    simp [Assignment.mem_activeRows, Space.inWindow, and_assoc]
  simp only [hwindow, Expr.mem_collect, and_assoc]
  grind

theorem faults_links (s : System) (t : Assignment) (sp : Space) : Faults (links s t sp) .rowTooLarge
    (∃ row xs, sp.inWindow row ∧ s.Active t row xs ∧ ∃ x ∈ xs, ∃ v ∈ x.leaves, v.Overruns row) := by
  refine ((Faults.mapM fun g _ => faults_activeLinks sp t g.selector g.constraints).bind fun _ =>
    (Faults.mapM fun g _ => faults_activeLinks sp t g.tag (g.queries.flatMap Query.input)).bind fun _ =>
      Faults.ok _).congr ⟨?_, ?_⟩
  · rintro (⟨g, hg, row, hrow, hon, hover⟩ | ⟨g, hg, row, hrow, hon, hover⟩ | hfalse)
    · exact ⟨row, _, hrow, .gate hg hon rfl, hover⟩
    · exact ⟨row, _, hrow, .lookup hg hon rfl, hover⟩
    · exact hfalse.elim
  · rintro ⟨row, xs, hrow, hactive, hover⟩
    cases hactive with
    | gate hg hon hxs => exact Or.inl ⟨_, hg, row, hrow, hon, hxs ▸ hover⟩
    | lookup hg hon hxs => exact Or.inr (Or.inl ⟨_, hg, row, hrow, hon, hxs ▸ hover⟩)

end Zone

/-- Making the zones of a window faults if something on in it overruns the rows, and for no other reason. -/
theorem Zones.faults_make (s : System) (t : Assignment) (inputs outputs : List Variable) (start rows : Nat) :
    Faults (make s t inputs outputs start rows) .rowTooLarge (s.Overruns t start rows) := by
  refine ((Zone.faults_links s t _).bind fun _ => Faults.ok _).congr ?_
  simp only [or_false, Zone.Space.inWindow_ofTable, and_assoc]
  rfl

theorem Zones.exists_make {s : System} {t : Assignment} {inputs outputs : List Variable} {start rows : Nat}
    (h : ∀ row xs, start ≤ row → row < start + rows → s.Active t row xs →
      ∀ x ∈ xs, ∀ v ∈ x.leaves, ∃ o, v.resolve row = .ok o) : ∃ z, make s t inputs outputs start rows = .ok z := by
  refine (faults_make s t inputs outputs start rows).ok_iff.mpr ?_
  rintro ⟨row, xs, hlo, hhi, hactive, x, hx, v, hv, hover⟩
  exact (v.faults_resolve row).ok_iff.mp (h row xs hlo hhi hactive x hx v hv) hover

end Plonkish
