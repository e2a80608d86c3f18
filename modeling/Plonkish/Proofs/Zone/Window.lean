import Mathlib
import Plonkish.Proofs.Zone.Active
import Plonkish.Proofs.Zone.Checks

/-! A window is judged by itself. A check sees of a circuit the expressions that are on at the rows of its window
    and the copies between cells with addresses, so circuits that are alike in these get one answer
    (`Alike.connected_iff`). Gates that are off at the rows of a window leave its expressions alone, and a copy
    with an end that is no cell of the window, no public input and on no boundary ties no two addresses: what
    stands around a window does not change the verdict (`run_eq_of_window`). -/

namespace Plonkish

namespace Zone
variable {s s' : System} {t t' : Assignment} {sp : Space} {v w : Variable} {inputs outputs boundary : List Variable}
  {start rows row : Nat} {xs : List Expr}

/-! ### Circuits that are alike -/

/-- Two circuits constrain the cells of a space alike: the same expressions are on at the rows of its window, and
    the same copies tie its addresses. -/
structure Alike (s s' : System) (t t' : Assignment) (sp : Space) : Prop where
  active (row : Nat) (xs : List Expr) : sp.inWindow row → (s'.Active t' row xs ↔ s.Active t row xs)
  copies (c : Copy) : (sp.address? c.first).isSome → (sp.address? c.second).isSome → (c ∈ s'.copies ↔ c ∈ s.copies)

theorem touched_iff : Touched s t sp v ↔ (sp.address? v).isSome ∧
    ((∃ row xs, sp.inWindow row ∧ s.Active t row xs ∧ Reads xs row v) ∨
      ∃ c ∈ s.copies, (v = c.first ∨ v = c.second) ∧ (sp.address? c.first).isSome ∧ (sp.address? c.second).isSome) := by
  constructor
  · exact fun h => ⟨h.addressed, h.cases⟩
  · rintro ⟨ha, ⟨row, xs, hrow, hactive, hv⟩ | ⟨c, hc, hv, hfirst, hsecond⟩⟩
    · cases hactive with
      | gate hg hon hxs =>
        subst hxs
        exact .gate hg hrow hon hv ha
      | lookup hg hon hxs =>
        subst hxs
        exact .lookup hg hrow hon hv ha
    · exact .copy hc hv hfirst hsecond

namespace Alike
variable (h : Alike s s' t t' sp)
include h

theorem read_iff {p : Nat → List Expr → Prop} : (∃ row xs, sp.inWindow row ∧ s'.Active t' row xs ∧ p row xs) ↔
    ∃ row xs, sp.inWindow row ∧ s.Active t row xs ∧ p row xs :=
  exists₂_congr fun row xs => and_congr_right fun hrow => and_congr_left fun _ => h.active row xs hrow

theorem edge_iff : Edge s' t' sp v w ↔ Edge s t sp v w := by
  rw [Zone.edge_iff, Zone.edge_iff, h.read_iff]
  exact and_congr_right fun ⟨hv, hw⟩ => or_congr_right (h.copies ⟨v, w⟩ hv hw)

theorem touched_iff : Touched s' t' sp v ↔ Touched s t sp v := by
  have hcopies : ∀ c, (c ∈ s'.copies ∧ (v = c.first ∨ v = c.second) ∧ (sp.address? c.first).isSome ∧
      (sp.address? c.second).isSome) ↔ c ∈ s.copies ∧ (v = c.first ∨ v = c.second) ∧
      (sp.address? c.first).isSome ∧ (sp.address? c.second).isSome :=
    fun c => and_congr_left fun ⟨_, hfirst, hsecond⟩ => h.copies c hfirst hsecond
  rw [Zone.touched_iff, Zone.touched_iff, h.read_iff, exists_congr hcopies]

/-- What a check asks for holds in both circuits or in neither. -/
theorem connected_iff {c : Check} : Connected c s' t' sp inputs outputs ↔ Connected c s t sp inputs outputs :=
  connected_congr (fun _ _ => h.edge_iff) fun _ => h.touched_iff

end Alike

/-! ### Around a window -/

/-- A cell that belongs to a window: a witness or a constant in its rows, a public input, an input or an output. -/
def IsLocal (t : Assignment) (boundary : List Variable) (start rows : Nat) (v : Variable) : Prop :=
  v ∈ boundary ∨ ∃ row, v.position = .row row ∧
    match v.kind with
    | .witness | .constant => start ≤ row ∧ row < start + rows ∧ v.index < t.width v.kind
    | .publicInput => v.index < t.width .publicInput ∧ row < t.publicRows
    | .selector => False

theorem isLocal_iff : IsLocal t boundary start rows v ↔ v ∈ boundary ∨ IsLocal t [] start rows v := by
  simp [IsLocal]

/-- Without a boundary it is the cells of the window and the public inputs that belong to the window. -/
theorem isSome_gridAddress?_iff (hrow : v.position = .row row) :
    ((Space.ofTable t boundary start rows).gridAddress? v.kind v.index row).isSome ↔ IsLocal t [] start rows v := by
  obtain ⟨slots, hspace⟩ := Space.ofTable_eq t boundary start rows
  rw [hspace]
  cases hkind : v.kind <;>
    simp [IsLocal, hrow, hkind, Space.gridAddress?, Space.inWindow, and_assoc]

/-- Cells with addresses belong to the window. -/
theorem isLocal_of_addressed (h : ((Space.ofTable t boundary start rows).address? v).isSome) :
    IsLocal t boundary start rows v := by
  obtain ⟨a, ha⟩ := Option.isSome_iff_exists.mp h
  obtain ⟨row, hrow, hgrid | ⟨-, hslot⟩⟩ := Space.address?_eq_some ha
  · exact isLocal_iff.mpr (Or.inr ((isSome_gridAddress?_iff hrow).mp (Option.isSome_of_eq_some hgrid)))
  · obtain ⟨i, hi, -⟩ := Space.slotAddress?_eq_some hslot
    exact Or.inl ((Space.slots_foldl_cover (List.mem_of_getElem? hi)).resolve_left List.not_mem_nil)

/-- The absolute variables that belong to the window are those with addresses. -/
theorem addressed_iff : ((Space.ofTable t boundary start rows).address? v).isSome ↔
    v.relative = false ∧ IsLocal t boundary start rows v := by
  constructor
  · intro h
    obtain ⟨a, ha⟩ := Option.isSome_iff_exists.mp h
    obtain ⟨row, hrow, -⟩ := Space.address?_eq_some ha
    exact ⟨by simp [Variable.relative, hrow], isLocal_of_addressed h⟩
  · rintro ⟨habs, hlocal⟩
    rcases isLocal_iff.mp hlocal with hv | hlocal
    · exact (Space.isSome_address?_iff hv).mpr habs
    · obtain ⟨row, hrow, -⟩ := hlocal.resolve_left List.not_mem_nil
      have hgrid : ((Space.ofTable t boundary start rows).gridAddress? v.kind v.index row).isSome :=
        (isSome_gridAddress?_iff hrow).mpr hlocal
      obtain ⟨a, ha⟩ := Option.isSome_iff_exists.mp hgrid
      simp [Space.address?, hrow, ha]

/-- A circuit that stands around a window of another one. Its further gates and lookup gates are off in the window,
    each of its further copies has an end outside of it, and its table has the columns and the rows of public
    inputs of the other one and the same marks in the window for what both systems share. -/
structure Surrounds (s s' : System) (t t' : Assignment) (boundary : List Variable) (start rows : Nat) : Prop where
  gates : s.gates ⊆ s'.gates
  lookupGates : s.lookupGates ⊆ s'.lookupGates
  copies : s.copies ⊆ s'.copies
  gate_off : ∀ g ∈ s'.gates, g ∉ s.gates → ∀ row, start ≤ row → row < start + rows → t'.isOn g.selector row = false
  lookup_off : ∀ g ∈ s'.lookupGates, g ∉ s.lookupGates →
    ∀ row, start ≤ row → row < start + rows → t'.isOn g.tag row = false
  copy_off : ∀ c ∈ s'.copies, c ∉ s.copies →
    ¬ IsLocal t boundary start rows c.first ∨ ¬ IsLocal t boundary start rows c.second
  width (kind : ColumnKind) : t'.width kind = t.width kind
  publicRows : t'.publicRows = t.publicRows
  gate_mark : ∀ g ∈ s.gates, ∀ row, start ≤ row → row < start + rows → t'.isOn g.selector row = t.isOn g.selector row
  lookup_mark : ∀ g ∈ s.lookupGates, ∀ row, start ≤ row → row < start + rows → t'.isOn g.tag row = t.isOn g.tag row

namespace Surrounds
variable (h : Surrounds s s' t t' boundary start rows)
include h

theorem space_eq : Space.ofTable t' boundary start rows = Space.ofTable t boundary start rows :=
  Space.ofTable_congr (fun kind _ => h.width kind) h.publicRows boundary start rows

theorem active_iff (hlo : start ≤ row) (hhi : row < start + rows) : s'.Active t' row xs ↔ s.Active t row xs := by
  constructor
  · intro hactive
    cases hactive with
    | @gate g hg hon hxs =>
      by_cases hmem : g ∈ s.gates
      · exact .gate hmem (h.gate_mark g hmem row hlo hhi ▸ hon) hxs
      · rw [h.gate_off g hg hmem row hlo hhi] at hon
        cases hon
    | @lookup g hg hon hxs =>
      by_cases hmem : g ∈ s.lookupGates
      · exact .lookup hmem (h.lookup_mark g hmem row hlo hhi ▸ hon) hxs
      · rw [h.lookup_off g hg hmem row hlo hhi] at hon
        cases hon
  · intro hactive
    cases hactive with
    | gate hg hon hxs => exact .gate (h.gates hg) ((h.gate_mark _ hg row hlo hhi).trans hon) hxs
    | lookup hg hon hxs => exact .lookup (h.lookupGates hg) ((h.lookup_mark _ hg row hlo hhi).trans hon) hxs

theorem alike : Alike s s' t t' (Space.ofTable t boundary start rows) where
  active row xs hrow := by
    obtain ⟨hlo, hhi⟩ := Space.inWindow_ofTable.mp hrow
    exact h.active_iff hlo hhi
  copies c hfirst hsecond := by
    refine ⟨fun hc => ?_, fun hc => h.copies hc⟩
    by_contra hnew
    rcases h.copy_off c hc hnew with hoff | hoff
    · exact hoff (isLocal_of_addressed hfirst)
    · exact hoff (isLocal_of_addressed hsecond)

end Surrounds
end Zone

namespace Check
open Zone
variable {c : Check} {s s' : System} {t t' : Assignment} {inputs outputs : List Variable} {start rows : Nat} {b b' : Bool}

theorem run_eq_of_alike
    (hspace : Space.ofTable t' (inputs ++ outputs) start rows = Space.ofTable t (inputs ++ outputs) start rows)
    (halike : Alike s s' t t' (Space.ofTable t (inputs ++ outputs) start rows))
    (hb : c.run s t inputs outputs start rows = .ok b) (hb' : c.run s' t' inputs outputs start rows = .ok b') :
    b' = b := by
  rw [Bool.eq_iff_iff, run_eq_true_iff hb, run_eq_true_iff hb', hspace]
  exact halike.connected_iff

/-- A window gets the same verdict in every circuit that stands around it. -/
theorem run_eq_of_window (h : Surrounds s s' t t' (inputs ++ outputs) start rows)
    (hb : c.run s t inputs outputs start rows = .ok b) (hb' : c.run s' t' inputs outputs start rows = .ok b') :
    b' = b :=
  run_eq_of_alike h.space_eq h.alike hb hb'

/-- A gate ties two witnesses in the rows 0 and 1, and a copy the second of them to a public input. Around these two
    rows stand a gate and a lookup gate that are on in the rows 2 and 3, a copy to a witness in row 2, another row of
    the first gate and other values. The window is wired with or without them. From row 2 on, where the additions are
    on, a check without inputs and outputs finds islands. -/
theorem run_around_two_rows :
    let s : System := { System.empty with
      gates := [⟨0, [.sub (.var (.witness 0 0)) (.var (.witness 1 0))]⟩]
      copies := [⟨⟨.witness, 1, .row 0⟩, ⟨.publicInput, 0, .row 0⟩⟩] }
    let s' : System := { s with
      gates := s.gates ++ [⟨1, [.var (.witness 2 (-1))]⟩]
      lookupGates := [⟨1, [⟨1, [.var (.witness 0 0)]⟩]⟩]
      copies := s.copies ++ [⟨⟨.witness, 0, .row 0⟩, ⟨.witness, 2, .row 2⟩⟩] }
    let t : Assignment := ⟨#[#[], #[], #[]], #[], #[#[7]], #[#[1], #[]]⟩
    let t' : Assignment := ⟨#[#[5], #[5], #[0, 3]], #[], #[#[8]], #[#[1, 0, 0, 1], #[0, 0, 1, 1]]⟩
    let x : Variable := ⟨.witness, 0, .row 0⟩
    let y : Variable := ⟨.publicInput, 0, .row 0⟩
    let c : Check := ⟨.strong, true⟩
    Surrounds s s' t t' [x, y] 0 2 ∧ c.run s t [x] [y] 0 2 = .ok true ∧ c.run s' t' [x] [y] 0 2 = .ok true ∧
      (∀ b b', c.run s t [x] [y] 0 2 = .ok b → c.run s' t' [x] [y] 0 2 = .ok b' → b' = b) ∧
      c.run s t [] [] 2 2 = .ok true ∧ c.run s' t' [] [] 2 2 = .ok false := by
  intro s s' t t' x y c
  have hwindow : ∀ selector, (∀ row ∈ List.range 2, t'.isOn selector row = t.isOn selector row) →
      ∀ row, 0 ≤ row → row < 0 + 2 → t'.isOn selector row = t.isOn selector row :=
    fun selector h row _ hrow => h row (List.mem_range.mpr (by omega))
  have hsurrounds : Surrounds s s' t t' [x, y] 0 2 := {
    gates := List.subset_append_left _ _
    lookupGates := List.nil_subset _
    copies := List.subset_append_left _ _
    gate_off := by
      intro g hg hnew row _ hrow
      obtain rfl := List.mem_singleton.mp ((List.mem_append.mp hg).resolve_left hnew)
      exact hwindow 1 (by decide) row (Nat.zero_le _) hrow
    lookup_off := by
      intro g hg _ row _ hrow
      obtain rfl := List.mem_singleton.mp hg
      exact hwindow 1 (by decide) row (Nat.zero_le _) hrow
    copy_off := by
      intro c hc hnew
      obtain rfl := List.mem_singleton.mp ((List.mem_append.mp hc).resolve_left hnew)
      refine Or.inr ?_
      simp [IsLocal, x, y]
    width := by
      intro kind
      cases kind <;> rfl
    publicRows := by decide
    gate_mark := by
      intro g hg
      obtain rfl := List.mem_singleton.mp hg
      exact hwindow 0 (by decide)
    lookup_mark := fun g hg => absurd hg List.not_mem_nil }
  have htrue : c.run s t [x] [y] 0 2 = .ok true := by decide +kernel
  have htrue' : c.run s' t' [x] [y] 0 2 = .ok true := by decide +kernel
  exact ⟨hsurrounds, htrue, htrue', fun b b' hb hb' => run_eq_of_window hsurrounds hb hb', by decide +kernel,
    by decide +kernel⟩

end Check
end Plonkish
