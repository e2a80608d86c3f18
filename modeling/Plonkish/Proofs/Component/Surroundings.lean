import Mathlib
import Plonkish.Component.Check
import Plonkish.Proofs.Component.Composition

/-! A component is wired whatever surrounds it. In a circuit that consists of parts on rows of their own, a part
    finds its own constraints in its rows and no others (`eq_of_row`), so what it joins are edges there
    (`edge_of_joins`) and its inputs are wired to its result (`stronglyWired`). A copy of another part ends in a
    cell of that part, which has an address only if it is one of the inputs; so the copies around a part stand
    apart from nothing (`withoutIslands`). -/

namespace Plonkish
open Component Zone

variable {c d : Circuit} {t : Assignment} {parts : List Part} {p q : Part} {v w : Variable} {r i : Nat} {xs : List Expr}

/-! ### Rows -/

/-- Two parts with a row in common are one. -/
theorem eq_of_row (hapart : parts.Pairwise Part.Apart) (hp : p ∈ parts) (hq : q ∈ parts)
    (hrow : p.row ≤ r ∧ r < p.row + p.component.rows) (hrow' : q.row ≤ r ∧ r < q.row + q.component.rows) : q = p := by
  by_contra hne
  have hsymm : Std.Symm Part.Apart := ⟨fun _ _ h => h.symm⟩
  rcases hapart.forall hq hp hne with h | h
  · omega
  · omega

/-! ### Addresses -/

namespace Part

/-- The cells that have addresses when a part is checked. -/
def space (p : Part) (t : Assignment) : Space := Space.ofTable t (p.inputs ++ [p.result]) p.row p.component.rows

theorem inWindow_iff : (p.space t).inWindow r ↔ p.row ≤ r ∧ r < p.row + p.component.rows :=
  Space.inWindow_ofTable

namespace Seated
variable (h : p.Seated t)
include h

theorem addressed_cell (hi : i ∈ p.component.columns) (hlo : p.row ≤ r) (hhi : r < p.row + p.component.rows) :
    ((p.space t).address? (cell i r)).isSome :=
  Space.isSome_address?_witness_iff.mpr (Or.inl ⟨hlo, hhi, h.width i hi⟩)

theorem relative_boundary (hv : v ∈ p.inputs ++ [p.result]) : v.relative = false := by
  rcases List.mem_append.mp hv with hv | hv
  · exact (h.inputs v hv).1
  · obtain rfl := List.mem_singleton.mp hv
    rfl

theorem addressed_boundary (hv : v ∈ p.inputs ++ [p.result]) : ((p.space t).address? v).isSome :=
  (Space.isSome_address?_iff hv).mpr (h.relative_boundary hv)

end Seated
end Part

/-! ### Wiring -/

namespace Composed
variable (h : Composed parts d) (hp : p ∈ parts)
include h hp

/-- What a part joins is an edge around it. -/
theorem edge_of_joins (hjoin : p.component.Joins p.input p.row v w) : Edge d.system d.table (p.space d.table) v w := by
  have hseated := h.seated p hp
  rcases hjoin with ⟨r, xs, hactive, hv, hw⟩ | hties
  · obtain ⟨hlo, hhi⟩ := hactive.mem_rows
    obtain ⟨i, hi, rfl⟩ := hactive.eq_cell hv
    obtain ⟨j, hj, rfl⟩ := hactive.eq_cell hw
    have hon : d.system.Active d.table r xs := (h.active r xs).mpr ⟨p, hp, hactive⟩
    have haddressed := And.intro (hseated.addressed_cell hi hlo hhi) (hseated.addressed_cell hj hlo hhi)
    exact edge_iff.mpr ⟨haddressed, Or.inl ⟨r, xs, Part.inWindow_iff.mpr ⟨hlo, hhi⟩, hon, hv, hw⟩⟩
  · obtain ⟨j, hj, s, hslo, hshi, rfl⟩ := second_of_ties hseated.rows hseated.arity hties
    have hfirst : ((p.space d.table).address? v).isSome := by
      rcases first_of_ties hseated.arity hties with hv | ⟨i, hi, r, hlo, hhi, rfl⟩
      · exact hseated.addressed_boundary (List.mem_append_left _ hv)
      · exact hseated.addressed_cell hi hlo hhi
    have hsecond := hseated.addressed_cell (p.component.rowColumns_subset hj) hslo hshi
    exact edge_iff.mpr ⟨⟨hfirst, hsecond⟩, Or.inr ((h.copies _).mpr ⟨p, hp, hties⟩)⟩

theorem reaches_of_joined (hjoined : Relation.EqvGen (p.component.Joins p.input p.row) v w) :
    Reaches d.system d.table (p.space d.table) v w :=
  hjoined.mono fun _ _ => h.edge_of_joins hp

theorem stronglyWired : StronglyWired d.system d.table (p.space d.table) p.inputs [p.result] := by
  have hseated := h.seated p hp
  have hresult : ∀ v ∈ p.inputs ++ [p.result], Reaches d.system d.table (p.space d.table) v p.result := by
    intro v hv
    rcases List.mem_append.mp hv with hv | hv
    · exact h.reaches_of_joined hp (joined_of_input hseated.rows hseated.arity hv)
    · obtain rfl := List.mem_singleton.mp hv
      exact .refl _
  exact Or.inr ⟨fun v => hseated.relative_boundary, fun v hv w hw => (hresult v hv).trans _ _ _ (hresult w hw).symm⟩

variable (hapart : parts.Pairwise Part.Apart)
include hapart

/-- A copy of another part between cells with addresses ends in an input. -/
theorem second_mem_inputs (hq : q ∈ parts) (hne : q ≠ p) (hties : q.Ties ⟨v, w⟩)
    (haddressed : ((p.space d.table).address? w).isSome) : w ∈ p.inputs := by
  have hseated := h.seated q hq
  obtain ⟨i, -, r, hlo, hhi, rfl⟩ := second_of_ties hseated.rows hseated.arity hties
  rcases Space.isSome_address?_witness_iff.mp haddressed with ⟨hplo, hphi, -⟩ | hmem
  · exact absurd (eq_of_row hapart hp hq ⟨hplo, hphi⟩ ⟨hlo, hhi⟩) hne
  · refine (List.mem_append.mp hmem).resolve_right fun hresult => hne ?_
    obtain ⟨-, -, hplo, hphi⟩ := p.component.owns_result p.row
    have hposition := congrArg Variable.position (List.mem_singleton.mp hresult)
    obtain rfl : r = p.row + p.component.rows - 1 := Position.row.inj hposition
    exact eq_of_row hapart hp hq ⟨hplo, hphi⟩ ⟨hlo, hhi⟩

/-- Whatever is touched around a part is wired to its result, or to an input by a copy of another part. -/
theorem withoutIslands : WithoutIslands d.system d.table (p.space d.table) p.inputs [p.result] := by
  have hseated := h.seated p hp
  have hresult : p.result ∈ p.inputs ++ [p.result] := List.mem_append_right _ (List.mem_singleton_self _)
  intro v htouched
  rcases htouched.cases with ⟨r, xs, hrow, hactive, hv⟩ | ⟨⟨first, second⟩, hc, hv, hfirst, hsecond⟩
  · -- What is on in the window is of this part: the windows of the others are disjoint from it.
    obtain ⟨q, hq, hactive⟩ := (h.active r xs).mp hactive
    obtain rfl := eq_of_row hapart hp hq (Part.inWindow_iff.mp hrow) hactive.mem_rows
    exact ⟨q.result, hresult, rfl, h.reaches_of_joined hp (joined_of_active hseated.rows hactive hv)⟩
  · -- A copy of the part itself ties cells that reach its result.
    obtain ⟨q, hq, hties⟩ := (h.copies _).mp hc
    by_cases hsame : q = p
    · subst hsame
      obtain ⟨hjoined, hjoined'⟩ := joined_of_ties hseated.rows hseated.arity hties
      refine ⟨q.result, hresult, rfl, h.reaches_of_joined hp ?_⟩
      rcases hv with rfl | rfl
      · exact hjoined
      · exact hjoined'
    · -- A copy of another part reaches into this window only where this one reads it as an input.
      have hinput := List.mem_append_left [p.result] (h.second_mem_inputs hp hapart hq hsame hties hsecond)
      have hedge : Edge d.system d.table (p.space d.table) first second := edge_iff.mpr ⟨⟨hfirst, hsecond⟩, Or.inr hc⟩
      refine ⟨second, hinput, hseated.relative_boundary hinput, ?_⟩
      rcases hv with rfl | rfl
      · exact .rel _ _ hedge
      · exact .refl _

end Composed

/-! ### The strictest check -/

/-- The zones of a composed circuit can be made whatever its cells hold, apart from the selectors: all that is on reads
    cells of rows that can be written. -/
theorem Composed.exists_make_of_selectors (h : Composed parts d) (hselectors : t.selectors = d.table.selectors)
    (inputs outputs : List Variable) (start rows : Nat) :
    ∃ z, Zones.make d.system t inputs outputs start rows = .ok z := by
  refine Zones.exists_make fun r xs _ _ hactive x hx v hv => ?_
  simp only [System.active_iff_obliges, System.obliges_of_selectors hselectors] at hactive
  rw [← System.active_iff_obliges] at hactive
  obtain ⟨q, hq, hactive⟩ := (h.active r xs).mp hactive
  obtain ⟨i, -, rfl⟩ := hactive.operand hx hv
  exact ⟨_, resolve_operand i (Nat.lt_of_lt_of_le hactive.mem_rows.2 (h.seated q hq).rows)⟩

theorem Composed.exists_make (h : Composed parts d) (inputs outputs : List Variable) (start rows : Nat) :
    ∃ z, Zones.make d.system d.table inputs outputs start rows = .ok z :=
  h.exists_make_of_selectors rfl inputs outputs start rows

/-- Placed from a bare circuit on, on rows of their own, components pass the strictest check, whatever their inputs and
    whatever surrounds them. -/
theorem connected_of_placeAll (hbare : c.system.Bare)
    (hfresh : ∀ selector row, c.system.nextSelector ≤ selector → c.table.cell .selector selector row = 0)
    {cells : List Variable} (hrun : c.placeAll parts = .ok (cells, d)) (hapart : parts.Pairwise Part.Apart) :
    ∀ p ∈ parts, p.component.connected d p.input p.row ⟨.strong, true⟩ = .ok true := by
  intro p hp
  have h := composed_of_placeAll hbare hfresh hrun
  obtain ⟨z, hz⟩ := h.exists_make p.inputs [p.result] p.row p.component.rows
  have hspace : z.space = p.space d.table := Zones.space_eq hz
  have hanswer : (⟨.strong, true⟩ : Check).answer z p.inputs [p.result] = true := by
    rw [Zones.answer_iff_connected hz, hspace]
    exact ⟨h.stronglyWired hp, fun _ => h.withoutIslands hp hapart⟩
  refine bind_eq_ok.mpr ⟨p.result, output_eq_ok (h.seated p hp).rows, ?_⟩
  rw [Check.run, if_neg (by decide)]
  exact map_eq_ok.mpr ⟨z, hz, hanswer⟩

/-- Beside a packed range table: a sum of two public inputs, a check of it, and a running sum of it, of an input of the
    first sum and of a cell that nobody writes. -/
theorem connected_of_three_parts :
    let c₀ : Circuit := ⟨.empty, ⟨#[#[], #[], #[]], #[#[]], #[#[1, 2]], #[#[], #[], #[], #[], #[]]⟩⟩
    let x : Variable := ⟨.publicInput, 0, .row 0⟩
    let y : Variable := ⟨.publicInput, 0, .row 1⟩
    let z : Variable := ⟨.witness, 2, .row 0⟩
    let parts : List Part := [⟨.addition ⟨0, 1, 2⟩, (x, y), 0⟩, ⟨.rangeOf 0 2 Lookup.fullName, z, 1⟩,
      ⟨.runningSum ⟨0, 1, 2⟩ 3 (by decide), [z, x, ⟨.witness, 1, .row 9⟩], 2⟩]
    ∃ c cells d, Lookup.Catalogue.fours.pack .vertical c₀ [0] 0 = .ok (c, .ok 5) ∧ c.placeAll parts = .ok (cells, d) ∧
      ∀ p ∈ parts, p.component.connected d p.input p.row ⟨.strong, true⟩ = .ok true := by
  intro c₀ x y z parts
  let system : System := { System.empty with
    targets := ⟨[(1, ⟨0, 1, [[.constant 0 0]]⟩)], by decide⟩
    reserved := ⟨[(Lookup.join (Lookup.rangeName 2) Lookup.fullName, 1)], by decide⟩
    nextSelector := 1 }
  let c : Circuit := ⟨system, ⟨#[#[], #[], #[]], #[#[0, 0, 1, 2, 3]], #[#[1, 2]], #[#[0, 1, 1, 1, 1], #[], #[], #[], #[]]⟩⟩
  have hpack : Lookup.Catalogue.fours.pack .vertical c₀ [0] 0 = .ok (c, .ok 5) := by cbv
  have hfresh : ∀ selector row, 1 ≤ selector → c.table.cell .selector selector row = 0 :=
    fun _ _ => Assignment.cell_of_empty (by decide)
  have hok : (c.placeAll parts).isOk = true := by cbv
  have hapart : parts.Pairwise Part.Apart := by
    unfold Part.Apart
    decide
  cases hrun : c.placeAll parts with
  | ok run => exact ⟨c, run.1, run.2, hpack, hrun, connected_of_placeAll ⟨rfl, rfl, rfl⟩ hfresh hrun hapart⟩
  | error _ =>
    rw [hrun] at hok
    cases hok

end Plonkish
