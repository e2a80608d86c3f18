import Plonkish.Proofs.Component.Feasible
import Plonkish.Proofs.Violation

/-! Placing a component and filling it keeps a circuit satisfied. The rows at which gates are on after the
    placing are those from before and those of the component (`on_gate`, `on_lookupGate`). What was on
    before reads no cell that the filling writes (`Circuit.Reads`), so it holds as it did; the component's
    own constraints and copies hold by the filling, and its lookups if its tuple is in the table
    (`standing_assign`). -/

namespace Plonkish

/-! ### Circuits that stand -/

namespace Circuit

/-- The cells that decide whether a circuit is satisfied, apart from its tables: operands of gates and lookup gates
    at the rows where these are on, and ends of copies. -/
inductive Reads (d : Circuit) : ColumnKind → Nat → Nat → Prop where
  | gate {g : Gate} {row r : Nat} {x : Expr} {v : Variable} (hg : g ∈ d.system.gates) (hon : d.table.isOn g.selector row)
    (hx : x ∈ g.constraints) (hv : v ∈ x.leaves) (hr : v.row? row = some r) : Reads d v.kind v.index r
  | query {g : LookupGate} {row r : Nat} {q : Query} {x : Expr} {v : Variable} (hg : g ∈ d.system.lookupGates)
    (hon : d.table.isOn g.tag row) (hq : q ∈ g.queries) (hx : x ∈ q.input) (hv : v ∈ x.leaves)
    (hr : v.row? row = some r) : Reads d v.kind v.index r
  | first {c : Copy} {r : Nat} (hc : c ∈ d.system.copies) (hr : c.first.row? 0 = some r) :
    Reads d c.first.kind c.first.index r
  | second {c : Copy} {r : Nat} (hc : c ∈ d.system.copies) (hr : c.second.row? 0 = some r) :
    Reads d c.second.kind c.second.index r

/-- A circuit that is satisfied, with tables of constants and with nothing marked by selectors not yet handed out. -/
structure Standing (d : Circuit) : Prop where
  tidy : d.system.Tidy
  covered : d.system.Covered d.table
  met : d.system.Met d.table
  constant : ∀ g ∈ d.system.lookupGates, ∀ q ∈ g.queries, ∀ target, d.system.targets.get? q.table = some target →
    ∀ option ∈ target.options, ∀ v ∈ option, v.kind = .constant
  fresh : ∀ selector row, d.system.nextSelector ≤ selector → d.table.cell .selector selector row = 0

theorem Standing.firstViolation {d : Circuit} (h : d.Standing) : d.system.firstViolation d.table = .ok none :=
  (System.firstViolation_eq_none_iff_met h.tidy h.covered).mpr h.met

/-- A circuit in which nothing was placed stands, and reads nothing. -/
theorem standing_of_bare {d : Circuit} (h : d.system.Bare)
    (hfresh : ∀ selector row, d.system.nextSelector ≤ selector → d.table.cell .selector selector row = 0) :
    d.Standing ∧ ∀ k i r, ¬ d.Reads k i r := by
  have hgates : ∀ g, g ∉ d.system.gates := fun g => h.gates ▸ List.not_mem_nil
  have hlookups : ∀ g, g ∉ d.system.lookupGates := fun g => h.lookupGates ▸ List.not_mem_nil
  have hcopies : ∀ c, c ∉ d.system.copies := fun c => h.copies ▸ List.not_mem_nil
  refine ⟨⟨h.tidy, ?_, ?_, fun g hg => absurd hg (hlookups g), hfresh⟩, fun k i r hreads => ?_⟩
  · exact ⟨fun g hg => absurd hg (hgates g), fun c hc => absurd hc (hcopies c), fun g hg => absurd hg (hlookups g),
      fun g hg => absurd hg (hlookups g)⟩
  · exact ⟨fun g hg => absurd hg (hgates g), fun c hc => absurd hc (hcopies c), fun g hg => absurd hg (hlookups g)⟩
  · cases hreads with
    | gate hg => exact hgates _ hg
    | query hg => exact hlookups _ hg
    | first hc => exact hcopies _ hc
    | second hc => exact hcopies _ hc

end Circuit

namespace Component
open Assignment (Writes)
open Plonkish.System

variable {c : Component} {d placed : Circuit} {input : c.Input} {row : Nat} {output : Variable} {t' : Assignment}

/-! ### Which gates are on -/

section Fired
variable (hplace : c.place d input row = .ok (output, placed))
include hplace

/-- Where a selector is on after placing, it was on before or the component has turned it on. -/
theorem on_or_lit {selectors : List Nat} {system : System} (hregister : c.register d.system = .ok (selectors, system))
    {selector r : Nat} (hon : placed.table.isOn selector r) :
    d.table.isOn selector r ∨ (selector, r) ∈ c.lit selectors row := by
  by_cases hlit : (selector, r) ∈ c.lit selectors row
  · exact Or.inr hlit
  · rw [Assignment.isOn, cell_place hplace hregister, if_neg fun h => hlit h.2] at hon
    exact Or.inl hon

theorem isOn_of_lit {selectors : List Nat} {system : System} (hregister : c.register d.system = .ok (selectors, system))
    {selector r : Nat} (hlit : (selector, r) ∈ c.lit selectors row) : placed.table.isOn selector r := by
  rw [Assignment.isOn, cell_place hplace hregister, if_pos ⟨rfl, hlit⟩]
  decide

/-- What a component turns on is a gate of its own or, in its first row, a lookup gate of its own. -/
theorem fired_of_place {selectors : List Nat} {system : System} (hregister : c.register d.system = .ok (selectors, system))
    {selector r : Nat} (hlit : (selector, r) ∈ c.lit selectors row) :
    (∃ constraints first stop, (constraints, first, stop) ∈ c.gates.zip c.firing ∧ row + first ≤ r ∧ r < row + stop ∧
      ⟨selector, constraints⟩ ∈ placed.system.gates) ∨
    ∃ lookup ∈ c.lookups, ∃ id, d.system.reserved.get? lookup.1 = some id ∧
      ⟨selector, [⟨id, lookup.2⟩]⟩ ∈ placed.system.lookupGates ∧ r = row := by
  obtain ⟨_, _, hregister', -, -, hwires, -⟩ := place_eq_ok hplace
  obtain ⟨rfl, rfl⟩ := Prod.mk.inj (Except.ok.inj (hregister.symm.trans hregister'))
  have hgrows := (addWires_eq_ok hwires).2
  obtain ⟨own, tags, -, -, -, hgrows'⟩ := register_eq_ok hregister
  rcases fired_of_lit hregister hlit with ⟨constraints, first, stop, hmem, hlo, hhi, hg⟩ | ⟨lookup, hl, id, hid, hg, hr⟩
  · exact Or.inl ⟨constraints, first, stop, hmem, hlo, hhi, hgrows.mem_gates hg⟩
  · exact Or.inr ⟨lookup, hl, id, hgrows'.reserved ▸ tableId_eq_ok hid, hgrows.mem_lookupGates hg, hr⟩

variable (hs : d.system.Tidy)
  (hfresh : ∀ selector row, d.system.nextSelector ≤ selector → d.table.cell .selector selector row = 0)
include hs hfresh

/-- A gate that is on after placing was on before, or it is one of the component in one of its rows. -/
theorem on_gate {g : Gate} (hg : g ∈ placed.system.gates) {r : Nat} (hon : placed.table.isOn g.selector r) :
    (g ∈ d.system.gates ∧ d.table.isOn g.selector r) ∨
      ∃ first stop, (g.constraints, first, stop) ∈ c.gates.zip c.firing ∧ row + first ≤ r ∧ r < row + stop := by
  obtain ⟨selectors, system, hregister, -⟩ := place_eq_ok hplace
  have htidy := tidy_place hplace hs
  rcases on_or_lit hplace hregister hon with hon | hlit
  · rcases (adds_place hplace).gates g hg with hg | ⟨hnew, -⟩
    · exact Or.inl ⟨hg, hon⟩
    · simp [Assignment.isOn, hfresh _ _ hnew] at hon
  · rcases fired_of_place hplace hregister hlit with ⟨constraints, first, stop, hmem, hlo, hhi, hg'⟩ | ⟨_, -, _, -, hg', -⟩
    · have hconstraints : g.constraints = constraints := congrArg Gate.constraints (htidy.gate_unique hg hg' rfl)
      exact Or.inr ⟨first, stop, hconstraints ▸ hmem, hlo, hhi⟩
    · exact absurd rfl (htidy.selector_ne_tag hg hg')

theorem on_lookupGate {g : LookupGate} (hg : g ∈ placed.system.lookupGates) {r : Nat}
    (hon : placed.table.isOn g.tag r) : (g ∈ d.system.lookupGates ∧ d.table.isOn g.tag r) ∨
      r = row ∧ ∃ lookup ∈ c.lookups, ∃ id, d.system.reserved.get? lookup.1 = some id ∧ g.queries = [⟨id, lookup.2⟩] := by
  obtain ⟨selectors, system, hregister, -⟩ := place_eq_ok hplace
  have htidy := tidy_place hplace hs
  rcases on_or_lit hplace hregister hon with hon | hlit
  · rcases (adds_place hplace).lookups g hg with hg | ⟨hnew, -⟩
    · exact Or.inl ⟨hg, hon⟩
    · simp [Assignment.isOn, hfresh _ _ hnew] at hon
  · rcases fired_of_place hplace hregister hlit with ⟨_, _, _, -, -, -, hg'⟩ | ⟨lookup, hl, id, hid, hg', hr⟩
    · exact absurd rfl (htidy.selector_ne_tag hg' hg)
    · exact Or.inr ⟨hr, lookup, hl, id, hid, congrArg LookupGate.queries (htidy.lookup_unique hg hg' rfl)⟩

/-- Selectors not yet handed out mark nothing. -/
theorem fresh_place (selector r : Nat) (hle : placed.system.nextSelector ≤ selector) :
    placed.table.cell .selector selector r = 0 := by
  obtain ⟨selectors, system, hregister, -⟩ := place_eq_ok hplace
  have htidy := tidy_place hplace hs
  rw [cell_place hplace hregister, if_neg]
  · exact hfresh selector r (Nat.le_trans (adds_place hplace).next hle)
  · rintro ⟨-, hlit⟩
    rcases fired_of_place hplace hregister hlit with ⟨_, _, _, -, -, -, hg⟩ | ⟨_, -, _, -, hg, -⟩
    · exact Nat.not_lt.mpr hle (htidy.used _ (Tidy.mem_selectors hg))
    · exact Nat.not_lt.mpr hle (htidy.used _ (Tidy.mem_tags hg))

end Fired

/-! ### What is left as it was -/

theorem width_place (hplace : c.place d input row = .ok (output, placed)) (k : ColumnKind) :
    placed.table.width k = d.table.width k := by
  obtain ⟨selectors, system, -, henable, -⟩ := place_eq_ok hplace
  exact width_enable henable k

theorem cell_of_place (hplace : c.place d input row = .ok (output, placed)) {k : ColumnKind} (hk : k ≠ .selector)
    (i r : Nat) : placed.table.cell k i r = d.table.cell k i r := by
  obtain ⟨selectors, system, hregister, -⟩ := place_eq_ok hplace
  rw [cell_place hplace hregister, if_neg fun h => hk h.1]

theorem isOn_place (hplace : c.place d input row = .ok (output, placed)) {selector r : Nat}
    (hon : d.table.isOn selector r) : placed.table.isOn selector r := by
  obtain ⟨selectors, system, hregister, -⟩ := place_eq_ok hplace
  rw [Assignment.isOn, cell_place hplace hregister]
  split
  · decide
  · exact hon

theorem value_place (hplace : c.place d input row = .ok (output, placed)) {v : Variable} (hv : v.kind ≠ .selector) :
    placed.table.value v = d.table.value v := by
  obtain ⟨k, i, p | r⟩ := v
  · rfl
  · show placed.table.get? k i r = d.table.get? k i r
    rw [Assignment.get?, Assignment.get?, width_place hplace, cell_of_place hplace hv]

theorem read_place (hplace : c.place d input row = .ok (output, placed)) {v : Variable} (hv : v.kind ≠ .selector) :
    placed.table.read v = d.table.read v := by
  rw [Assignment.read, Assignment.read, value_place hplace hv]

theorem tuple_congr {read read' : Variable → Scalar} (h : ∀ v ∈ c.inputs input, read v = read' v) :
    c.tuple read input = c.tuple read' input := by
  cases c with
  | xor w =>
    obtain ⟨x, y⟩ := input
    rw [tuple, tuple, h x List.mem_cons_self, h y (List.mem_cons_of_mem _ List.mem_cons_self)]
  | rangeCheck column table => exact congrArg (fun x => [x]) (h input (List.mem_singleton_self _))
  | addition w => rfl
  | multiplication w => rfl
  | runningSum w terms pos => rfl

theorem compute_congr {read read' : Variable → Scalar} (h : ∀ v ∈ c.inputs input, read v = read' v) :
    c.compute read input = c.compute read' input := by
  have hpair : ∀ {x y : Variable}, c.inputs input = [x, y] → read x = read' x ∧ read y = read' y := fun he =>
    ⟨h _ (he ▸ List.mem_cons_self), h _ (he ▸ List.mem_cons_of_mem _ List.mem_cons_self)⟩
  cases c with
  | addition w =>
    obtain ⟨hx, hy⟩ := @hpair input.1 input.2 rfl
    exact congrArg₂ (· + ·) hx hy
  | multiplication w =>
    obtain ⟨hx, hy⟩ := @hpair input.1 input.2 rfl
    exact congrArg₂ (· * ·) hx hy
  | xor w =>
    obtain ⟨hx, hy⟩ := @hpair input.1 input.2 rfl
    exact congrArg₂ xorLow hx hy
  | runningSum w terms pos => exact congrArg List.sum (List.map_congr_left h)
  | rangeCheck column table => exact h input (List.mem_singleton_self _)

theorem Fits.place (h : c.Fits d.table input row) (hplace : c.place d input row = .ok (output, placed)) :
    c.Fits placed.table input row where
  distinct := h.distinct
  width i hi := width_place hplace .witness ▸ h.width i hi
  rows := h.rows
  arity := h.arity
  inputs v hv := ⟨(h.inputs v hv).1, (h.inputs v hv).2.1, by
    rw [Assignment.Has, width_place hplace]
    exact (h.inputs v hv).2.2⟩
  outside := h.outside

/-! ### Assigning -/

/-- A component that fits is assigned: it answers the cell of its result, and is filled. -/
theorem exists_assign {t : Assignment} (h : c.Fits t input row) (houtput : c.output row = .ok output) :
    ∃ t', c.assign t input row = .ok (output, t') ∧ Filled c t t' input row := by
  obtain ⟨t', hfill, hfilled⟩ := exists_fill h
  exact ⟨t', bind_eq_ok.mpr ⟨t', hfill, bind_eq_ok.mpr ⟨output, houtput, rfl⟩⟩, hfilled⟩

/-- Every lookup of a component has a table of constants that lists what it looks up. -/
def Answered (c : Component) (d : Circuit) (input : c.Input) : Prop :=
  ∀ lookup ∈ c.lookups, ∃ id target, d.system.reserved.get? lookup.1 = some id ∧
    d.system.targets.get? id = some target ∧ (∀ option ∈ target.options, ∀ v ∈ option, v.kind = .constant ∧ d.table.Has v) ∧
    d.table.Lists target (c.tuple d.table.read input)

theorem Answered.options (h : c.Answered d input) {lookup : String × List Expr} (hl : lookup ∈ c.lookups) {id : Nat}
    (hid : d.system.reserved.get? lookup.1 = some id) {target : Target} (ht : d.system.targets.get? id = some target) :
    ∀ option ∈ target.options, ∀ v ∈ option, v.kind = .constant ∧ d.table.Has v := by
  obtain ⟨id', target', hid', ht', hconst, -⟩ := h lookup hl
  obtain rfl := Option.some.inj (hid.symm.trans hid')
  obtain rfl := Option.some.inj (ht.symm.trans ht')
  exact hconst

section Assign
variable (hfits : c.Fits d.table input row) (hplace : c.place d input row = .ok (output, placed))
  (hfilled : Filled c placed.table t' input row)
include hplace hfilled

theorem width_assign (k : ColumnKind) : t'.width k = d.table.width k :=
  (hfilled.writes.width k).trans (width_place hplace k)

theorem has_assign {v : Variable} (h : d.table.Has v) : t'.Has v := by
  rwa [Assignment.Has, width_assign hplace hfilled]

/-- The cells outside of a component are as before, the selectors apart. -/
theorem cell_assign {k : ColumnKind} {i r : Nat} (hk : k ≠ .selector) (hout : ¬ c.Owns row k i r) :
    t'.cell k i r = d.table.cell k i r :=
  (hfilled.writes.cell k i r hout).trans (cell_of_place hplace hk i r)

theorem value_assign {v : Variable} (hv : v.kind ≠ .selector)
    (hout : ∀ r, v.position = .row r → ¬ c.Owns row v.kind v.index r) : t'.value v = d.table.value v :=
  (hfilled.writes.value_eq hout).trans (value_place hplace hv)

omit hplace in
theorem isOn_assign (selector r : Nat) : t'.isOn selector r = placed.table.isOn selector r := by
  have hcell : t'.cell .selector selector r = placed.table.cell .selector selector r :=
    hfilled.writes.cell _ _ _ fun h => nomatch h.1
  rw [Assignment.isOn, Assignment.isOn, hcell]

/-- A table of constants lists what it listed. -/
theorem lists_assign {target : Target} {x : List Scalar} (h : d.table.Lists target x)
    (hconst : ∀ option ∈ target.options, ∀ v ∈ option, v.kind = .constant) : t'.Lists target x := by
  refine h.mono hconst (fun i r => cell_assign hplace hfilled (fun h => nomatch h) fun h => nomatch h.1) fun r hon => ?_
  rw [isOn_assign hfilled]
  exact isOn_place hplace hon

include hfits

/-- The ends of the copies that a component makes are inputs or cells of its own, in columns that exist. -/
theorem ends_of_ties {copy : Copy} (h : c.Ties input row copy) {v : Variable} (hv : v = copy.first ∨ v = copy.second) :
    t'.Has v ∧ v.relative = false ∧ ∀ r, v.row? 0 = some r → c.Owns row v.kind v.index r ∨ v ∈ c.inputs input := by
  obtain ⟨e, he, hfirst, hsecond⟩ := h
  obtain ⟨_, _, -, -, harity, -⟩ := place_eq_ok hplace
  have hend : ∀ {x : End}, EndOf c input row x → x.variable = .ok v → t'.Has v ∧ v.relative = false ∧
      ∀ r, v.row? 0 = some r → c.Owns row v.kind v.index r ∨ v ∈ c.inputs input := by
    intro x hx hv
    cases hx with
    | given hmem =>
      obtain rfl := Except.ok.inj hv
      exact ⟨has_assign hplace hfilled (hfits.inputs _ hmem).2.2, (hfits.inputs _ hmem).1, fun _ _ => Or.inr hmem⟩
    | own hi hlo hhi =>
      obtain rfl := eq_of_at? hv
      refine ⟨has_assign hplace hfilled (hfits.width _ hi), rfl, fun r hr => ?_⟩
      obtain rfl := Option.some.inj hr
      exact Or.inl ⟨rfl, hi, hlo, hhi⟩
  rcases hv with rfl | rfl
  · exact hend (endOf_wires harity he).1 hfirst
  · exact hend (endOf_wires harity he).2 hsecond

/-- All columns read by the circuit exist. -/
theorem covered_assign (h : d.Standing) (hanswered : c.Answered d input) : placed.system.Covered t' := by
  have hadds := adds_place hplace
  have hold : ∀ {v : Variable}, d.table.Has v → t'.Has v := has_assign hplace hfilled
  -- Columns are only ever filled, and a component reads its own.
  have hown : ∀ {v : Variable}, (∃ i ∈ c.columns, v = .witness i 0) → t'.Has v := by
    rintro v ⟨i, hi, rfl⟩
    exact hold (hfits.width i hi)
  refine ⟨fun g hg x hx v hv => ?_, fun copy hc => ?_, fun g hg q hq x hx v hv => ?_,
    fun g hg q hq target ht option ho v hv => ?_⟩
  · rcases hadds.gates g hg with hg | ⟨-, hgates⟩
    · exact hold (h.covered.gates g hg x hx v hv)
    · exact hown (operand_of_gates hgates hx hv)
  · rcases hadds.copies copy hc with hc | hties
    · exact ⟨hold (h.covered.copies copy hc).1, hold (h.covered.copies copy hc).2⟩
    · exact ⟨(ends_of_ties hfits hplace hfilled hties (Or.inl rfl)).1,
        (ends_of_ties hfits hplace hfilled hties (Or.inr rfl)).1⟩
  · rcases hadds.lookups g hg with hg | ⟨-, lookup, hl, id, -, hqs⟩
    · exact hold (h.covered.queries g hg q hq x hx v hv)
    · obtain rfl := List.mem_singleton.mp (hqs ▸ hq)
      exact hown (operand_of_lookups hl hx hv)
  · rw [hadds.targets] at ht
    rcases hadds.lookups g hg with hg | ⟨-, lookup, hl, id, hid, hqs⟩
    · exact hold (h.covered.options g hg q hq target ht option ho v hv)
    · obtain rfl := List.mem_singleton.mp (hqs ▸ hq)
      exact hold ((hanswered.options hl hid ht) option ho v hv).2

/-- The circuit is satisfied as before, and the component is. -/
theorem met_assign (h : d.Standing) (hfree : ∀ k i r, d.Reads k i r → k ≠ .selector ∧ ¬ c.Owns row k i r)
    (hanswered : c.Answered d input) : placed.system.Met t' := by
  have hadds := adds_place hplace
  have hon : ∀ {selector r}, t'.isOn selector r → placed.table.isOn selector r := fun h =>
    isOn_assign hfilled _ _ ▸ h
  have hseen : ∀ {v : Variable} {r : Nat}, (∀ r', v.row? r = some r' → d.Reads v.kind v.index r') →
      t'.seen r v = d.table.seen r v := fun hreads => Assignment.seen_congr fun r' hr' =>
    cell_assign hplace hfilled (hfree _ _ _ (hreads r' hr')).1 (hfree _ _ _ (hreads r' hr')).2
  refine ⟨fun g hg r hr x hx => ?_, fun copy hc => ?_, fun g hg r hr q hq => ?_⟩
  · -- A gate that was on before reads what it read, and one that is on now belongs to the component.
    rcases on_gate hplace h.tidy h.fresh hg (hon hr) with ⟨hg, hr⟩ | ⟨first, stop, hmem, hlo, hhi⟩
    · rw [Expr.denote_congr fun v hv => hseen fun r' hr' => .gate hg hr hx hv hr']
      exact h.met.gates g hg r hr x hx
    · exact hfilled.gates _ hmem r hlo hhi x hx
  · rcases hadds.copies copy hc with hc | hties
    · rw [hseen fun r' hr' => .first hc hr', hseen fun r' hr' => .second hc hr']
      exact h.met.copies copy hc
    · obtain ⟨hfirst, habs, -⟩ := ends_of_ties hfits hplace hfilled hties (Or.inl rfl)
      obtain ⟨hsecond, habs', -⟩ := ends_of_ties hfits hplace hfilled hties (Or.inr rfl)
      obtain ⟨e, he, hv, hw⟩ := hties
      -- A new copy ties two cells that the component has filled alike.
      obtain ⟨x, hx, hx'⟩ := hfilled.wires e he
      rw [← End.value_eq_read hv, Assignment.value_eq_seen hfirst habs 0] at hx
      rw [← End.value_eq_read hw, Assignment.value_eq_seen hsecond habs' 0] at hx'
      exact Except.ok.inj (hx.trans hx'.symm)
  · rcases on_lookupGate hplace h.tidy h.fresh hg (hon hr) with ⟨hg, hr⟩ | ⟨rfl, lookup, hl, id, hid, hqs⟩
    · obtain ⟨target, ht, hlists⟩ := h.met.lookups g hg r hr q hq
      refine ⟨target, hadds.targets ▸ ht, ?_⟩
      rw [List.map_congr_left fun x hx => Expr.denote_congr fun v hv => hseen fun r' hr' => .query hg hr hq hx hv hr']
      exact lists_assign hplace hfilled hlists (h.constant g hg q hq target ht)
    · obtain rfl := List.mem_singleton.mp (hqs ▸ hq)
      -- What the component looks up is in the table that answers.
      obtain ⟨id', target, hid', ht, hconst, hlists⟩ := hanswered lookup hl
      obtain rfl := Option.some.inj (hid.symm.trans hid')
      refine ⟨target, hadds.targets ▸ ht, ?_⟩
      rw [hfilled.lookups lookup hl, tuple_congr fun v hv => read_place hplace (hfits.inputs v hv).2.1]
      exact lists_assign hplace hfilled hlists fun option ho v hv => (hconst option ho v hv).1

/-- The circuit reads what it read before, cells of the component, and its inputs. -/
theorem reads_assign (h : d.Standing) {k : ColumnKind} {i r : Nat} (hreads : Circuit.Reads ⟨placed.system, t'⟩ k i r) :
    d.Reads k i r ∨ c.Owns row k i r ∨ ∃ v ∈ c.inputs input, v.kind = k ∧ v.index = i ∧ v.row? 0 = some r := by
  have hadds := adds_place hplace
  have hon : ∀ {selector r}, t'.isOn selector r → placed.table.isOn selector r := fun h => isOn_assign hfilled _ _ ▸ h
  have hown : ∀ {v : Variable} {row' r : Nat}, (∃ i ∈ c.columns, v = .witness i 0) → row ≤ row' →
      row' < row + c.rows → v.row? row' = some r → c.Owns row v.kind v.index r := by
    rintro v row' r ⟨i, hi, rfl⟩ hlo hhi hr
    obtain rfl : row' = r := by simpa [Variable.row?, Variable.witness] using hr
    exact ⟨rfl, hi, hlo, hhi⟩
  -- A copy that is new ties cells of the component to its inputs.
  have htie : ∀ {copy : Copy} {v : Variable} {r : Nat}, copy ∈ placed.system.copies → copy ∉ d.system.copies →
      v = copy.first ∨ v = copy.second → v.row? 0 = some r → c.Owns row v.kind v.index r ∨ v ∈ c.inputs input :=
    fun hc hnew hv hr => (ends_of_ties hfits hplace hfilled ((hadds.copies _ hc).resolve_left hnew) hv).2.2 _ hr
  cases hreads with
  | gate hg hr hx hv hrow =>
    rcases on_gate hplace h.tidy h.fresh hg (hon hr) with ⟨hg, hr⟩ | ⟨first, stop, hmem, hlo, hhi⟩
    · exact Or.inl (.gate hg hr hx hv hrow)
    · have hstop := stop_le_rows (List.of_mem_zip hmem).2
      exact Or.inr (Or.inl (hown (operand_of_gates (List.of_mem_zip hmem).1 hx hv) (by omega) (by omega) hrow))
  | query hg hr hq hx hv hrow =>
    rcases on_lookupGate hplace h.tidy h.fresh hg (hon hr) with ⟨hg, hr⟩ | ⟨rfl, lookup, hl, id, -, hqs⟩
    · exact Or.inl (.query hg hr hq hx hv hrow)
    · obtain rfl := List.mem_singleton.mp (hqs ▸ hq)
      exact Or.inr (Or.inl (hown (operand_of_lookups hl hx hv) le_rfl (Nat.lt_add_of_pos_right c.rows_pos) hrow))
  | @first copy r hc hr =>
    by_cases hold : copy ∈ d.system.copies
    · exact Or.inl (.first hold hr)
    · exact Or.inr ((htie hc hold (Or.inl rfl) hr).imp id fun hv => ⟨_, hv, rfl, rfl, hr⟩)
  | @second copy r hc hr =>
    by_cases hold : copy ∈ d.system.copies
    · exact Or.inl (.second hold hr)
    · exact Or.inr ((htie hc hold (Or.inr rfl) hr).imp id fun hv => ⟨_, hv, rfl, rfl, hr⟩)

/-- Placing and filling a component that fits, is free and is answered keeps the circuit standing. -/
theorem standing_assign (h : d.Standing) (hfree : ∀ k i r, d.Reads k i r → k ≠ .selector ∧ ¬ c.Owns row k i r)
    (hanswered : c.Answered d input) : Circuit.Standing ⟨placed.system, t'⟩ := by
  have hadds := adds_place hplace
  have htidy := tidy_place hplace h.tidy
  have hcovered := covered_assign hfits hplace hfilled h hanswered
  have hmet := met_assign hfits hplace hfilled h hfree hanswered
  refine ⟨htidy, hcovered, hmet, fun g hg q hq target ht => ?_, fun selector r hle => ?_⟩
  · rw [hadds.targets] at ht
    rcases hadds.lookups g hg with hg | ⟨-, lookup, hl, id, hid, hqs⟩
    · exact h.constant g hg q hq target ht
    · obtain rfl := List.mem_singleton.mp (hqs ▸ hq)
      exact fun option ho v hv => (hanswered.options hl hid ht option ho v hv).1
  · have hcell : t'.cell .selector selector r = placed.table.cell .selector selector r :=
      hfilled.writes.cell _ _ _ fun hw => nomatch hw.1
    exact hcell.trans (fresh_place hplace h.tidy h.fresh selector r hle)

end Assign

end Component
end Plonkish
