import Mathlib
import Plonkish.Proofs.Component.Assembly
import Plonkish.Proofs.Component.Wiring
import Plonkish.Proofs.Obligations

/-! What a circuit consists of when components are placed in it. After a component is placed, what is asked for in a
    row is what was asked for before and what the component asks for there (`obliges_place`), and the copies are
    those from before and its own. So a circuit in which parts are placed from a bare one on has the constraints and
    copies of the parts, and no others (`Composed`, `composed_of_placeAll`). -/

namespace Plonkish
open Component

/-- The expressions that are on are those that are asked about. -/
theorem System.active_iff_obliges {s : System} {t : Assignment} {row : Nat} {xs : List Expr} :
    s.Active t row xs ↔ ∃ ask, s.Obliges t row ask ∧ ask.exprs = xs := by
  constructor
  · intro h
    cases h with
    | @gate g hg hon hxs => exact ⟨.gate g.constraints, ⟨g.selector, hg, hon⟩, hxs⟩
    | @lookup g hg hon hxs => exact ⟨.lookup g.queries, ⟨g.tag, hg, hon⟩, hxs⟩
  · rintro ⟨_ | _, ⟨selector, hask, hon⟩, hxs⟩
    · exact .gate hask hon hxs
    · exact .lookup hask hon hxs

namespace Component
open Plonkish.System
variable {c : Component} {d placed : Circuit} {input : c.Input} {row r : Nat} {output : Variable} {xs : List Expr}
  {reserved : SortedMap String Nat} {ask : Ask}

/-- What a component that is placed at a row asks for in row `r`, where its tables have ids. -/
inductive Obliges (c : Component) (reserved : SortedMap String Nat) (row r : Nat) : Ask → Prop where
  | gate {constraints : List Expr} {first stop : Nat} (hgate : (constraints, first, stop) ∈ c.gates.zip c.firing)
    (hlo : row + first ≤ r) (hhi : r < row + stop) : Obliges c reserved row r (.gate constraints)
  | lookup {lookup : String × List Expr} {id : Nat} (hlookup : lookup ∈ c.lookups)
    (hid : reserved.get? lookup.1 = some id) (hrow : r = row) : Obliges c reserved row r (.lookup [⟨id, lookup.2⟩])

theorem active_iff_obliges (hids : ∀ lookup ∈ c.lookups, ∃ id, reserved.get? lookup.1 = some id) :
    c.Active row r xs ↔ ∃ ask, c.Obliges reserved row r ask ∧ ask.exprs = xs := by
  constructor
  · intro h
    cases h with
    | gate hgate hlo hhi => exact ⟨_, .gate hgate hlo hhi, rfl⟩
    | lookup hlookup hrow =>
      obtain ⟨id, hid⟩ := hids _ hlookup
      exact ⟨_, .lookup hlookup hid hrow, List.append_nil xs⟩
  · rintro ⟨_, h, hxs⟩
    cases h with
    | gate hgate hlo hhi =>
      subst hxs
      exact .gate hgate hlo hhi
    | lookup hlookup _ hrow =>
      obtain rfl := (List.append_nil _).symm.trans hxs
      exact .lookup hlookup hrow

section Placed
variable (hplace : c.place d input row = .ok (output, placed))
include hplace

theorem exists_id_of_place {lookup : String × List Expr} (hl : lookup ∈ c.lookups) :
    ∃ id, d.system.reserved.get? lookup.1 = some id := by
  obtain ⟨selectors, system, hregister, -⟩ := place_eq_ok hplace
  obtain ⟨tag, id, -, hid, -⟩ := lit_of_lookup hregister hl row
  exact ⟨id, tableId_eq_ok hid⟩

variable (hs : d.system.Tidy)
  (hfresh : ∀ selector row, d.system.nextSelector ≤ selector → d.table.cell .selector selector row = 0)
include hs hfresh

/-- What is asked for after placing was asked for before, or the component asks for it. -/
theorem obliges_place : placed.system.Obliges placed.table r ask ↔
    d.system.Obliges d.table r ask ∨ c.Obliges d.system.reserved row r ask := by
  constructor
  · -- What is on after the placing was on before, or it is of the component.
    rintro ⟨selector, hask, hon⟩
    cases ask with
    | gate constraints =>
      rcases on_gate hplace hs hfresh hask hon with ⟨hold, hon⟩ | ⟨first, stop, hmem, hlo, hhi⟩
      · exact Or.inl ⟨selector, hold, hon⟩
      · exact Or.inr (.gate hmem hlo hhi)
    | lookup queries =>
      rcases on_lookupGate hplace hs hfresh hask hon with ⟨hold, hon⟩ | ⟨hr, lookup, hl, id, hid, hqueries⟩
      · exact Or.inl ⟨selector, hold, hon⟩
      · obtain rfl : queries = _ := hqueries
        exact Or.inr (.lookup hl hid hr)
  · rintro (⟨selector, hask, hon⟩ | h)
    · exact ⟨selector, (grows_place hplace).registers hask, isOn_place hplace hon⟩
    · -- What the component asks for is registered and on; the copies that follow leave it so.
      obtain ⟨selectors, system, hregister, -, -, hwires, -⟩ := place_eq_ok hplace
      have hgrows := (addWires_eq_ok hwires).2
      cases h with
      | gate hgate hlo hhi =>
        obtain ⟨selector, hlit, hg⟩ := lit_of_gate hregister hgate hlo hhi
        exact ⟨selector, hgrows.mem_gates hg, isOn_of_lit hplace hregister hlit⟩
      | lookup hl hid hrow =>
        subst hrow
        obtain ⟨tag, id, hlit, hid', hg⟩ := lit_of_lookup hregister hl r
        obtain rfl := Option.some.inj (hid.symm.trans (tableId_eq_ok hid'))
        exact ⟨tag, hgrows.mem_lookupGates hg, isOn_of_lit hplace hregister hlit⟩

/-- What is on after placing was on before, or the component constrains it. -/
theorem active_place : placed.system.Active placed.table r xs ↔ d.system.Active d.table r xs ∨ c.Active row r xs := by
  rw [System.active_iff_obliges, System.active_iff_obliges, active_iff_obliges fun _ => exists_id_of_place hplace]
  simp only [obliges_place hplace hs hfresh, or_and_right, exists_or]

end Placed

theorem Seated.of_width {t t' : Assignment} (h : c.Seated t input row) (hwidth : ∀ k, t'.width k = t.width k) :
    c.Seated t' input row :=
  ⟨fun i hi => hwidth .witness ▸ h.width i hi, h.rows, h.arity, h.inputs⟩

end Component

namespace Part

def Active (p : Part) (r : Nat) (xs : List Expr) : Prop := p.component.Active p.row r xs

def Obliges (p : Part) (reserved : SortedMap String Nat) (r : Nat) (ask : Ask) : Prop :=
  p.component.Obliges reserved p.row r ask

def Ties (p : Part) (copy : Copy) : Prop := p.component.Ties p.input p.row copy

def Seated (p : Part) (t : Assignment) : Prop := p.component.Seated t p.input p.row

/-- Two parts have no row in common. -/
def Apart (p q : Part) : Prop := p.row + p.component.rows ≤ q.row ∨ q.row + q.component.rows ≤ p.row

end Part

/-- Places parts one after the other. Answers the cells of their results. -/
def Circuit.placeAll (d : Circuit) : List Part → Except Fault (List Variable × Circuit)
  | [] => .ok ([], d)
  | p :: rest => do
    let (cell, d) ← p.component.place d p.input p.row
    let (cells, d) ← d.placeAll rest
    .ok (cell :: cells, d)

/-- A circuit that has the constraints and the copies of some parts, and no others. -/
structure Composed (parts : List Part) (d : Circuit) : Prop where
  tidy : d.system.Tidy
  fresh : ∀ selector row, d.system.nextSelector ≤ selector → d.table.cell .selector selector row = 0
  active : ∀ r xs, d.system.Active d.table r xs ↔ ∃ p ∈ parts, p.Active r xs
  copies : ∀ copy, copy ∈ d.system.copies ↔ ∃ p ∈ parts, p.Ties copy
  seated : ∀ p ∈ parts, p.Seated d.table

variable {c d placed : Circuit} {parts done : List Part} {p : Part}

theorem composed_nil (hbare : c.system.Bare)
    (hfresh : ∀ selector row, c.system.nextSelector ≤ selector → c.table.cell .selector selector row = 0) :
    Composed [] c where
  tidy := hbare.tidy
  fresh := hfresh
  active r xs := by
    refine iff_of_false (fun h => ?_) fun ⟨_, hp, _⟩ => List.not_mem_nil hp
    cases h with
    | gate hg => exact absurd (hbare.gates ▸ hg) List.not_mem_nil
    | lookup hg => exact absurd (hbare.lookupGates ▸ hg) List.not_mem_nil
  copies copy := iff_of_false (fun h => absurd (hbare.copies ▸ h) List.not_mem_nil) fun ⟨_, hp, _⟩ => List.not_mem_nil hp
  seated _ hp := absurd hp List.not_mem_nil

/-- Placing one more part adds what it constrains and ties. -/
theorem Composed.place (h : Composed done d) {cell : Variable}
    (hplace : p.component.place d p.input p.row = .ok (cell, placed)) : Composed (done ++ [p]) placed where
  tidy := tidy_place hplace h.tidy
  fresh := fresh_place hplace h.tidy h.fresh
  active r xs := by
    rw [active_place hplace h.tidy h.fresh, h.active]
    simp [or_and_right, exists_or, Part.Active]
  copies copy := by
    rw [mem_copies_place hplace, h.copies]
    simp [or_and_right, exists_or, Part.Ties]
  seated q hq := by
    rcases List.mem_append.mp hq with hq | hq
    · exact (h.seated q hq).of_width (width_place hplace)
    · obtain rfl := List.mem_singleton.mp hq
      exact (seated_of_place hplace).of_width (width_place hplace)

/-- What placing each part keeps, placing all of them keeps. -/
theorem placeAll_preserves {Q : List Part → Circuit → Prop}
    (step : ∀ {done p d cell placed}, p.component.place d p.input p.row = .ok (cell, placed) → Q done d →
      Q (done ++ [p]) placed) {cells : List Variable} (hrun : d.placeAll parts = .ok (cells, placed)) (h : Q done d) :
    Q (done ++ parts) placed := by
  induction parts generalizing done d cells with
  | nil =>
    obtain ⟨-, rfl⟩ := Prod.mk.inj (Except.ok.inj hrun)
    rwa [List.append_nil]
  | cons p rest ih =>
    obtain ⟨⟨cell, d₁⟩, hplace, hrun⟩ := bind_eq_ok.mp hrun
    obtain ⟨⟨cells₁, d₂⟩, hrest, hrun⟩ := bind_eq_ok.mp hrun
    obtain ⟨-, rfl⟩ := Prod.mk.inj (Except.ok.inj hrun)
    have hall := ih hrest (step hplace h)
    rwa [List.append_assoc, List.singleton_append] at hall

theorem composed_of_placeAll (hbare : c.system.Bare)
    (hfresh : ∀ selector row, c.system.nextSelector ≤ selector → c.table.cell .selector selector row = 0)
    {cells : List Variable} (hrun : c.placeAll parts = .ok (cells, d)) : Composed parts d :=
  placeAll_preserves (fun hplace h => h.place hplace) hrun (composed_nil hbare hfresh)

end Plonkish
