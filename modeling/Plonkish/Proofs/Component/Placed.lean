import Mathlib.Data.List.Forall2
import Plonkish.Component.Place
import Plonkish.Proofs.Expr.Leaves
import Plonkish.Proofs.System

/-! What placing a component leaves behind. Its gates and lookup gates are registered under the selectors
    that it answers, exactly the cells listed by `lit` are turned on, and every wire is a copy between the
    variables of its ends. -/

namespace Plonkish
namespace Component
open Plonkish.System

/-! ### Registering -/

theorem addGates_eq_ok {s t : System} {gates : List (List Expr)} {selectors : List Nat}
    (h : addGates s gates = .ok (selectors, t)) :
    List.Forall₂ (fun constraints selector => ⟨selector, constraints⟩ ∈ t.gates) gates selectors ∧
      Grows s t := by
  induction gates generalizing s selectors with
  | nil =>
    obtain ⟨rfl, rfl⟩ := Prod.mk.inj (Except.ok.inj h)
    exact ⟨.nil, Grows.refl s⟩
  | cons constraints rest ih =>
    obtain ⟨⟨selector, s₁⟩, h₁, h⟩ := bind_eq_ok.mp h
    obtain ⟨⟨selectors₁, s₂⟩, h₂, h⟩ := bind_eq_ok.mp h
    obtain ⟨rfl, rfl⟩ := Prod.mk.inj (Except.ok.inj h)
    obtain ⟨hmem, hg₁⟩ := addGate_eq_ok h₁
    obtain ⟨hall, hg₂⟩ := ih h₂
    exact ⟨.cons (hg₂.mem_gates hmem) hall, hg₁.trans hg₂⟩

theorem addLookups_eq_ok {s t : System} {lookups : List (String × List Expr)} {tags : List Nat}
    (h : addLookups s lookups = .ok (tags, t)) :
    List.Forall₂ (fun lookup tag => ∃ table, s.tableId lookup.1 = .ok table ∧
      ⟨tag, [⟨table, lookup.2⟩]⟩ ∈ t.lookupGates) lookups tags ∧ Grows s t := by
  induction lookups generalizing s tags with
  | nil =>
    obtain ⟨rfl, rfl⟩ := Prod.mk.inj (Except.ok.inj h)
    exact ⟨.nil, Grows.refl s⟩
  | cons lookup rest ih =>
    obtain ⟨table, h₀, h⟩ := bind_eq_ok.mp h
    obtain ⟨⟨tag, s₁⟩, h₁, h⟩ := bind_eq_ok.mp h
    obtain ⟨⟨tags₁, s₂⟩, h₂, h⟩ := bind_eq_ok.mp h
    obtain ⟨rfl, rfl⟩ := Prod.mk.inj (Except.ok.inj h)
    obtain ⟨hmem, hg₁⟩ := addLookupGate_eq_ok h₁
    obtain ⟨hall, hg₂⟩ := ih h₂
    refine ⟨.cons ⟨table, h₀, hg₂.mem_lookupGates hmem⟩ (hall.imp fun l t hl => ?_), hg₁.trans hg₂⟩
    simpa only [tableId, hg₁.reserved] using hl

theorem register_eq_ok {c : Component} {s t : System} {selectors : List Nat}
    (h : c.register s = .ok (selectors, t)) :
    ∃ own tags, selectors = own ++ tags ∧
      List.Forall₂ (fun constraints selector => ⟨selector, constraints⟩ ∈ t.gates) c.gates own ∧
      List.Forall₂ (fun lookup tag => ∃ table, s.tableId lookup.1 = .ok table ∧
        ⟨tag, [⟨table, lookup.2⟩]⟩ ∈ t.lookupGates) c.lookups tags ∧ Grows s t := by
  obtain ⟨⟨own, s₁⟩, h₁, h⟩ := bind_eq_ok.mp h
  obtain ⟨⟨tags, s₂⟩, h₂, h⟩ := bind_eq_ok.mp h
  obtain ⟨rfl, rfl⟩ := Prod.mk.inj (Except.ok.inj h)
  obtain ⟨hgates, hg₁⟩ := addGates_eq_ok h₁
  obtain ⟨hlookups, hg₂⟩ := addLookups_eq_ok h₂
  refine ⟨own, tags, rfl, hgates.imp fun _ _ => hg₂.mem_gates, hlookups.imp fun l t hl => ?_, hg₁.trans hg₂⟩
  simpa only [tableId, hg₁.reserved] using hl

/-! ### Turning on -/

/-- The selector cells that a component turns on when it is placed at a row, given its selectors. -/
def lit (c : Component) (selectors : List Nat) (row : Nat) : List (Nat × Nat) :=
  (selectors.zip c.firing).flatMap fun (selector, first, stop) =>
    (List.range' (row + first) (stop - first)).map (selector, ·)

theorem mem_lit {c : Component} {selectors : List Nat} {row selector r : Nat} :
    (selector, r) ∈ c.lit selectors row ↔
      ∃ first stop, (selector, first, stop) ∈ selectors.zip c.firing ∧ row + first ≤ r ∧ r < row + stop := by
  simp only [lit, List.mem_flatMap, List.mem_map, List.mem_range'_1, Prod.mk.injEq, Prod.exists]
  constructor
  · rintro ⟨_, first, stop, hmem, _, ⟨h₁, h₂⟩, rfl, rfl⟩
    exact ⟨first, stop, hmem, h₁, by omega⟩
  · rintro ⟨first, stop, hmem, h₁, h₂⟩
    exact ⟨selector, first, stop, hmem, r, ⟨h₁, by omega⟩, rfl, rfl⟩

theorem cell_enable {c : Component} {selectors : List Nat} {t t' : Assignment} {row : Nat}
    (h : c.enable selectors t row = .ok t') (k : ColumnKind) (i r : Nat) :
    t'.cell k i r = if k = .selector ∧ (i, r) ∈ c.lit selectors row then 1 else t.cell k i r := by
  unfold enable at h
  unfold lit
  generalize selectors.zip c.firing = fired at h ⊢
  induction fired generalizing t with
  | nil =>
    obtain rfl := Except.ok.inj h
    simp
  | cons e rest ih =>
    obtain ⟨selector, first, stop⟩ := e
    rw [List.foldlM_cons] at h
    obtain ⟨t₁, h₁, h⟩ := bind_eq_ok.mp h
    have hhead : (i, r) ∈ (List.range' (row + first) (stop - first)).map (selector, ·) ↔
        i = selector ∧ row + first ≤ r ∧ r < row + stop := by
      simp only [List.mem_map, List.mem_range'_1, Prod.mk.injEq]
      grind
    rw [ih h, Assignment.cell_enableRange h₁, List.flatMap_cons]
    by_cases hrest : k = .selector ∧ (i, r) ∈ rest.flatMap fun (selector, first, stop) =>
        (List.range' (row + first) (stop - first)).map (selector, ·)
    · rw [if_pos hrest, if_pos ⟨hrest.1, List.mem_append_right _ hrest.2⟩]
    · rw [if_neg hrest]
      by_cases hon : k = .selector ∧ i = selector ∧ row + first ≤ r ∧ r < row + stop
      · rw [if_pos hon, if_pos ⟨hon.1, List.mem_append_left _ (hhead.mpr hon.2)⟩]
      · refine (if_neg hon).trans (if_neg fun hmem => ?_).symm
        rcases List.mem_append.mp hmem.2 with h' | h'
        · exact hon ⟨hmem.1, hhead.mp h'⟩
        · exact hrest ⟨hmem.1, h'⟩

/-! ### Wiring -/

/-- The first wire is added as a copy between the cells of its ends, then the rest. -/
theorem addWires_cons_eq_ok {s t : System} {e : End × End} {rest : List (End × End)}
    (h : addWires s (e :: rest) = .ok t) : ∃ v w s₁, e.1.variable = .ok v ∧ e.2.variable = .ok w ∧
      s.addCopy v w = .ok s₁ ∧ addWires s₁ rest = .ok t := by
  unfold addWires at h
  rw [List.foldlM_cons] at h
  obtain ⟨s₁, h₁, hrest⟩ := bind_eq_ok.mp h
  obtain ⟨v, hv, h₁⟩ := bind_eq_ok.mp h₁
  obtain ⟨w, hw, hcopy⟩ := bind_eq_ok.mp h₁
  exact ⟨v, w, s₁, hv, hw, hcopy, hrest⟩

theorem addWires_eq_ok {s t : System} {wires : List (End × End)} (h : addWires s wires = .ok t) :
    (∀ e ∈ wires, ∃ v w, e.1.variable = .ok v ∧ e.2.variable = .ok w ∧ ⟨v, w⟩ ∈ t.copies) ∧ Grows s t := by
  induction wires generalizing s with
  | nil =>
    obtain rfl := Except.ok.inj h
    exact ⟨fun _ he => absurd he List.not_mem_nil, Grows.refl s⟩
  | cons e rest ih =>
    obtain ⟨v, w, s₁, hv, hw, hcopy, hrest⟩ := addWires_cons_eq_ok h
    obtain ⟨hmem, hg₁⟩ := addCopy_eq_ok hcopy
    obtain ⟨hall, hg₂⟩ := ih hrest
    refine ⟨fun e' he' => ?_, hg₁.trans hg₂⟩
    rcases List.mem_cons.mp he' with rfl | he'
    · exact ⟨v, w, hv, hw, hg₂.mem_copies hmem⟩
    · exact hall e' he'

/-! ### What a component reads -/

section Shape
variable {c : Component}

/-- The constraints of a component are about its own columns, in the row of the gate. -/
theorem operand_of_gates {constraints : List Expr} (hc : constraints ∈ c.gates) {x : Expr} (hx : x ∈ constraints)
    {v : Variable} (hv : v ∈ x.leaves) : ∃ i ∈ c.columns, v = .witness i 0 := by
  cases c <;> simp only [gates, List.mem_cons, List.not_mem_nil, or_false] at hc
  case runningSum w terms pos =>
    rcases hc with rfl | rfl <;> obtain rfl := List.mem_singleton.mp hx <;>
      simp only [operand, Expr.leaves, List.mem_append, List.mem_singleton] at hv <;> grind [columns, Trio.toList]
  all_goals
    subst hc
    obtain rfl := List.mem_singleton.mp hx
    simp only [operand, Expr.leaves, List.mem_append, List.mem_singleton] at hv
    grind [columns, Trio.toList]

theorem operand_of_lookups {lookup : String × List Expr} (hl : lookup ∈ c.lookups) {x : Expr} (hx : x ∈ lookup.2)
    {v : Variable} (hv : v ∈ x.leaves) : ∃ i ∈ c.columns, v = .witness i 0 := by
  cases c <;> simp only [lookups, List.mem_cons, List.not_mem_nil, or_false] at hl <;> subst hl
  case xor w =>
    obtain ⟨i, hi, rfl⟩ := List.mem_map.mp hx
    exact ⟨i, hi, List.mem_singleton.mp hv⟩
  case rangeCheck column table =>
    obtain rfl := List.mem_singleton.mp hx
    exact ⟨column, List.mem_singleton_self _, List.mem_singleton.mp hv⟩

/-- The gates of a component are on in its rows only. -/
theorem stop_le_rows {first stop : Nat} (h : (first, stop) ∈ c.firing) : stop ≤ c.rows := by
  cases c <;> simp only [firing, List.mem_cons, List.not_mem_nil, or_false, Prod.mk.injEq] at h
  case runningSum w terms pos =>
    rcases h with ⟨-, rfl⟩ | ⟨-, rfl⟩
    · exact pos
    · exact Nat.le_refl _
  all_goals exact Nat.le_of_eq h.2

/-- A component with a lookup has no gates, and one row. -/
theorem single_of_lookups {lookup : String × List Expr} (hl : lookup ∈ c.lookups) :
    c.gates = [] ∧ c.firing = [(0, 1)] ∧ c.lookups = [lookup] := by
  cases c <;> simp only [lookups, List.mem_cons, List.not_mem_nil, or_false] at hl <;> subst hl <;> exact ⟨rfl, rfl, rfl⟩

/-- Every row at which a placed component turns a selector on is one of a gate or of a lookup of it. -/
theorem fired_of_lit {s t : System} {selectors : List Nat} (h : c.register s = .ok (selectors, t)) {row selector r : Nat}
    (hlit : (selector, r) ∈ c.lit selectors row) :
    (∃ constraints first stop, (constraints, first, stop) ∈ c.gates.zip c.firing ∧ row + first ≤ r ∧ r < row + stop ∧
      ⟨selector, constraints⟩ ∈ t.gates) ∨
    ∃ lookup ∈ c.lookups, ∃ id, t.tableId lookup.1 = .ok id ∧ ⟨selector, [⟨id, lookup.2⟩]⟩ ∈ t.lookupGates ∧
      r = row := by
  obtain ⟨own, tags, rfl, hgates, hlookups, hgrows⟩ := register_eq_ok h
  obtain ⟨first, stop, hmem, hlo, hhi⟩ := mem_lit.mp hlit
  obtain ⟨j, hj⟩ := List.mem_iff_getElem?.mp hmem
  obtain ⟨hselector, hfiring⟩ := List.getElem?_zip_eq_some.mp hj
  -- The selectors of the gates come before the tags of the lookups.
  by_cases hown : j < own.length
  · rw [List.getElem?_append_left hown, List.getElem?_eq_getElem hown] at hselector
    obtain rfl := Option.some.inj hselector
    have hgate : j < c.gates.length := hgates.length_eq ▸ hown
    refine Or.inl ⟨c.gates[j], first, stop, ?_, hlo, hhi, hgates.get hgate hown⟩
    exact List.mem_of_getElem? (List.getElem?_zip_eq_some.mpr ⟨List.getElem?_eq_getElem hgate, hfiring⟩)
  · rw [List.getElem?_append_right (Nat.le_of_not_lt hown)] at hselector
    obtain ⟨htag, rfl⟩ := List.getElem?_eq_some_iff.mp hselector
    have hlookup : j - own.length < c.lookups.length := hlookups.length_eq ▸ htag
    obtain ⟨id, hid, hgate⟩ := hlookups.get hlookup htag
    obtain ⟨-, hsingle, -⟩ := single_of_lookups (List.getElem_mem hlookup)
    rw [hsingle] at hfiring
    obtain ⟨rfl, rfl⟩ := Prod.mk.inj (List.mem_singleton.mp (List.mem_of_getElem? hfiring))
    refine Or.inr ⟨_, List.getElem_mem hlookup, id, ?_, hgate, by omega⟩
    simpa only [tableId, hgrows.reserved, List.get_eq_getElem] using hid

/-- The selector of a gate of a component is turned on in the rows of that gate. -/
theorem lit_of_gate {s t : System} {selectors : List Nat} (h : c.register s = .ok (selectors, t))
    {constraints : List Expr} {first stop : Nat} (hmem : (constraints, first, stop) ∈ c.gates.zip c.firing) {row r : Nat}
    (hlo : row + first ≤ r) (hhi : r < row + stop) :
    ∃ selector, (selector, r) ∈ c.lit selectors row ∧ ⟨selector, constraints⟩ ∈ t.gates := by
  obtain ⟨own, tags, rfl, hgates, -, -⟩ := register_eq_ok h
  obtain ⟨i, hzip⟩ := List.mem_iff_getElem?.mp hmem
  obtain ⟨hgate, hfiring⟩ := List.getElem?_zip_eq_some.mp hzip
  obtain ⟨hi, rfl⟩ := List.getElem?_eq_some_iff.mp hgate
  have hi' : i < own.length := hgates.length_eq ▸ hi
  have hselector : (own ++ tags)[i]? = some own[i] := by
    rw [List.getElem?_append_left hi', List.getElem?_eq_getElem hi']
  have hzip : ((own ++ tags).zip c.firing)[i]? = some (own[i], first, stop) :=
    List.getElem?_zip_eq_some.mpr ⟨hselector, hfiring⟩
  exact ⟨own[i], mem_lit.mpr ⟨first, stop, List.mem_of_getElem? hzip, hlo, hhi⟩, hgates.get hi hi'⟩

/-- The tag of a lookup of a component is turned on in its row. -/
theorem lit_of_lookup {s t : System} {selectors : List Nat} (h : c.register s = .ok (selectors, t))
    {lookup : String × List Expr} (hl : lookup ∈ c.lookups) (row : Nat) :
    ∃ tag id, (tag, row) ∈ c.lit selectors row ∧ s.tableId lookup.1 = .ok id ∧
      ⟨tag, [⟨id, lookup.2⟩]⟩ ∈ t.lookupGates := by
  obtain ⟨own, tags, rfl, hgates, hlookups, -⟩ := register_eq_ok h
  obtain ⟨hnone, hfiring, hsingle⟩ := single_of_lookups hl
  rw [hnone] at hgates
  rw [hsingle] at hlookups
  obtain rfl := List.forall₂_nil_left_iff.mp hgates
  obtain ⟨tag, tags, ⟨id, hid, hgate⟩, -, rfl⟩ := List.forall₂_cons_left_iff.mp hlookups
  refine ⟨tag, id, mem_lit.mpr ⟨0, 1, ?_, Nat.le_refl _, Nat.lt_succ_self _⟩, hid, hgate⟩
  rw [hfiring]
  exact List.mem_cons_self

end Shape

/-! ### Placing -/

theorem length_of_checkInput {w : Trio} {terms : Nat} {pos : 0 < terms} {values : List Variable}
    (h : (runningSum w terms pos).checkInput values = .ok ()) : values.length = terms := by
  simp only [checkInput] at h
  split at h
  · assumption
  · cases h

/-- The parts of placing a component, in the order in which they run. -/
theorem place_eq_ok {c : Component} {circuit placed : Circuit} {input : c.Input} {row : Nat} {output : Variable}
    (h : c.place circuit input row = .ok (output, placed)) :
    ∃ selectors system, c.register circuit.system = .ok (selectors, system) ∧
      c.enable selectors circuit.table row = .ok placed.table ∧ c.checkInput input = .ok () ∧
      addWires system (c.wires input row) = .ok placed.system ∧ c.output row = .ok output := by
  unfold place at h
  split at h
  · obtain ⟨⟨selectors, fired⟩, hfire, h⟩ := bind_eq_ok.mp h
    obtain ⟨system, hwire, h⟩ := bind_eq_ok.mp h
    obtain ⟨out, hout, h⟩ := bind_eq_ok.mp h
    obtain ⟨rfl, rfl⟩ := Prod.mk.inj (Except.ok.inj h)
    obtain ⟨⟨selectors', system'⟩, hregister, hfire⟩ := bind_eq_ok.mp hfire
    obtain ⟨table, henable, hfire⟩ := bind_eq_ok.mp hfire
    obtain ⟨rfl, rfl⟩ := Prod.mk.inj (Except.ok.inj hfire)
    obtain ⟨⟨⟩, hcheck, hwire⟩ := bind_eq_ok.mp hwire
    exact ⟨selectors', system', hregister, henable, hcheck, hwire, hout⟩
  · cases h

/-- Placing a component turns its lit cells on, and changes no other cell of the table. -/
theorem cell_place {c : Component} {circuit placed : Circuit} {input : c.Input} {row : Nat} {output : Variable}
    (h : c.place circuit input row = .ok (output, placed)) {selectors : List Nat} {system : System}
    (hregister : c.register circuit.system = .ok (selectors, system)) (k : ColumnKind) (i r : Nat) :
    placed.table.cell k i r =
      if k = .selector ∧ (i, r) ∈ c.lit selectors row then 1 else circuit.table.cell k i r := by
  obtain ⟨selectors', system', hregister', henable, -⟩ := place_eq_ok h
  obtain ⟨rfl, rfl⟩ := Prod.mk.inj (Except.ok.inj (hregister.symm.trans hregister'))
  exact cell_enable henable k i r

/-! ### What placing keeps -/

section Kept
variable {c : Component} {s t : System} {selectors : List Nat}

theorem addGates_preserves {gates : List (List Expr)} (Q : System → Prop)
    (gate : ∀ {s t constraints selector}, constraints ∈ gates → s.addGate constraints = .ok (selector, t) → Q s → Q t)
    (h : addGates s gates = .ok (selectors, t)) (hq : Q s) : Q t := by
  induction gates generalizing s selectors with
  | nil =>
    obtain ⟨-, rfl⟩ := Prod.mk.inj (Except.ok.inj h)
    exact hq
  | cons constraints rest ih =>
    obtain ⟨⟨selector, s₁⟩, hgate, h⟩ := bind_eq_ok.mp h
    obtain ⟨⟨own, s₂⟩, hrest, h⟩ := bind_eq_ok.mp h
    obtain ⟨-, rfl⟩ := Prod.mk.inj (Except.ok.inj h)
    exact ih (fun hc => gate (List.mem_cons_of_mem _ hc)) hrest (gate List.mem_cons_self hgate hq)

theorem addLookups_preserves {lookups : List (String × List Expr)} {tags : List Nat} (Q : System → Prop)
    (lookup : ∀ {s t lookup id tag}, lookup ∈ lookups → s.tableId lookup.1 = .ok id →
      s.addLookupGate [⟨id, lookup.2⟩] = .ok (tag, t) → Q s → Q t)
    (h : addLookups s lookups = .ok (tags, t)) (hq : Q s) : Q t := by
  induction lookups generalizing s tags with
  | nil =>
    obtain ⟨-, rfl⟩ := Prod.mk.inj (Except.ok.inj h)
    exact hq
  | cons e rest ih =>
    obtain ⟨id, hid, h⟩ := bind_eq_ok.mp h
    obtain ⟨⟨tag, s₁⟩, hgate, h⟩ := bind_eq_ok.mp h
    obtain ⟨⟨own, s₂⟩, hrest, h⟩ := bind_eq_ok.mp h
    obtain ⟨-, rfl⟩ := Prod.mk.inj (Except.ok.inj h)
    exact ih (fun hl => lookup (List.mem_cons_of_mem _ hl)) hrest (lookup List.mem_cons_self hid hgate hq)

/-- What registering a gate or a lookup gate of a component keeps, registering all of them keeps. -/
theorem register_preserves (Q : System → Prop)
    (gate : ∀ {s t constraints selector}, constraints ∈ c.gates → s.addGate constraints = .ok (selector, t) → Q s → Q t)
    (lookup : ∀ {s t lookup id tag}, lookup ∈ c.lookups → s.tableId lookup.1 = .ok id →
      s.addLookupGate [⟨id, lookup.2⟩] = .ok (tag, t) → Q s → Q t)
    (h : c.register s = .ok (selectors, t)) (hq : Q s) : Q t := by
  obtain ⟨⟨own, s₁⟩, hgates, h⟩ := bind_eq_ok.mp h
  obtain ⟨⟨tags, s₂⟩, hlookups, h⟩ := bind_eq_ok.mp h
  obtain ⟨-, rfl⟩ := Prod.mk.inj (Except.ok.inj h)
  exact addLookups_preserves Q lookup hlookups (addGates_preserves Q gate hgates hq)

theorem tableId_eq_ok {name : String} {id : Nat} (h : s.tableId name = .ok id) : s.reserved.get? name = some id := by
  unfold tableId at h
  split at h
  · rename_i id' hid
    obtain rfl := Except.ok.inj h
    exact hid
  · cases h

theorem counted_register {base : Nat} (h : c.register s = .ok (selectors, t)) (hs : s.Counted base) : t.Counted base :=
  register_preserves (Counted base) (fun _ ht hq => hq.addGate ht) (fun _ _ ht hq => hq.addLookupGate ht) h hs

/-- What registering a component adds is among the gates and lookups that contain its own. -/
theorem adds_register {s₀ : System} {gates : List (List Expr)} {lookups : List (String × List Expr)}
    {ties : Copy → Prop} (h : c.register s = .ok (selectors, t)) (hgates : c.gates ⊆ gates)
    (hlookups : c.lookups ⊆ lookups) (hs : s₀.Adds s gates lookups ties) : s₀.Adds t gates lookups ties :=
  register_preserves (s₀.Adds · gates lookups ties) (fun hc ht hq => hq.addGate (hgates hc) ht)
    (fun hl hid ht hq => hq.addLookupGate (hlookups hl) (hq.reserved ▸ tableId_eq_ok hid) ht) h hs

/-- The copies that a component makes. -/
def Ties (c : Component) (input : c.Input) (row : Nat) (copy : Copy) : Prop :=
  ∃ e ∈ c.wires input row, e.1.variable = .ok copy.first ∧ e.2.variable = .ok copy.second

theorem addWires_preserves {wires : List (End × End)} (Q : System → Prop)
    (copy : ∀ {s t e v w}, e ∈ wires → e.1.variable = .ok v → e.2.variable = .ok w → s.addCopy v w = .ok t → Q s → Q t)
    (h : addWires s wires = .ok t) (hq : Q s) : Q t := by
  induction wires generalizing s with
  | nil =>
    obtain rfl := Except.ok.inj h
    exact hq
  | cons e rest ih =>
    obtain ⟨v, w, s₁, hv, hw, hcopy, hrest⟩ := addWires_cons_eq_ok h
    exact ih (fun he => copy (List.mem_cons_of_mem _ he)) hrest (copy List.mem_cons_self hv hw hcopy hq)

variable {circuit placed : Circuit} {input : c.Input} {row : Nat} {output : Variable}

/-- What every change of the system that a component makes keeps, placing it keeps. -/
theorem place_preserves (Q : System → Prop)
    (gate : ∀ {s t constraints selector}, constraints ∈ c.gates → s.addGate constraints = .ok (selector, t) → Q s → Q t)
    (lookup : ∀ {s t lookup id tag}, lookup ∈ c.lookups → s.tableId lookup.1 = .ok id →
      s.addLookupGate [⟨id, lookup.2⟩] = .ok (tag, t) → Q s → Q t)
    (copy : ∀ {s t v w}, c.Ties input row ⟨v, w⟩ → s.addCopy v w = .ok t → Q s → Q t)
    (h : c.place circuit input row = .ok (output, placed)) (hq : Q circuit.system) : Q placed.system := by
  obtain ⟨selectors, system, hregister, -, -, hwires, -⟩ := place_eq_ok h
  exact addWires_preserves Q (fun he hv hw => copy ⟨_, he, hv, hw⟩) hwires (register_preserves Q gate lookup hregister hq)

theorem grows_place (h : c.place circuit input row = .ok (output, placed)) : Grows circuit.system placed.system := by
  obtain ⟨selectors, system, hregister, -, -, hwires, -⟩ := place_eq_ok h
  obtain ⟨-, -, -, -, -, hgrows⟩ := register_eq_ok hregister
  exact hgrows.trans (addWires_eq_ok hwires).2

theorem tidy_place (h : c.place circuit input row = .ok (output, placed)) (hs : circuit.system.Tidy) :
    placed.system.Tidy :=
  place_preserves Tidy (fun _ ht hq => hq.addGate ht) (fun _ _ ht hq => hq.addLookupGate ht)
    (fun _ ht hq => hq.addCopy ht) h hs

theorem counted_place {base : Nat} (h : c.place circuit input row = .ok (output, placed))
    (hs : circuit.system.Counted base) : placed.system.Counted base :=
  place_preserves (Counted base) (fun _ ht hq => hq.addGate ht) (fun _ _ ht hq => hq.addLookupGate ht)
    (fun _ ht hq => hq.addCopy ht) h hs

/-- What placing a component adds to a system is its own. -/
theorem adds_place (h : c.place circuit input row = .ok (output, placed)) :
    Adds circuit.system placed.system c.gates c.lookups (c.Ties input row) :=
  place_preserves (Adds circuit.system · c.gates c.lookups (c.Ties input row)) (fun hc ht hq => hq.addGate hc ht)
    (fun hl hid ht hq => hq.addLookupGate hl (hq.reserved ▸ tableId_eq_ok hid) ht)
    (fun htie ht hq => hq.addCopy htie ht) h (.refl ..)

/-- The copies after placing are those from before and those of the component. -/
theorem mem_copies_place (h : c.place circuit input row = .ok (output, placed)) {copy : Copy} :
    copy ∈ placed.system.copies ↔ copy ∈ circuit.system.copies ∨ c.Ties input row copy := by
  refine ⟨(adds_place h).copies copy, ?_⟩
  rintro (hold | ⟨e, he, hfirst, hsecond⟩)
  · exact (grows_place h).mem_copies hold
  · obtain ⟨_, _, -, -, -, hwires, -⟩ := place_eq_ok h
    obtain ⟨v, w, hv, hw, hmem⟩ := (addWires_eq_ok hwires).1 e he
    rwa [Except.ok.inj (hv.symm.trans hfirst), Except.ok.inj (hw.symm.trans hsecond)] at hmem

end Kept

end Component
end Plonkish
