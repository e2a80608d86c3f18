import Mathlib
import Plonkish.Proofs.Component.Surroundings
import Plonkish.Proofs.Obligations
import Plonkish.Proofs.Zone.Window

/-! Parts that are placed in another order. Selectors are handed out as gates turn up, so another order gives the gates
    other selectors and lists them, and the copies, in another order. But what is asked for in each row and what is
    copied is told by the parts alone (`Arranged`), and there is one selector for each different thing that is asked
    for. So in any order the parts use up as many selectors, every window is judged alike, and the circuits are
    satisfied alike (`placeAll_perm`). This needs the registered tables to be the same in the end. Packed tables are
    (`settled_of_pack`), since their selectors were handed out before. A table under a selector that is yet to be
    handed out lists what the order makes of it (`unsatisfied_of_other_order`). -/

namespace Plonkish
open Component

variable {s s' : System} {gates gates' : List (List Expr)} {lookups lookups' : List (String × List Expr)}
  {reserved : SortedMap String Nat} {ask : Ask} {selector r : Nat}

/-! ### What is registered -/

/-- One of some gates, or a lookup gate for one of some lookups in the table that has its name. -/
inductive Ask.Among (gates : List (List Expr)) (lookups : List (String × List Expr))
    (reserved : SortedMap String Nat) : Ask → Prop where
  | gate {constraints : List Expr} (h : constraints ∈ gates) : Among gates lookups reserved (.gate constraints)
  | lookup {lookup : String × List Expr} {id : Nat} (h : lookup ∈ lookups) (hid : reserved.get? lookup.1 = some id) :
    Among gates lookups reserved (.lookup [⟨id, lookup.2⟩])

theorem Ask.Among.mono (h : ask.Among gates lookups reserved) (hgates : gates ⊆ gates')
    (hlookups : lookups ⊆ lookups') : ask.Among gates' lookups' reserved := by
  cases h with
  | gate h => exact .gate (hgates h)
  | lookup h hid => exact .lookup (hlookups h) hid

theorem Ask.among_append : ask.Among (gates ++ gates') (lookups ++ lookups') reserved ↔
    ask.Among gates lookups reserved ∨ ask.Among gates' lookups' reserved := by
  constructor
  · intro h
    cases h with
    | gate h => exact (List.mem_append.mp h).imp .gate .gate
    | lookup h hid => exact (List.mem_append.mp h).imp (.lookup · hid) (.lookup · hid)
  · rintro (h | h)
    · exact h.mono (List.subset_append_left ..) (List.subset_append_left ..)
    · exact h.mono (List.subset_append_right ..) (List.subset_append_right ..)

namespace System

/-- From a bare system on only what is to be added is registered, under selectors that are handed out on the way. -/
theorem Adds.among_of_bare {ties : Copy → Prop} (h : Adds s s' gates lookups ties) (hbare : s.Bare)
    (hask : s'.Registers selector ask) : s.nextSelector ≤ selector ∧ ask.Among gates lookups s.reserved := by
  cases ask with
  | gate constraints =>
    obtain ⟨hnew, hmem⟩ := (h.gates _ hask).resolve_left fun hold => absurd (hbare.gates ▸ hold) List.not_mem_nil
    exact ⟨hnew, .gate hmem⟩
  | lookup queries =>
    obtain ⟨hnew, lookup, hl, id, hid, hqueries⟩ :=
      (h.lookups _ hask).resolve_left fun hold => absurd (hbare.lookupGates ▸ hold) List.not_mem_nil
    obtain rfl : queries = _ := hqueries
    exact ⟨hnew, .lookup hl hid⟩

/-- A system that registers less has used up fewer selectors. -/
theorem Counted.next_le_of_registers {base : Nat} (h : s.Counted base) (h' : s'.Counted base)
    (hsub : ∀ selector ask, s.Registers selector ask → ∃ selector', s'.Registers selector' ask) :
    s.nextSelector ≤ s'.nextSelector := by
  have hgates : s.gates.map Gate.constraints ⊆ s'.gates.map Gate.constraints := by
    intro constraints hmem
    obtain ⟨g, hg, rfl⟩ := List.mem_map.mp hmem
    obtain ⟨selector', hg'⟩ := hsub g.selector (.gate g.constraints) hg
    exact List.mem_map.mpr ⟨_, hg', rfl⟩
  have hlookups : s.lookupGates.map LookupGate.queries ⊆ s'.lookupGates.map LookupGate.queries := by
    intro queries hmem
    obtain ⟨g, hg, rfl⟩ := List.mem_map.mp hmem
    obtain ⟨tag', hg'⟩ := hsub g.tag (.lookup g.queries) hg
    exact List.mem_map.mpr ⟨_, hg', rfl⟩
  have hcount := (List.subperm_of_subset h.gates hgates).length_le
  have hcount' := (List.subperm_of_subset h.lookups hlookups).length_le
  have hnext := h.next
  have hnext' := h'.next
  simp only [List.length_map] at hcount hcount'
  omega

end System

/-! ### Placing one part -/

namespace Component
open Plonkish.System
variable {c : Component} {d placed : Circuit} {input : c.Input} {row : Nat} {output : Variable}

/-- All gates and lookups of a component that was placed are registered. -/
theorem exists_registers_of_place (hplace : c.place d input row = .ok (output, placed))
    (h : ask.Among c.gates c.lookups d.system.reserved) : ∃ selector, placed.system.Registers selector ask := by
  obtain ⟨selectors, system, hregister, -, -, hwires, -⟩ := place_eq_ok hplace
  have hgrows := (addWires_eq_ok hwires).2
  cases h with
  | gate hmem =>
    obtain ⟨own, -, -, hgates, -⟩ := register_eq_ok hregister
    obtain ⟨i, hi, rfl⟩ := List.mem_iff_getElem.mp hmem
    exact ⟨_, hgrows.mem_gates (hgates.get hi (hgates.length_eq ▸ hi))⟩
  | lookup hl hid =>
    obtain ⟨tag, id, -, hid', hg⟩ := lit_of_lookup hregister hl row
    obtain rfl := Option.some.inj (hid.symm.trans (tableId_eq_ok hid'))
    exact ⟨tag, hgrows.mem_lookupGates hg⟩

end Component

/-! ### Placing all parts -/

variable {c d d' placed : Circuit} {parts parts' done : List Part} {p : Part} {cells : List Variable}

theorem gatesOf_subset (h : parts ⊆ parts') : gatesOf parts ⊆ gatesOf parts' := by
  intro constraints hmem
  obtain ⟨p, hp, hmem⟩ := List.mem_flatMap.mp hmem
  exact gates_subset (h hp) hmem

theorem lookupsOf_subset (h : parts ⊆ parts') : lookupsOf parts ⊆ lookupsOf parts' := by
  intro lookup hmem
  obtain ⟨p, hp, hmem⟩ := List.mem_flatMap.mp hmem
  exact lookups_subset (h hp) hmem

theorem gatesOf_concat : gatesOf (done ++ [p]) = gatesOf done ++ p.component.gates := by
  simp [gatesOf]

theorem lookupsOf_concat : lookupsOf (done ++ [p]) = lookupsOf done ++ p.component.lookups := by
  simp [lookupsOf]

/-- A circuit in which parts were placed from a bare circuit `c` on, as far as the parts tell, whatever their order. -/
structure Arranged (c : Circuit) (done : List Part) (d : Circuit) : Prop extends Composed done d where
  counted : d.system.Counted c.system.nextSelector
  adds : c.system.Adds d.system (gatesOf done) (lookupsOf done) fun _ => True
  registers : ∀ ask, ask.Among (gatesOf done) (lookupsOf done) c.system.reserved →
    ∃ selector, d.system.Registers selector ask
  ids : ∀ lookup ∈ lookupsOf done, ∃ id, c.system.reserved.get? lookup.1 = some id
  obliges : ∀ r ask, d.system.Obliges d.table r ask ↔ ∃ p ∈ done, p.Obliges c.system.reserved r ask
  /-- Selectors that were handed out before mark what they did. -/
  marks : ∀ selector r, selector < c.system.nextSelector →
    d.table.cell .selector selector r = c.table.cell .selector selector r
  width (kind : ColumnKind) : d.table.width kind = c.table.width kind

theorem arranged_nil (hbare : c.system.Bare)
    (hfresh : ∀ selector row, c.system.nextSelector ≤ selector → c.table.cell .selector selector row = 0) :
    Arranged c [] c where
  toComposed := composed_nil hbare hfresh
  counted := .of_bare hbare
  adds := .refl ..
  registers ask h := by
    cases h with
    | gate h => exact absurd h List.not_mem_nil
    | lookup h => exact absurd h List.not_mem_nil
  ids _ h := absurd h List.not_mem_nil
  obliges r ask := by
    refine iff_of_false (fun ⟨selector, hask, _⟩ => ?_) fun ⟨_, hp, _⟩ => List.not_mem_nil hp
    exact System.not_registers hbare.gates hbare.lookupGates hask
  marks _ _ _ := rfl
  width _ := rfl

namespace Arranged

theorem place (h : Arranged c done d) (hbare : c.system.Bare) {cell : Variable}
    (hplace : p.component.place d p.input p.row = .ok (cell, placed)) : Arranged c (done ++ [p]) placed := by
  have hreserved := h.adds.reserved
  have hadds : c.system.Adds placed.system (gatesOf (done ++ [p])) (lookupsOf (done ++ [p])) fun _ => True := by
    rw [gatesOf_concat, lookupsOf_concat]
    refine (h.adds.mono ?_ ?_ fun _ hc => hc).trans ((adds_place hplace).mono ?_ ?_ fun _ _ => trivial)
    · exact List.subset_append_left ..
    · exact List.subset_append_left ..
    · exact List.subset_append_right ..
    · exact List.subset_append_right ..
  refine {
    toComposed := h.toComposed.place hplace
    counted := counted_place hplace h.counted
    adds := hadds
    registers := fun ask hask => ?_
    ids := fun lookup hl => ?_
    obliges := fun r ask => ?_
    marks := fun selector r hlt => ?_
    width := fun kind => (width_place hplace kind).trans (h.width kind) }
  · -- What was registered stays, and the part registers the rest.
    rw [gatesOf_concat, lookupsOf_concat, Ask.among_append] at hask
    rcases hask with hask | hask
    · exact (h.registers ask hask).imp fun _ => (grows_place hplace).registers
    · exact exists_registers_of_place hplace (hreserved ▸ hask)
  · rw [lookupsOf_concat] at hl
    rcases List.mem_append.mp hl with hl | hl
    · exact h.ids lookup hl
    · exact hreserved ▸ exists_id_of_place hplace hl
  · rw [obliges_place hplace h.tidy h.fresh, h.obliges, hreserved]
    simp [or_and_right, exists_or, Part.Obliges]
  · -- What is turned on is registered, and so it has a selector that is handed out later.
    have hnew : ∀ ask, placed.system.Registers selector ask → c.system.nextSelector ≤ selector :=
      fun _ hask => (hadds.among_of_bare hbare hask).1
    obtain ⟨selectors, system, hregister, -⟩ := place_eq_ok hplace
    rw [cell_place hplace hregister, if_neg, h.marks selector r hlt]
    rintro ⟨-, hlit⟩
    rcases fired_of_place hplace hregister hlit with ⟨constraints, -, -, -, -, -, hg⟩ | ⟨lookup, -, id, -, hg, -⟩
    · exact Nat.not_le.mpr hlt (hnew (.gate constraints) hg)
    · exact Nat.not_le.mpr hlt (hnew (.lookup [⟨id, lookup.2⟩]) hg)

/-- A run over parts that are seated and whose lookups have ids succeeds, if there is a column for every selector of a
    system that registers what they ask for. -/
theorem exists_placeAll (h : Arranged c done d) (hbare : c.system.Bare) (hseated : ∀ p ∈ parts, p.Seated c.table)
    (hids : ∀ lookup ∈ lookupsOf parts, ∃ id, c.system.reserved.get? lookup.1 = some id)
    (hcounted : s.Counted c.system.nextSelector)
    (hknown : ∀ ask, ask.Among (gatesOf (done ++ parts)) (lookupsOf (done ++ parts)) c.system.reserved →
      ∃ selector, s.Registers selector ask) (hroom : s.nextSelector ≤ c.table.width .selector) :
    ∃ cells d', d.placeAll parts = .ok (cells, d') := by
  induction parts generalizing done d with
  | nil => exact ⟨[], d, rfl⟩
  | cons p rest ih =>
    obtain ⟨hp, hseated⟩ := List.forall_mem_cons.mp hseated
    have hmem : p ∈ done ++ p :: rest := List.mem_append_right _ List.mem_cons_self
    have hroom : ∀ selectors system, p.component.register d.system = .ok (selectors, system) →
        system.nextSelector ≤ d.table.width .selector := by
      intro selectors system hregister
      have hadds := adds_register hregister (gates_subset hmem) (lookups_subset hmem) (h.adds.mono
        (gatesOf_subset (List.subset_append_left ..)) (lookupsOf_subset (List.subset_append_left ..)) fun _ hc => hc)
      -- No more is registered so far than in the end, and in the end there is room.
      have hle : system.nextSelector ≤ s.nextSelector := (counted_register hregister h.counted).next_le_of_registers
        hcounted fun _ ask hask => hknown ask (hadds.among_of_bare hbare hask).2
      rw [h.width]
      exact Nat.le_trans hle hroom
    obtain ⟨placed, hplace⟩ := exists_place h.tidy (hp.of_width h.width)
      (fun lookup hl => h.adds.reserved ▸ hids lookup (List.mem_append_left _ hl)) hroom
    obtain ⟨cells, d', hrest⟩ := ih (h.place hbare hplace) hseated
      (fun lookup hl => hids lookup (List.mem_append_right _ hl)) (by rwa [List.append_assoc, List.singleton_append])
    exact ⟨_, d', bind_eq_ok.mpr ⟨_, hplace, bind_eq_ok.mpr ⟨_, hrest, rfl⟩⟩⟩

end Arranged

theorem arranged_of_placeAll (hbare : c.system.Bare)
    (hfresh : ∀ selector row, c.system.nextSelector ≤ selector → c.table.cell .selector selector row = 0)
    (hrun : c.placeAll parts = .ok (cells, d)) : Arranged c parts d :=
  placeAll_preserves (fun hplace h => h.place hbare hplace) hrun (arranged_nil hbare hfresh)

/-! ### Registered tables -/

/-- A table names no selector from `first` to before `stop`: none marks its rows, and none is read for its tuples. -/
structure Target.Avoids (target : Target) (first stop : Nat) : Prop where
  tag : target.tag < first ∨ stop ≤ target.tag
  options : ∀ option ∈ target.options, ∀ v ∈ option, v.kind = .selector → v.index < first ∨ stop ≤ v.index

/-- A table that is marked by a selector below `next` and lists constants. -/
structure Target.Settled (target : Target) (next : Nat) : Prop where
  tag : target.tag < next
  options : ∀ option ∈ target.options, ∀ v ∈ option, v.kind = .constant

theorem Target.Settled.avoids {target : Target} {next : Nat} (h : target.Settled next) (stop : Nat) :
    target.Avoids next stop :=
  ⟨Or.inl h.tag, fun option ho v hv hk => nomatch (h.options option ho v hv).symm.trans hk⟩

theorem Target.Settled.mono {target : Target} {next next' : Nat} (h : target.Settled next) (hle : next ≤ next') :
    target.Settled next' :=
  ⟨Nat.lt_of_lt_of_le h.tag hle, h.options⟩

/-- Packing marks its tables by selectors that it hands out. -/
theorem settled_of_pack {l : Lookup.Catalogue} {packing : Lookup.Packing} {packed : Circuit} {columns : List Nat}
    {usable n : Nat} (hl : l.Built) (hnodup : columns.Nodup)
    (hpack : l.pack packing c columns usable = .ok (packed, .ok n))
    (hbefore : ∀ id target, c.system.targets.get? id = some target → target.Settled c.system.nextSelector) :
    ∀ id target, packed.system.targets.get? id = some target → target.Settled packed.system.nextSelector := by
  obtain ⟨ranges, hchanges⟩ := Lookup.Catalogue.pack_eq_ok hl.sound hnodup hpack
  refine (hchanges.preserves (fun c ranges => (∀ e ∈ ranges, e.2 < c.system.nextSelector) ∧
    ∀ id target, c.system.targets.get? id = some target → target.Settled c.system.nextSelector) (fun hstep hq => ?_)
    ⟨fun _ he => absurd he List.not_mem_nil, hbefore⟩).2
  obtain ⟨hranges, htargets⟩ := hq
  have hle := hstep.kept.next
  cases hstep with
  | grid h =>
    rw [Lookup.system_writeGrid h]
    exact ⟨hranges, htargets⟩
  | mark h =>
    refine ⟨List.forall_mem_cons.mpr ⟨Nat.lt_succ_self _, fun e he => Nat.lt_succ_of_lt (hranges e he)⟩, ?_⟩
    exact fun id target ht => (htargets id target ht).mono hle
  | table target _ hmarked hoptions =>
    refine ⟨hranges, fun id' target' ht => ?_⟩
    rw [SortedMap.get?_insert] at ht
    split at ht
    · -- A table is registered under a selector that was handed out, and lists constants.
      obtain rfl := Option.some.inj ht
      exact ⟨hranges _ hmarked, hoptions⟩
    · exact htargets id' target' ht

/-! ### Two orders -/

theorem Check.exists_run (check : Check) {t : Assignment} {inputs outputs : List Variable} {start rows : Nat}
    (h : ∃ z, Zones.make s t inputs outputs start rows = .ok z) :
    ∃ b, check.run s t inputs outputs start rows = .ok b := by
  obtain ⟨z, hz⟩ := h
  unfold run
  split
  · exact ⟨true, rfl⟩
  · exact ⟨_, map_eq_ok.mpr ⟨z, hz, rfl⟩⟩

namespace Arranged
variable (h : Arranged c parts d) (h' : Arranged c parts' d')
include h h'

section Selectors
variable (hbare : c.system.Bare)
include hbare

theorem next_le (hsub : parts' ⊆ parts) : d'.system.nextSelector ≤ d.system.nextSelector :=
  h'.counted.next_le_of_registers h.counted fun _ ask hask =>
    h.registers ask ((h'.adds.among_of_bare hbare hask).2.mono (gatesOf_subset hsub) (lookupsOf_subset hsub))

variable (hperm : parts.Perm parts')
include hperm

theorem next_eq : d'.system.nextSelector = d.system.nextSelector :=
  Nat.le_antisymm (h.next_le h' hbare hperm.symm.subset) (h'.next_le h hbare hperm.subset)

/-- Only selectors that were handed out on the way mark what the order makes of them. -/
theorem cell_eq (hout : selector < c.system.nextSelector ∨ d.system.nextSelector ≤ selector) (r : Nat) :
    d'.table.cell .selector selector r = d.table.cell .selector selector r := by
  rcases hout with hlt | hle
  · rw [h.marks _ _ hlt, h'.marks _ _ hlt]
  · rw [h.fresh _ _ hle, h'.fresh _ _ (h.next_eq h' hbare hperm ▸ hle)]

end Selectors

variable (hperm : parts.Perm parts')
include hperm

theorem copies_iff (copy : Copy) : copy ∈ d'.system.copies ↔ copy ∈ d.system.copies := by
  simp only [h.copies, h'.copies, hperm.mem_iff]

/-! The circuits with other contents, the same in both but for the selectors. -/

variable {t t' : Assignment} (ht : t.selectors = d.table.selectors) (ht' : t'.selectors = d'.table.selectors)
include ht ht'

theorem obliges_iff : d'.system.Obliges t' r ask ↔ d.system.Obliges t r ask := by
  simp only [System.obliges_of_selectors ht, System.obliges_of_selectors ht', h.obliges, h'.obliges, hperm.mem_iff]

variable (hcolumns : ∀ kind, kind ≠ .selector → t'.columns kind = t.columns kind)
include hcolumns

theorem entries_eq (hbare : c.system.Bare) {target : Target}
    (havoids : target.Avoids c.system.nextSelector d.system.nextSelector) : t'.entries target = t.entries target := by
  have hcell : ∀ {selector}, selector < c.system.nextSelector ∨ d.system.nextSelector ≤ selector → ∀ r,
      t'.cell .selector selector r = t.cell .selector selector r := by
    intro selector hout r
    have heq := h.cell_eq h' hbare hperm hout r
    simp only [Assignment.cell, Assignment.columns] at heq ⊢
    rw [ht, ht', heq]
  have hwidth : t'.width .selector = t.width .selector := by
    have heq := (h'.width .selector).trans (h.width .selector).symm
    simp only [Assignment.width, Assignment.columns] at heq ⊢
    rw [ht, ht', heq]
  refine Assignment.entries_of_isOn (fun row => ?_) fun option ho v hv row _ => ?_
  · rw [Assignment.isOn, Assignment.isOn, hcell havoids.tag]
  · by_cases hk : v.kind = .selector
    · refine Assignment.valueAt_of_cell (hk ▸ hwidth) (fun r => ?_) row
      rw [hk]
      exact hcell (havoids.options option ho v hv hk) r
    · exact Assignment.valueAt_of_columns (hcolumns _ hk) row

/-- If the registered tables are the same after both orders, the circuits are satisfied alike. -/
theorem firstViolation_iff
    (htables : ∀ id target, c.system.targets.get? id = some target → t'.entries target = t.entries target) :
    d'.system.firstViolation t' = .ok none ↔ d.system.firstViolation t = .ok none := by
  have hwitness : ColumnKind.witness ≠ .selector := by decide
  refine System.firstViolation_congr (h'.adds.targets.trans h.adds.targets.symm) (h.copies_iff h' hperm)
    (fun row ask => h.obliges_iff h' hperm ht ht') (fun row ask hask x hx v hv => ?_)
    (fun id target htarget => htables id target (h.adds.targets ▸ htarget)) fun copy hcopy => ?_
  · have hactive := (h.active row ask.exprs).mp
      (System.active_iff_obliges.mpr ⟨ask, (System.obliges_of_selectors ht).mp hask, rfl⟩)
    obtain ⟨p, hp, hactive⟩ := hactive
    obtain ⟨i, -, rfl⟩ := hactive.operand hx hv
    exact Assignment.valueAt_of_columns (hcolumns _ hwitness) row
  · obtain ⟨p, hp, hties⟩ := (h.copies copy).mp hcopy
    have hseated := h.seated p hp
    obtain ⟨i, -, r, -, -, hsecond⟩ := second_of_ties hseated.rows hseated.arity hties
    have hfirst : copy.first.kind ≠ .selector := by
      rcases first_of_ties hseated.arity hties with hv | ⟨i, -, r, -, -, hcell⟩
      · exact (hseated.inputs _ hv).2
      · exact hcell ▸ hwitness
    exact ⟨Assignment.value_of_columns (hcolumns _ hfirst),
      Assignment.value_of_columns (hcolumns _ (hsecond ▸ hwitness))⟩

/-- Every window is judged alike after both orders, and no check faults. -/
theorem exists_run (check : Check) (inputs outputs : List Variable) (start rows : Nat) :
    ∃ b, check.run d.system t inputs outputs start rows = .ok b ∧
      check.run d'.system t' inputs outputs start rows = .ok b := by
  obtain ⟨b, hb⟩ := check.exists_run (h.exists_make_of_selectors ht inputs outputs start rows)
  obtain ⟨b', hb'⟩ := check.exists_run (h'.exists_make_of_selectors ht' inputs outputs start rows)
  have hrows : t'.publicRows = t.publicRows := by
    rw [Assignment.publicRows, Assignment.publicRows, hcolumns .publicInput (by decide)]
  have hspace : Zone.Space.ofTable t' (inputs ++ outputs) start rows = .ofTable t (inputs ++ outputs) start rows :=
    Zone.Space.ofTable_congr (fun kind hkind => by rw [Assignment.width, Assignment.width, hcolumns kind hkind])
      hrows (inputs ++ outputs) start rows
  have halike : Zone.Alike d.system d'.system t t' (.ofTable t (inputs ++ outputs) start rows) :=
    ⟨fun row xs _ => by simp only [System.active_iff_obliges, h.obliges_iff h' hperm ht ht'],
      fun copy _ _ => h.copies_iff h' hperm copy⟩
  obtain rfl : b' = b := Check.run_eq_of_alike hspace halike hb hb'
  exact ⟨b', hb, hb'⟩

end Arranged

/-- Parts are placed in any order if there are columns for the selectors that they use up, and in any order they use up
    as many. Then, for all contents of the other columns, every window is judged alike, and the circuits are satisfied
    alike if no registered table names a selector that is handed out on the way. -/
theorem Circuit.placeAll_perm (hbare : c.system.Bare)
    (hfresh : ∀ selector row, c.system.nextSelector ≤ selector → c.table.cell .selector selector row = 0)
    (hrun : c.placeAll parts = .ok (cells, d)) (hperm : parts.Perm parts') :
    (d.system.nextSelector ≤ c.table.width .selector → ∃ cells' d', c.placeAll parts' = .ok (cells', d')) ∧
    ∀ cells' d', c.placeAll parts' = .ok (cells', d') →
      d'.system.nextSelector = d.system.nextSelector ∧
      ∀ witnesses constants publicInputs,
        let t : Assignment := { d.table with witnesses, constants, publicInputs }
        let t' : Assignment := { d'.table with witnesses, constants, publicInputs }
        ((∀ id target, c.system.targets.get? id = some target →
            target.Avoids c.system.nextSelector d.system.nextSelector) →
          (d'.system.firstViolation t' = .ok none ↔ d.system.firstViolation t = .ok none)) ∧
        ∀ (check : Check) (inputs outputs : List Variable) (start rows : Nat), ∃ b,
          check.run d.system t inputs outputs start rows = .ok b ∧
            check.run d'.system t' inputs outputs start rows = .ok b := by
  have h := arranged_of_placeAll hbare hfresh hrun
  refine ⟨fun hroom => ?_, fun cells' d' hrun' => ?_⟩
  · -- The other order registers what this one did, and that there is room for.
    refine (arranged_nil hbare hfresh).exists_placeAll hbare (s := d.system)
      (fun p hp => (h.seated p (hperm.mem_iff.mpr hp)).of_width fun kind => (h.width kind).symm)
      (fun lookup hl => h.ids lookup (lookupsOf_subset hperm.symm.subset hl)) h.counted (fun ask hask => ?_) hroom
    exact h.registers ask (hask.mono (gatesOf_subset hperm.symm.subset) (lookupsOf_subset hperm.symm.subset))
  have h' := arranged_of_placeAll hbare hfresh hrun'
  refine ⟨h.next_eq h' hbare hperm, fun witnesses constants publicInputs => ?_⟩
  intro t t'
  have hcolumns : ∀ kind, kind ≠ .selector → t'.columns kind = t.columns kind := by
    rintro (_ | _ | _ | _) hkind
    · rfl
    · rfl
    · rfl
    · exact absurd rfl hkind
  have ht : t.selectors = d.table.selectors := rfl
  have ht' : t'.selectors = d'.table.selectors := rfl
  refine ⟨fun havoids => h.firstViolation_iff h' hperm ht ht' hcolumns fun id target htarget => ?_,
    h.exists_run h' hperm ht ht' hcolumns⟩
  exact h.entries_eq h' hperm ht ht' hcolumns hbare (havoids id target htarget)

/-- Beside a packed range table, a sum of two public inputs and a check of it are placed in both orders. Each gets the
    selector that the other one has after the other order, and both circuits are satisfied. -/
theorem Circuit.placeAll_in_two_orders :
    let c₀ : Circuit := ⟨.empty, ⟨#[#[], #[], #[]], #[#[]], #[#[]], #[#[], #[], #[]]⟩⟩
    let sum : Part := ⟨.addition ⟨0, 1, 2⟩, (⟨.publicInput, 0, .row 0⟩, ⟨.publicInput, 0, .row 1⟩), 0⟩
    let check : Part := ⟨.rangeOf 0 2 Lookup.fullName, (⟨.witness, 2, .row 0⟩ : Variable), 1⟩
    let fill (t : Assignment) : Assignment := { t with
      witnesses := #[#[1, 3], #[2], #[3]], constants := #[#[0, 0, 1, 2, 3]], publicInputs := #[#[1, 2]] }
    ∃ c cells d cells' d', Lookup.Catalogue.fours.pack .vertical c₀ [0] 0 = .ok (c, .ok 5) ∧
      c.placeAll [sum, check] = .ok (cells, d) ∧ c.placeAll [check, sum] = .ok (cells', d') ∧
      (d.table.isOn 1 0 ∧ d.table.isOn 2 1) ∧ (d'.table.isOn 2 0 ∧ d'.table.isOn 1 1) ∧
      d'.system.nextSelector = d.system.nextSelector ∧
      d.system.firstViolation (fill d.table) = .ok none ∧ d'.system.firstViolation (fill d'.table) = .ok none ∧
      ∃ b, Check.run ⟨.strong, true⟩ d.system (fill d.table) sum.inputs [sum.result] 0 1 = .ok b ∧
        Check.run ⟨.strong, true⟩ d'.system (fill d'.table) sum.inputs [sum.result] 0 1 = .ok b := by
  intro c₀ sum check fill
  let system : System := { System.empty with
    targets := ⟨[(1, ⟨0, 1, [[.constant 0 0]]⟩)], by decide⟩
    reserved := ⟨[(Lookup.join (Lookup.rangeName 2) Lookup.fullName, 1)], by decide⟩
    nextSelector := 1 }
  let table (selectors : Array (Array Scalar)) : Assignment :=
    ⟨#[#[], #[], #[]], #[#[0, 0, 1, 2, 3]], #[#[]], selectors⟩
  let c : Circuit := ⟨system, table #[#[0, 1, 1, 1, 1], #[], #[]]⟩
  let d : Circuit := ⟨{ system with
    gates := [⟨1, [.sub (.add (operand 0) (operand 1)) (operand 2)]⟩]
    lookupGates := [⟨2, [⟨1, [operand 0]⟩]⟩]
    copies := [⟨⟨.publicInput, 0, .row 0⟩, ⟨.witness, 0, .row 0⟩⟩, ⟨⟨.publicInput, 0, .row 1⟩, ⟨.witness, 1, .row 0⟩⟩,
      ⟨⟨.witness, 2, .row 0⟩, ⟨.witness, 0, .row 1⟩⟩]
    nextSelector := 3 }, table #[#[0, 1, 1, 1, 1], #[1], #[0, 1]]⟩
  let d' : Circuit := ⟨{ system with
    gates := [⟨2, [.sub (.add (operand 0) (operand 1)) (operand 2)]⟩]
    lookupGates := [⟨1, [⟨1, [operand 0]⟩]⟩]
    copies := [⟨⟨.witness, 2, .row 0⟩, ⟨.witness, 0, .row 1⟩⟩, ⟨⟨.publicInput, 0, .row 0⟩, ⟨.witness, 0, .row 0⟩⟩,
      ⟨⟨.publicInput, 0, .row 1⟩, ⟨.witness, 1, .row 0⟩⟩]
    nextSelector := 3 }, table #[#[0, 1, 1, 1, 1], #[0, 1], #[1]]⟩
  have hpack : Lookup.Catalogue.fours.pack .vertical c₀ [0] 0 = .ok (c, .ok 5) := by cbv
  have hfresh : ∀ selector row, 1 ≤ selector → c.table.cell .selector selector row = 0 :=
    fun _ _ => Assignment.cell_of_empty (by decide)
  have hrun : c.placeAll [sum, check] = .ok ([sum.result, check.result], d) := by cbv
  have hrun' : c.placeAll [check, sum] = .ok ([check.result, sum.result], d') := by cbv
  obtain ⟨hnext, hverdict⟩ := (Circuit.placeAll_perm ⟨rfl, rfl, rfl⟩ hfresh hrun (.swap check sum [])).2 _ d' hrun'
  obtain ⟨hsat, hcheck⟩ := hverdict #[#[1, 3], #[2], #[3]] #[#[0, 0, 1, 2, 3]] #[#[1, 2]]
  -- The one order by computation; the other one follows from it.
  have hholds : d.system.Holds (fill d.table) := by
    refine ⟨fun g hg row hon x hx => ?_, ?_, fun g hg row hon q hq => ?_⟩
    · obtain rfl := List.mem_singleton.mp hg
      obtain rfl := List.mem_singleton.mp hx
      have hrow : row < 1 := Assignment.lt_marks_of_isOn hon
      obtain rfl : row = 0 := by omega
      rfl
    · intro copy hcopy
      simp only [d, List.mem_cons, List.not_mem_nil, or_false] at hcopy
      rcases hcopy with rfl | rfl | rfl
      · exact ⟨1, rfl, rfl⟩
      · exact ⟨2, rfl, rfl⟩
      · exact ⟨3, rfl, rfl⟩
    · obtain rfl := List.mem_singleton.mp hg
      obtain rfl := List.mem_singleton.mp hq
      have hrow : row < 2 := Assignment.lt_marks_of_isOn hon
      obtain rfl | rfl : row = 0 ∨ row = 1 := by omega
      · exact absurd hon (by decide)
      · exact ⟨_, rfl, [[0], [1], [2], [3]], [3], rfl, rfl, by decide⟩
  have hsettled := settled_of_pack Lookup.Catalogue.built_fours (by decide) hpack fun _ _ h => absurd h (Option.some_ne_none _).symm
  have hsatisfied := System.firstViolation_eq_none_iff.mpr hholds
  obtain ⟨b, hb, hb'⟩ := hcheck ⟨.strong, true⟩ sum.inputs [sum.result] 0 1
  refine ⟨c, _, d, _, d', hpack, hrun, hrun', by decide, by decide, hnext, hsatisfied, ?_, b, hb, hb'⟩
  exact (hsat fun id target h => (hsettled id target h).avoids _).mpr hsatisfied

/-- A table is registered under a selector that is yet to be handed out. Where the check of a number gets it the table
    lists the row of the check, and where a sum gets it the row of the sum, so one order is satisfied and the other is
    not. -/
theorem Circuit.unsatisfied_of_other_order :
    let system : System := { System.empty with
      targets := ⟨[(1, ⟨1, 1, [[.constant 0 0]]⟩)], by decide⟩
      reserved := ⟨[(Lookup.join (Lookup.rangeName 2) Lookup.fullName, 1)], by decide⟩ }
    let c : Circuit := ⟨system, .blank 3 1 1 2⟩
    let zero : Variable := ⟨.publicInput, 0, .row 1⟩
    let sum : Part := ⟨.addition ⟨0, 1, 2⟩, (zero, zero), 0⟩
    let check : Part := ⟨.rangeOf 0 2 Lookup.fullName, (⟨.publicInput, 0, .row 0⟩ : Variable), 1⟩
    let fill (t : Assignment) : Assignment := { t with
      witnesses := #[#[0, 7], #[], #[]], constants := #[#[5, 7]], publicInputs := #[#[7, 0]] }
    c.system.Bare ∧ (∀ selector row, c.system.nextSelector ≤ selector → c.table.cell .selector selector row = 0) ∧
      ∃ cells d cells' d', c.placeAll [sum, check] = .ok (cells, d) ∧ c.placeAll [check, sum] = .ok (cells', d') ∧
        d.system.nextSelector ≤ c.table.width .selector ∧
        d.system.firstViolation (fill d.table) = .ok none ∧ d'.system.firstViolation (fill d'.table) ≠ .ok none := by
  intro system c zero sum check fill
  let d : Circuit := ⟨{ system with
    gates := [⟨0, [.sub (.add (operand 0) (operand 1)) (operand 2)]⟩]
    lookupGates := [⟨1, [⟨1, [operand 0]⟩]⟩]
    copies := [⟨zero, ⟨.witness, 0, .row 0⟩⟩, ⟨zero, ⟨.witness, 1, .row 0⟩⟩,
      ⟨⟨.publicInput, 0, .row 0⟩, ⟨.witness, 0, .row 1⟩⟩]
    nextSelector := 2 }, ⟨#[#[], #[], #[]], #[#[]], #[#[]], #[#[1], #[0, 1]]⟩⟩
  let d' : Circuit := ⟨{ system with
    gates := [⟨1, [.sub (.add (operand 0) (operand 1)) (operand 2)]⟩]
    lookupGates := [⟨0, [⟨1, [operand 0]⟩]⟩]
    copies := [⟨⟨.publicInput, 0, .row 0⟩, ⟨.witness, 0, .row 1⟩⟩, ⟨zero, ⟨.witness, 0, .row 0⟩⟩,
      ⟨zero, ⟨.witness, 1, .row 0⟩⟩]
    nextSelector := 2 }, ⟨#[#[], #[], #[]], #[#[]], #[#[]], #[#[0, 1], #[1]]⟩⟩
  have hrun : c.placeAll [sum, check] = .ok ([sum.result, check.result], d) := by cbv
  have hrun' : c.placeAll [check, sum] = .ok ([check.result, sum.result], d') := by cbv
  refine ⟨⟨rfl, rfl, rfl⟩, fun selector row _ => Assignment.cell_blank .., _, d, _, d', hrun, hrun', by decide, ?_, ?_⟩
  · refine System.firstViolation_eq_none_iff.mpr ⟨fun g hg row hon x hx => ?_, ?_, fun g hg row hon q hq => ?_⟩
    · obtain rfl := List.mem_singleton.mp hg
      obtain rfl := List.mem_singleton.mp hx
      have hrow : row < 1 := Assignment.lt_marks_of_isOn hon
      obtain rfl : row = 0 := by omega
      rfl
    · intro copy hcopy
      simp only [d, List.mem_cons, List.not_mem_nil, or_false] at hcopy
      rcases hcopy with rfl | rfl | rfl
      · exact ⟨0, rfl, rfl⟩
      · exact ⟨0, rfl, rfl⟩
      · exact ⟨7, rfl, rfl⟩
    · obtain rfl := List.mem_singleton.mp hg
      obtain rfl := List.mem_singleton.mp hq
      have hrow : row < 2 := Assignment.lt_marks_of_isOn hon
      obtain rfl | rfl : row = 0 ∨ row = 1 := by omega
      · exact absurd hon (by decide)
      · exact ⟨_, rfl, [[7]], [7], rfl, rfl, by decide⟩
  · intro hsat
    have hholds := System.firstViolation_eq_none_iff.mp hsat
    -- The table is marked by the selector of the other gate now, and lists another constant.
    obtain ⟨target, htarget, entries, x, hentries, hx, hmem⟩ :=
      hholds.lookups _ (List.mem_singleton_self _) 1 (by decide) _ (List.mem_singleton_self _)
    obtain rfl := Option.some.inj htarget
    obtain rfl : [[5]] = entries := Except.ok.inj hentries
    obtain rfl : [7] = x := Except.ok.inj hx
    exact absurd hmem (by decide)

end Plonkish
