import Plonkish.Proofs.Component.Filling
import Plonkish.Proofs.Component.Placed
import Plonkish.Proofs.Lookup.Writing

/-! When a component can be placed. A component that is seated in a table has all its columns and rows, its
    operands are no selectors and its copies are between absolute cells. So nothing can fail but the names
    of its lookups, which have to be reserved, and the number of selectors, which have to have columns
    (`exists_place`). -/

namespace Plonkish

/-! ### Systems -/

namespace System
variable {s : System}

theorem checkOperands_eq_ok {xs : List Expr} (h : ∀ x ∈ xs, ∀ v ∈ x.leaves, v.kind ≠ .selector) :
    checkOperands (Expr.collect xs) = .ok () := by
  have hnone : (Expr.collect xs).toList.find? (·.kind = .selector) = none := List.find?_eq_none.mpr fun v hv => by
    obtain ⟨x, hx, hv⟩ := Expr.mem_collect.mp hv
    simpa using h x hx v hv
  rw [checkOperands, hnone]

theorem exists_addGate {constraints : List Expr} (h : ∀ x ∈ constraints, ∀ v ∈ x.leaves, v.kind ≠ .selector) :
    ∃ selector t, s.addGate constraints = .ok (selector, t) := by
  rw [addGate, checkOperands_eq_ok h]
  cases hfind : s.gates.find? (·.constraints = constraints) with
  | some g => exact ⟨g.selector, s, by simp [bind, Except.bind]⟩
  | none => exact ⟨s.nextSelector, _, by simp [bind, Except.bind]; rfl⟩

theorem exists_addLookupGate {queries : List Query}
    (h : ∀ x ∈ queries.flatMap Query.input, ∀ v ∈ x.leaves, v.kind ≠ .selector) :
    ∃ tag t, s.addLookupGate queries = .ok (tag, t) := by
  rw [addLookupGate, checkOperands_eq_ok h]
  cases hfind : s.lookupGates.find? (·.queries = queries) with
  | some g => exact ⟨g.tag, s, by simp [bind, Except.bind]⟩
  | none => exact ⟨s.nextSelector, _, by simp [bind, Except.bind]; rfl⟩

theorem exists_addCopy_iff {v w : Variable} : (∃ t, s.addCopy v w = .ok t) ↔
    (v.relative = false ∧ v.kind ≠ .selector) ∧ w.relative = false ∧ w.kind ≠ .selector := by
  rw [← Copy.checkEnd_eq_ok, ← Copy.checkEnd_eq_ok]
  constructor
  · rintro ⟨t, h⟩
    obtain ⟨copy, hcopy, -⟩ := bind_eq_ok.mp h
    obtain ⟨⟨⟩, hv, hcopy⟩ := bind_eq_ok.mp hcopy
    obtain ⟨⟨⟩, hw, -⟩ := bind_eq_ok.mp hcopy
    exact ⟨hv, hw⟩
  · rintro ⟨hv, hw⟩
    have hcopy : Copy.make? v w = .ok ⟨v, w⟩ := bind_eq_ok.mpr ⟨(), hv, bind_eq_ok.mpr ⟨(), hw, rfl⟩⟩
    exact ⟨_, bind_eq_ok.mpr ⟨_, hcopy, rfl⟩⟩

end System

namespace Component
open Plonkish.System
variable {c : Component} {s : System} {t : Assignment} {row : Nat}

/-! ### Registering -/

theorem exists_addGates {gates : List (List Expr)}
    (h : ∀ constraints ∈ gates, ∀ x ∈ constraints, ∀ v ∈ x.leaves, v.kind ≠ .selector) :
    ∃ selectors s', addGates s gates = .ok (selectors, s') := by
  induction gates generalizing s with
  | nil => exact ⟨[], s, rfl⟩
  | cons constraints rest ih =>
    obtain ⟨hhead, hrest⟩ := List.forall_mem_cons.mp h
    obtain ⟨selector, s₁, h₁⟩ := exists_addGate (s := s) hhead
    obtain ⟨selectors, s₂, h₂⟩ := ih (s := s₁) hrest
    exact ⟨_, _, bind_eq_ok.mpr ⟨_, h₁, bind_eq_ok.mpr ⟨_, h₂, rfl⟩⟩⟩

theorem exists_addLookups {lookups : List (String × List Expr)}
    (h : ∀ lookup ∈ lookups, ∀ x ∈ lookup.2, ∀ v ∈ x.leaves, v.kind ≠ .selector)
    (hids : ∀ lookup ∈ lookups, ∃ id, s.reserved.get? lookup.1 = some id) :
    ∃ tags s', addLookups s lookups = .ok (tags, s') := by
  induction lookups generalizing s with
  | nil => exact ⟨[], s, rfl⟩
  | cons lookup rest ih =>
    obtain ⟨hhead, hrest⟩ := List.forall_mem_cons.mp h
    obtain ⟨⟨id, hid⟩, hids⟩ := List.forall_mem_cons.mp hids
    have hqueries : ∀ x ∈ [(⟨id, lookup.2⟩ : Query)].flatMap Query.input, ∀ v ∈ x.leaves, v.kind ≠ .selector := by
      simpa using hhead
    obtain ⟨tag, s₁, h₁⟩ := exists_addLookupGate (s := s) hqueries
    have hreserved := (addLookupGate_eq_ok h₁).2.reserved
    obtain ⟨tags, s₂, h₂⟩ := ih (s := s₁) hrest (by simpa only [hreserved] using hids)
    have htable : s.tableId lookup.1 = .ok id := by rw [tableId, hid]
    exact ⟨_, _, bind_eq_ok.mpr ⟨id, htable, bind_eq_ok.mpr ⟨_, h₁, bind_eq_ok.mpr ⟨_, h₂, rfl⟩⟩⟩⟩

theorem exists_register (hids : ∀ lookup ∈ c.lookups, ∃ id, s.reserved.get? lookup.1 = some id) :
    ∃ selectors s', c.register s = .ok (selectors, s') := by
  have hwitness : ∀ {v : Variable}, (∃ i ∈ c.columns, v = .witness i 0) → v.kind ≠ .selector := by
    rintro v ⟨i, -, rfl⟩ h
    cases h
  obtain ⟨own, s₁, h₁⟩ := exists_addGates (s := s) fun constraints hc x hx v hv => hwitness (operand_of_gates hc hx hv)
  have hreserved := (addGates_eq_ok h₁).2.reserved
  obtain ⟨tags, s₂, h₂⟩ := exists_addLookups (s := s₁)
    (fun lookup hl x hx v hv => hwitness (operand_of_lookups hl hx hv)) (by simpa only [hreserved] using hids)
  exact ⟨_, _, bind_eq_ok.mpr ⟨_, h₁, bind_eq_ok.mpr ⟨_, h₂, rfl⟩⟩⟩

/-- The selectors answered are among those handed out. -/
theorem lt_of_register {s' : System} {selectors : List Nat} (hs : s.Tidy) (h : c.register s = .ok (selectors, s')) :
    ∀ selector ∈ selectors, selector < s'.nextSelector := by
  have htidy : s'.Tidy :=
    register_preserves Tidy (fun _ ht hq => hq.addGate ht) (fun _ _ ht hq => hq.addLookupGate ht) h hs
  obtain ⟨own, tags, rfl, hgates, hlookups, -⟩ := register_eq_ok h
  intro selector hmem
  rcases List.mem_append.mp hmem with hmem | hmem
  · obtain ⟨j, hj, rfl⟩ := List.mem_iff_getElem.mp hmem
    exact htidy.used _ (Tidy.mem_selectors (hgates.get (hgates.length_eq ▸ hj) hj))
  · obtain ⟨j, hj, rfl⟩ := List.mem_iff_getElem.mp hmem
    obtain ⟨id, -, hgate⟩ := hlookups.get (hlookups.length_eq ▸ hj) hj
    exact htidy.used _ (Tidy.mem_tags hgate)

/-! ### Turning on -/

theorem width_enable {selectors : List Nat} {t' : Assignment} (h : c.enable selectors t row = .ok t') (k : ColumnKind) :
    t'.width k = t.width k := by
  unfold enable at h
  generalize selectors.zip c.firing = fired at h
  induction fired generalizing t with
  | nil => rw [← Except.ok.inj h]
  | cons e rest ih =>
    rw [List.foldlM_cons] at h
    obtain ⟨t₁, h₁, h⟩ := bind_eq_ok.mp h
    rw [ih h, Assignment.width_enableRange h₁]

theorem exists_enable {selectors : List Nat} (h : ∀ selector ∈ selectors, selector < t.width .selector) (row : Nat) :
    ∃ t', c.enable selectors t row = .ok t' := by
  have hfired : ∀ e ∈ selectors.zip c.firing, e.1 < t.width .selector := fun e he => h _ (List.of_mem_zip he).1
  unfold enable
  generalize selectors.zip c.firing = fired at hfired
  induction fired generalizing t with
  | nil => exact ⟨t, rfl⟩
  | cons e rest ih =>
    obtain ⟨hhead, hrest⟩ := List.forall_mem_cons.mp hfired
    obtain ⟨t₁, h₁⟩ := Assignment.exists_enableRange hhead (row + e.2.1) (row + e.2.2)
    have hwidth := Assignment.width_enableRange h₁ .selector
    obtain ⟨t', h'⟩ := ih (by rwa [hwidth]) (by rwa [hwidth])
    exact ⟨t', by rw [List.foldlM_cons]; exact bind_eq_ok.mpr ⟨t₁, h₁, h'⟩⟩

/-! ### Wiring -/

theorem rows_pos : (c : Component) → 0 < c.rows
  | runningSum _ _ pos => pos
  | addition _ => Nat.one_pos
  | multiplication _ => Nat.one_pos
  | xor _ => Nat.one_pos
  | rangeCheck .. => Nat.one_pos

/-- The ends that wires of a component have: its inputs and its own cells. -/
inductive EndOf (c : Component) (input : c.Input) (row : Nat) : End → Prop where
  | given {v : Variable} (hv : v ∈ c.inputs input) : EndOf c input row (.given v)
  | own {i r : Nat} (hi : i ∈ c.columns) (hlo : row ≤ r) (hhi : r < row + c.rows) : EndOf c input row (.own i r)

theorem endOf_row {input : c.Input} {w : Trio} {x y : Variable} (hw : w.toList ⊆ c.columns)
    (hinputs : [x, y] ⊆ c.inputs input) {e : End × End}
    (he : e ∈ [(End.given x, End.own w.first row), (.given y, .own w.second row)]) :
    EndOf c input row e.1 ∧ EndOf c input row e.2 := by
  have hlast : row < row + c.rows := Nat.lt_add_of_pos_right c.rows_pos
  rcases List.mem_pair.mp he with rfl | rfl
  · exact ⟨.given (hinputs (by simp)), .own (hw (by simp [Trio.toList])) le_rfl hlast⟩
  · exact ⟨.given (hinputs (by simp)), .own (hw (by simp [Trio.toList])) le_rfl hlast⟩

theorem endOf_wires {input : c.Input} (harity : c.checkInput input = .ok ()) {e : End × End}
    (he : e ∈ c.wires input row) : EndOf c input row e.1 ∧ EndOf c input row e.2 := by
  cases c with
  | addition w => exact endOf_row (List.Subset.refl _) (List.Subset.refl _) he
  | multiplication w => exact endOf_row (List.Subset.refl _) (List.Subset.refl _) he
  | xor w => exact endOf_row (List.Subset.refl _) (List.Subset.refl _) he
  | rangeCheck column table =>
    obtain rfl := List.mem_singleton.mp he
    exact ⟨.given (List.mem_singleton_self _), .own (List.mem_singleton_self _) le_rfl (Nat.lt_succ_self _)⟩
  | runningSum w terms pos =>
    have hlength : List.length (α := Variable) input = terms := length_of_checkInput harity
    have hmem : w.first ∈ w.toList ∧ w.second ∈ w.toList ∧ w.third ∈ w.toList := by simp [Trio.toList]
    rcases List.mem_append.mp he with he | he
    · obtain ⟨⟨v, r⟩, hr, rfl⟩ := List.mem_map.mp he
      obtain ⟨hle, hv⟩ := List.mem_zipIdx_iff_le_and_getElem?_sub.mp hr
      have hlt := (List.getElem?_eq_some_iff.mp hv).1
      exact ⟨.given (List.mem_of_getElem? hv), .own hmem.1 hle (by simp only [rows]; omega)⟩
    · obtain ⟨r, hr, rfl⟩ := List.mem_map.mp he
      have hr := List.mem_range'_1.mp hr
      exact ⟨.own hmem.2.1 (by omega) (by simp only [rows]; omega),
        .own hmem.2.2 hr.1 (by simp only [rows]; omega)⟩

/-- An end that a copy may have. -/
def End.Absolute (e : End) : Prop := ∃ v, e.variable = .ok v ∧ v.relative = false ∧ v.kind ≠ .selector

theorem exists_addWires_iff {wires : List (End × End)} :
    (∃ s', addWires s wires = .ok s') ↔ ∀ e ∈ wires, e.1.Absolute ∧ e.2.Absolute := by
  unfold addWires
  induction wires generalizing s with
  | nil => exact ⟨fun _ _ he => absurd he List.not_mem_nil, fun _ => ⟨s, rfl⟩⟩
  | cons e rest ih =>
    simp only [List.foldlM_cons, bind_eq_ok, List.forall_mem_cons, ← ih (s := s)]
    constructor
    · rintro ⟨s', s₁, ⟨v, hv, w, hw, h₁⟩, h⟩
      obtain ⟨hv', hw'⟩ := exists_addCopy_iff.mp ⟨s₁, h₁⟩
      exact ⟨⟨⟨v, hv, hv'⟩, w, hw, hw'⟩, ih.mpr (ih.mp ⟨s', h⟩)⟩
    · rintro ⟨⟨⟨v, hv, hv'⟩, w, hw, hw'⟩, hrest⟩
      obtain ⟨s₁, h₁⟩ := (exists_addCopy_iff (s := s)).mpr ⟨hv', hw'⟩
      obtain ⟨s', h⟩ := (ih (s := s₁)).mpr (ih.mp hrest)
      exact ⟨s', s₁, ⟨v, hv, w, hw, h₁⟩, h⟩

/-- A component whose columns and rows exist, with as many inputs as it needs, all of them cells that a copy may have. -/
structure Seated (c : Component) (t : Assignment) (input : c.Input) (row : Nat) : Prop where
  width : ∀ i ∈ c.columns, i < t.width .witness
  rows : row + c.rows ≤ Variable.rowLimit
  arity : c.checkInput input = .ok ()
  inputs : ∀ v ∈ c.inputs input, v.relative = false ∧ v.kind ≠ .selector

theorem Fits.seated {input : c.Input} (h : c.Fits t input row) : c.Seated t input row :=
  ⟨h.width, h.rows, h.arity, fun v hv => ⟨(h.inputs v hv).1, (h.inputs v hv).2.1⟩⟩

theorem Seated.absolute {input : c.Input} (h : c.Seated t input row) {x : End} (hx : EndOf c input row x) :
    x.Absolute := by
  cases hx with
  | given hv => exact ⟨_, rfl, h.inputs _ hv⟩
  | own _ _ hhi => exact ⟨_, if_pos (Nat.lt_of_lt_of_le hhi h.rows), rfl, fun hk => nomatch hk⟩

/-! ### Placing -/

theorem foldl_max_succ_le_iff {l : List Nat} {a b : Nat} :
    l.foldl (fun n i => max n (i + 1)) a ≤ b ↔ a ≤ b ∧ ∀ i ∈ l, i < b := by
  induction l generalizing a with
  | nil => simp
  | cons i rest ih => rw [List.foldl_cons, ih, Nat.max_le, Nat.succ_le_iff, List.forall_mem_cons, and_assoc]

theorem isMetBy_covering_iff {columns : List Nat} :
    (Manifest.covering columns).isMetBy t = true ↔ ∀ i ∈ columns, i < t.width .witness := by
  simp [Manifest.isMetBy, Manifest.covering, Manifest.ofWitnesses, foldl_max_succ_le_iff]

/-- The column of the result. -/
def resultColumn : Component → Nat
  | addition w => w.third
  | multiplication w => w.third
  | xor w => w.third
  | runningSum w _ _ => w.third
  | rangeCheck column _ => column

/-- The cell of the result, in the last row. -/
def result (c : Component) (row : Nat) : Variable := ⟨.witness, c.resultColumn, .row (row + c.rows - 1)⟩

theorem output_eq (c : Component) (row : Nat) :
    c.output row = Variable.at? .witness c.resultColumn (row + c.rows - 1) := by cases c <;> rfl

theorem output_eq_ok (h : row + c.rows ≤ Variable.rowLimit) : c.output row = .ok (c.result row) := by
  have hrows := c.rows_pos
  rw [output_eq]
  exact if_pos (by omega)

theorem owns_result (c : Component) (row : Nat) : c.Owns row .witness c.resultColumn (row + c.rows - 1) := by
  have hrows := c.rows_pos
  have hcolumn : c.resultColumn ∈ c.columns := by cases c <;> simp [resultColumn, columns, Trio.toList]
  exact ⟨rfl, hcolumn, by omega, by omega⟩

/-- A component that is seated can be placed once its gates are registered and turned on. -/
theorem exists_place_of_enable {d : Circuit} {input : c.Input} {selectors : List Nat} {system : System}
    {table : Assignment} (h : c.Seated d.table input row) (hregister : c.register d.system = .ok (selectors, system))
    (henable : c.enable selectors d.table row = .ok table) : ∃ placed, c.place d input row = .ok (c.result row, placed) := by
  have hmet : c.manifest.isMetBy d.table = true := isMetBy_covering_iff.mpr h.width
  obtain ⟨system', hwires⟩ : ∃ system', addWires system (c.wires input row) = .ok system' :=
    exists_addWires_iff.mpr fun e he => ⟨h.absolute (endOf_wires h.arity he).1, h.absolute (endOf_wires h.arity he).2⟩
  refine ⟨⟨system', table⟩, ?_⟩
  rw [place, if_pos hmet]
  exact bind_eq_ok.mpr ⟨(selectors, ⟨system, table⟩),
    bind_eq_ok.mpr ⟨_, hregister, bind_eq_ok.mpr ⟨_, henable, rfl⟩⟩,
    bind_eq_ok.mpr ⟨_, bind_eq_ok.mpr ⟨(), h.arity, hwires⟩, bind_eq_ok.mpr ⟨_, output_eq_ok h.rows, rfl⟩⟩⟩

/-- A component that is seated can be placed, if its lookups are reserved and there are columns for all selectors that
    are handed out. -/
theorem exists_place {d : Circuit} {input : c.Input} (hs : d.system.Tidy) (h : c.Seated d.table input row)
    (hids : ∀ lookup ∈ c.lookups, ∃ id, d.system.reserved.get? lookup.1 = some id)
    (hroom : ∀ selectors system, c.register d.system = .ok (selectors, system) →
      system.nextSelector ≤ d.table.width .selector) :
    ∃ placed, c.place d input row = .ok (c.result row, placed) := by
  obtain ⟨selectors, system, hregister⟩ := exists_register hids
  obtain ⟨table, henable⟩ : ∃ table, c.enable selectors d.table row = .ok table := exists_enable
    (fun selector hmem => Nat.lt_of_lt_of_le (lt_of_register hs hregister _ hmem) (hroom _ _ hregister)) row
  exact exists_place_of_enable h hregister henable

/-! ### Placed components -/

/-- Every input is tied to a cell of the component. -/
theorem exists_wire {input : c.Input} {v : Variable} (hv : v ∈ c.inputs input) :
    ∃ e ∈ c.wires input row, e.1 = .given v := by
  have hpair : ∀ {w : Trio} {x y : Variable}, v ∈ [x, y] →
      ∃ e ∈ [(End.given x, End.own w.first row), (.given y, .own w.second row)], e.1 = .given v := by
    intro w x y hv
    rcases List.mem_pair.mp hv with rfl | rfl
    · exact ⟨_, List.mem_cons_self, rfl⟩
    · exact ⟨_, List.mem_cons_of_mem _ List.mem_cons_self, rfl⟩
  cases c with
  | addition w => exact hpair hv
  | multiplication w => exact hpair hv
  | xor w => exact hpair hv
  | rangeCheck column table =>
    obtain rfl := List.mem_singleton.mp hv
    exact ⟨_, List.mem_singleton_self _, rfl⟩
  | runningSum w terms pos =>
    -- The input of a term is tied in the row of the term.
    have hindexed : ∀ {values : List Variable}, v ∈ values → ∃ r, (v, r) ∈ values.zipIdx row := by
      intro values hv
      obtain ⟨j, hj⟩ := List.getElem?_of_mem hv
      exact ⟨row + j, List.mem_zipIdx_iff_le_and_getElem?_sub.mpr (by simpa using hj)⟩
    obtain ⟨r, hr⟩ := hindexed hv
    exact ⟨_, List.mem_append_left _ (List.mem_map.mpr ⟨_, hr, rfl⟩), rfl⟩

theorem seated_of_place {d placed : Circuit} {input : c.Input} {output : Variable}
    (hplace : c.place d input row = .ok (output, placed)) : c.Seated d.table input row := by
  have hmet : c.manifest.isMetBy d.table = true := by
    by_contra hmet
    rw [place, if_neg hmet] at hplace
    cases hplace
  obtain ⟨_, system, -, -, harity, hwires, houtput⟩ := place_eq_ok hplace
  refine ⟨isMetBy_covering_iff.mp hmet, ?_, harity, fun v hv => ?_⟩
  · rw [output_eq] at houtput
    have hlt := (Variable.at?_eq_ok_iff.mp houtput).1
    omega
  · obtain ⟨e, he, hgiven⟩ : ∃ e ∈ c.wires input row, e.1 = .given v := exists_wire hv
    obtain ⟨u, hu, habs⟩ := ((exists_addWires_iff.mp ⟨_, hwires⟩) e he).1
    rw [hgiven] at hu
    obtain rfl := Except.ok.inj hu
    exact habs

/-- A component that was placed fits, if its columns are distinct and its inputs exist outside of it. -/
theorem fits_of_place {d placed : Circuit} {input : c.Input} {output : Variable}
    (hplace : c.place d input row = .ok (output, placed)) (hdistinct : c.columns.Nodup)
    (hinputs : ∀ v ∈ c.inputs input, d.table.Has v ∧ ∀ r, v.position = .row r → ¬ c.Owns row v.kind v.index r) :
    c.Fits d.table input row := by
  have hseated := seated_of_place hplace
  refine ⟨hdistinct, hseated.width, hseated.rows, hseated.arity, fun v hv => ?_, fun v hv => (hinputs v hv).2⟩
  exact ⟨(hseated.inputs v hv).1, (hseated.inputs v hv).2, (hinputs v hv).1⟩

end Component
end Plonkish
