import Plonkish.Proofs.Component.Completeness
import Plonkish.Proofs.Lookup.Catalogue

/-! What the lookup components enforce. After either packing, the table that a lookup component names lists
    exactly the exclusive ors of numbers of 4 bits, or the numbers of a range (`listed_of_pack`), and placing
    the component does not mark any more rows of it. So whatever is assigned to the other cells, a circuit
    that is satisfied has such a tuple in the row of the component; and with inputs in range the component
    can be assigned so that it is (`place_enforces_lookup`). -/

namespace Plonkish
namespace Component
open Lookup

/-! ### Tables of lookup components -/

/-- A component whose table is in a catalogue and reserved there, and the number that its inputs have to be below. -/
inductive Served (l : Catalogue) : Component → Nat → Prop where
  | xor {w : Trio} (ht : l.table? xorName = some xorTable) (hr : join xorName fullName ∈ l.reserved.toList) :
    Served l (.xor w) 16
  | full {column bits : Nat} {t : Table} (hbits : rangeTable bits = .ok t) (ht : l.table? t.name = some t)
    (hr : join (rangeName bits) fullName ∈ l.reserved.toList) : Served l (.rangeOf column bits fullName) (2 ^ bits)
  | half {column bits : Nat} {t : Table} (hbits : rangeTable bits = .ok t) (ht : l.table? t.name = some t)
    (hr : join (rangeName bits) (halfName bits) ∈ l.reserved.toList) :
    Served l (.rangeOf column bits (halfName bits)) (2 ^ (bits / 2))

/-- The tuples that the table of a lookup component is to have. -/
inductive Admitted : Component → Nat → List Scalar → Prop where
  | xor {w : Trio} {bound m n : Nat} (hm : m < bound) (hn : n < bound) :
    Admitted (.xor w) bound [.ofNat m, .ofNat n, .ofNat (m ^^^ n)]
  | rangeCheck {column : Nat} {table : String} {bound n : Nat} (hn : n < bound) :
    Admitted (.rangeCheck column table) bound [.ofNat n]

section Listed
variable {l : Catalogue} {packing : Packing} {c packed : Circuit} {columns : List Nat} {usable n : Nat}

/-- A table of a packed catalogue with the tuples of a component: all of them, and no others if the selectors not
    yet handed out were off. -/
structure Listed (c packed : Circuit) (component : Component) (bound : Nat) (target : Target) : Prop where
  handed : c.system.nextSelector ≤ target.tag ∧ target.tag < packed.system.nextSelector
  options : ∀ option ∈ target.options, ∀ v ∈ option, v.kind = .constant ∧ packed.table.Has v
  all : ∀ x, Admitted component bound x → packed.table.Lists target x
  only : (∀ selector row, c.system.nextSelector ≤ selector → c.table.cell .selector selector row = 0) →
    ∀ x, packed.table.Lists target x → Admitted component bound x

theorem bits_of_rangeTable {bits : Nat} {t : Table} (h : rangeTable bits = .ok t) : bits ≤ 20 ∧ t = Lookup.rangeOf bits := by
  unfold rangeTable at h
  split at h
  · rename_i hbits
    exact ⟨hbits.2, (Except.ok.inj h).symm⟩
  · cases h

/-- The numbers below a power of two are the rows of a prefix of a range table. -/
theorem listed_range (hl : l.Built) (hnodup : columns.Nodup) (hpack : l.pack packing c columns usable = .ok (packed, .ok n))
    {bits part : Nat} {t : Table} (hbits : rangeTable bits = .ok t) (ht : l.table? t.name = some t) {subtable : String}
    (hpart : part ≤ bits) (hs : t.subtable? subtable = some ⟨[0], 0, (1 <<< part) - 1, Nat.zero_le _⟩)
    (hr : join (rangeName bits) subtable ∈ l.reserved.toList) (column : Nat) :
    ∃ id target, packed.system.reserved.get? (join (rangeName bits) subtable) = some id ∧
      packed.system.targets.get? id = some target ∧ Listed c packed (.rangeOf column bits subtable) (2 ^ part) target := by
  obtain ⟨hle, rfl⟩ := bits_of_rangeTable hbits
  obtain ⟨id, target, g, hid, htarget, hg, htag, hstocks, honly⟩ :=
    Catalogue.stocks_of_pack hl.sound hnodup hpack ht hs (separator_notMem_rangeName bits hle) hr
  obtain rfl : g = rangeGrid bits := eq_of_columns hg
  have hpos : 0 < 1 <<< part := by simp [Nat.one_shiftLeft]
  have hpow : 1 <<< part = 2 ^ part := Nat.one_shiftLeft part
  have hbound : ∀ {i}, i < 2 ^ part → i < 2 ^ bits := fun hi =>
    Nat.lt_of_lt_of_le hi (Nat.pow_le_pow_right (by decide) hpart)
  refine ⟨id, target, hid, htarget, htag, hstocks.options, fun x hx => ?_, fun hzero x hx => ?_⟩
  · -- A number below the bound is the entry of its own row.
    cases hx with
    | rangeCheck hn =>
      exact hstocks.lists (Nat.zero_le _) (by dsimp only; omega) ((hasTuple_rangeGrid_iff rfl (hbound hn)).mpr rfl)
  · obtain ⟨i, -, hi, htuple⟩ := honly hzero x hx
    have hi' : i < 2 ^ part := by
      dsimp only at hi
      omega
    obtain rfl := (hasTuple_rangeGrid_iff rfl (hbound hi')).mp htuple
    exact .rangeCheck hi'

/-- After a packing the table of a component that is served has the tuples of the component. -/
theorem listed_of_pack (hl : l.Built) (hnodup : columns.Nodup) (hpack : l.pack packing c columns usable = .ok (packed, .ok n))
    {component : Component} {bound : Nat} (hserved : component.Served l bound) :
    ∀ lookup ∈ component.lookups, ∃ id target, packed.system.reserved.get? lookup.1 = some id ∧
      packed.system.targets.get? id = some target ∧ Listed c packed component bound target := by
  intro lookup hlookup
  cases hserved with
  | xor ht hr =>
    obtain rfl := List.mem_singleton.mp hlookup
    obtain ⟨id, target, g, hid, htarget, hg, htag, hstocks, honly⟩ :=
      Catalogue.stocks_of_pack hl.sound hnodup hpack ht (s := ⟨[0, 1, 2], 0, 255, by decide⟩) rfl (by decide) hr
    obtain rfl : g = xorGrid := eq_of_columns hg
    refine ⟨id, target, hid, htarget, htag, hstocks.options, fun x hx => ?_, fun hzero x hx => ?_⟩
    · obtain @⟨_, _, m, n, hm, hn⟩ := hx
      -- Row `16 * m + n` of the table is about `m` and `n`.
      have hdiv : (16 * m + n) / 16 = m := by omega
      have hmod : (16 * m + n) % 16 = n := by omega
      have hlt : 16 * m + n < 256 := by omega
      refine hstocks.lists (Nat.zero_le _) (Nat.le_of_lt_succ hlt) ((hasTuple_xorGrid_iff rfl hlt).mpr ?_)
      rw [hdiv, hmod]
    · obtain ⟨i, -, hi, htuple⟩ := honly hzero x hx
      dsimp only at hi
      obtain rfl := (hasTuple_xorGrid_iff rfl (by omega)).mp htuple
      exact .xor (by omega) (by omega)
  | @full column bits t hbits ht hr =>
    obtain rfl := List.mem_singleton.mp hlookup
    have hs : t.subtable? fullName = some ⟨[0], 0, (1 <<< bits) - 1, Nat.zero_le _⟩ := by
      obtain ⟨hle, rfl⟩ := bits_of_rangeTable hbits
      simp [Table.subtable?, Lookup.rangeOf, (halfName_ne_fullName bits hle).symm]
    exact listed_range hl hnodup hpack hbits ht le_rfl hs hr column
  | @half column bits t hbits ht hr =>
    obtain rfl := List.mem_singleton.mp hlookup
    have hs : t.subtable? (halfName bits) = some ⟨[0], 0, (1 <<< (bits / 2)) - 1, Nat.zero_le _⟩ := by
      obtain ⟨-, rfl⟩ := bits_of_rangeTable hbits
      simp [Table.subtable?, Lookup.rangeOf]
    exact listed_range hl hnodup hpack hbits ht (Nat.div_le_self bits 2) hs hr column

end Listed

/-! ### Any assignment -/

/-- What a lookup component says about its inputs and its result. -/
inductive Enforced (t : Assignment) (bound : Nat) (output : Variable) : (c : Component) → c.Input → Prop where
  | xor {w : Trio} {x y : Variable} {m n : Nat} (hm : m < bound) (hn : n < bound) (hx : t.value x = .ok (.ofNat m))
    (hy : t.value y = .ok (.ofNat n)) (hz : t.value output = .ok (.ofNat (m ^^^ n))) :
    Enforced t bound output (.xor w) (x, y)
  | rangeCheck {column : Nat} {table : String} {x : Variable} {n : Nat} (hn : n < bound)
    (hx : t.value x = .ok (.ofNat n)) (hz : t.value output = .ok (.ofNat n)) :
    Enforced t bound output (.rangeCheck column table) x

section Placed
variable {c : Component} {d placed : Circuit} {input : c.Input} {row : Nat} {output : Variable} {t : Assignment}

/-- What a lookup component turns on was handed out before or is new, and so it marks no table handed out between. -/
theorem isOn_of_place_iff {base : Nat} (hbase : ∀ g ∈ d.system.lookupGates, g.tag < base)
    (hplace : c.place d input row = .ok (output, placed)) {lookup : String × List Expr} (hl : lookup ∈ c.lookups)
    {tag : Nat} (htag : base ≤ tag ∧ tag < d.system.nextSelector) (r : Nat) :
    placed.table.isOn tag r ↔ d.table.isOn tag r := by
  refine ⟨fun hon => ?_, isOn_place hplace⟩
  obtain ⟨selectors, system, hregister, -⟩ := place_eq_ok hplace
  refine (on_or_lit hplace hregister hon).resolve_right fun hlit => ?_
  rcases fired_of_place hplace hregister hlit with ⟨_, _, _, hmem, -⟩ | ⟨_, -, _, -, hg, -⟩
  · rw [(single_of_lookups hl).1] at hmem
    exact List.not_mem_nil hmem
  · rcases (adds_place hplace).lookups _ hg with hg | ⟨hnew, -⟩
    · exact Nat.not_lt.mpr htag.1 (hbase _ hg)
    · exact Nat.not_lt.mpr hnew htag.2

/-- A tuple of a component that is in the row of a satisfied circuit is one about its inputs and its result. -/
theorem enforced_of_holds (hplace : c.place d input row = .ok (output, placed)) (holds : placed.system.Holds t)
    {lookup : String × List Expr} (hl : lookup ∈ c.lookups) {bound : Nat} {x : List Scalar}
    (hx : lookup.2.mapM (·.evaluate (t.valueAt · row)) = .ok x) (hadmitted : Admitted c bound x) :
    c.Enforced t bound output input := by
  have wire := @wire_of_holds _ _ _ _ _ _ _ hplace holds
  obtain ⟨_, _, -, -, -, -, houtput⟩ := place_eq_ok hplace
  cases hadmitted with
  | @xor w _ m n hm hn =>
    obtain rfl := List.mem_singleton.mp hl
    simp only [Trio.toList, List.map_cons, List.map_nil, mapM_eq_ok, List.cons.injEq, and_true,
      evaluate_operand] at hx
    -- The copies bring the inputs into the cells that are looked up.
    obtain ⟨a, hx', ha⟩ := wire (e := (.given input.1, .own w.first row)) List.mem_cons_self
    obtain ⟨b, hy', hb⟩ := wire (e := (.given input.2, .own w.second row)) (List.mem_cons_of_mem _ List.mem_cons_self)
    obtain rfl := Except.ok.inj (ha.symm.trans hx.1)
    obtain rfl := Except.ok.inj (hb.symm.trans hx.2.1)
    exact .xor hm hn hx' hy' ((Assignment.value_at? houtput).trans hx.2.2)
  | @rangeCheck column table _ n hn =>
    obtain rfl := List.mem_singleton.mp hl
    simp only [List.map_cons, List.map_nil, mapM_eq_ok, List.cons.injEq, and_true, evaluate_operand] at hx
    obtain ⟨a, hx', ha⟩ := wire (e := (.given input, .own column row)) List.mem_cons_self
    obtain rfl := Except.ok.inj (ha.symm.trans hx)
    exact .rangeCheck hn hx' ((Assignment.value_at? houtput).trans hx)

end Placed

/-! ### Inputs in range -/

theorem ofNat_val (x : Scalar) : Scalar.ofNat x.val = x := Fin.ext (Nat.mod_eq_of_lt x.isLt)

theorem xorLow_eq {x y : Scalar} (hx : x.val < 16) (hy : y.val < 16) : xorLow x y = .ofNat (x.val ^^^ y.val) := by
  have hlow : ∀ {z : Scalar}, z.val < 16 → z.low64 = z.val := fun hz =>
    Nat.mod_eq_of_lt (Nat.lt_of_lt_of_le hz (by decide))
  rw [xorLow, hlow hx, hlow hy]

/-- From inputs in range a component looks up one of its tuples. -/
theorem Served.admitted {l : Catalogue} {c : Component} {bound : Nat} (h : c.Served l bound) {input : c.Input}
    {read : Variable → Scalar} (hread : ∀ v ∈ c.inputs input, (read v).val < bound) :
    Admitted c bound (c.tuple read input) := by
  have hrange : ∀ {column : Nat} {table : String} {x : Scalar} {bound : Nat}, x.val < bound →
      Admitted (.rangeCheck column table) bound [x] := fun {column table x bound} hx =>
    ofNat_val x ▸ .rangeCheck hx
  cases h with
  | @xor w _ _ =>
    have hx := hread input.1 List.mem_cons_self
    have hy := hread input.2 (List.mem_cons_of_mem _ List.mem_cons_self)
    have hadmitted := Admitted.xor (w := w) hx hy
    rw [ofNat_val, ofNat_val, ← xorLow_eq hx hy] at hadmitted
    exact hadmitted
  | full _ _ _ => exact hrange (hread input (List.mem_singleton_self _))
  | half _ _ _ => exact hrange (hread input (List.mem_singleton_self _))

theorem Enforced.lt {t : Assignment} {bound : Nat} {output : Variable} {c : Component} {input : c.Input}
    (h : c.Enforced t bound output input) : ∀ v ∈ c.inputs input, ∃ x, t.value v = .ok x ∧ x.val < bound := by
  have hval : ∀ {n}, n < bound → (Scalar.ofNat n).val < bound := fun hn => Nat.lt_of_le_of_lt (Nat.mod_le ..) hn
  intro v hv
  cases h with
  | xor hm hn hx hy hz =>
    rcases List.mem_pair.mp hv with rfl | rfl
    · exact ⟨_, hx, hval hm⟩
    · exact ⟨_, hy, hval hn⟩
  | rangeCheck hn hx hz =>
    obtain rfl := List.mem_singleton.mp hv
    exact ⟨_, hx, hval hn⟩

/-! ### Packed circuits -/

section Packed
variable {l : Catalogue} {packing : Packing} {c packed placed : Circuit} {columns : List Nat} {usable n : Nat}
  {component : Component} {input : component.Input} {row bound : Nat} {output : Variable}

theorem Served.exists_lookup (h : component.Served l bound) : ∃ lookup, lookup ∈ component.lookups := by
  cases h <;> exact ⟨_, List.mem_singleton_self _⟩

/-- A satisfied circuit with the constants and selectors of a placed one has a tuple of the component in its row. -/
theorem enforced_of_pack (hl : l.Built) (hs : c.system.Tidy)
    (hzero : ∀ selector row, c.system.nextSelector ≤ selector → c.table.cell .selector selector row = 0)
    (hnodup : columns.Nodup) (hpack : l.pack packing c columns usable = .ok (packed, .ok n))
    (hserved : component.Served l bound) (hplace : component.place packed input row = .ok (output, placed))
    {t : Assignment} (hconstant : ∀ i r, t.cell .constant i r = placed.table.cell .constant i r)
    (hselector : ∀ i r, t.cell .selector i r = placed.table.cell .selector i r)
    (hsat : placed.system.firstViolation t = .ok none) : component.Enforced t bound output input := by
  obtain ⟨ranges, hchanges⟩ := Catalogue.pack_eq_ok hl.sound hnodup hpack
  obtain ⟨lookup, hlookup⟩ := hserved.exists_lookup
  obtain ⟨selectors, system, hregister, -⟩ := place_eq_ok hplace
  have holds := System.firstViolation_eq_none_iff.mp hsat
  have hon : ∀ i r, t.isOn i r = placed.table.isOn i r := fun i r => by
    rw [Assignment.isOn, Assignment.isOn, hselector]
  have hlit : ∀ e ∈ component.lit selectors row, t.isOn e.1 e.2 := fun e he => by
    rw [hon, Assignment.isOn, cell_place hplace hregister, if_pos ⟨rfl, he⟩]
    decide
  obtain ⟨id, target, hid, htarget, hfinds⟩ := lookup_of_holds hplace hregister hlit holds hlookup
  obtain ⟨id', target', hid', htarget', hlisted⟩ := listed_of_pack hl hnodup hpack hserved lookup hlookup
  obtain rfl := Option.some.inj (hid.symm.trans hid')
  rw [(adds_place hplace).targets, htarget'] at htarget
  obtain rfl := Option.some.inj htarget
  obtain ⟨x, hx, hlists⟩ := hfinds.lists
  -- The table is the one that was packed: its constants are, and the component marks no row of it.
  have hpacked : packed.table.Lists target' x := by
    have hcell : ∀ i r, packed.table.cell .constant i r = t.cell .constant i r := fun i r =>
      ((hconstant i r).trans (cell_of_place (k := .constant) hplace (by decide) i r)).symm
    refine hlists.mono (fun option ho v hv => (hlisted.options option ho v hv).1) hcell fun r hr => ?_
    rw [hon] at hr
    refine (isOn_of_place_iff (fun g hg => ?_) hplace hlookup hlisted.handed r).mp hr
    rw [hchanges.kept.lookupGates] at hg
    exact hs.used _ (System.Tidy.mem_tags hg)
  exact enforced_of_holds hplace holds hlookup hx (hlisted.only hzero x hpacked)

/-- Packing leaves a circuit bare, with nothing marked by selectors that were not handed out. -/
theorem bare_of_pack (hl : l.Built) (hbare : c.system.Bare) (hnodup : columns.Nodup)
    (hpack : l.pack packing c columns usable = .ok (packed, .ok n)) : packed.system.Bare := by
  obtain ⟨ranges, hchanges⟩ := Catalogue.pack_eq_ok hl.sound hnodup hpack
  exact ⟨hchanges.kept.gates.trans hbare.gates, hchanges.kept.lookupGates.trans hbare.lookupGates,
    hchanges.kept.copies.trans hbare.copies⟩

theorem fresh_of_pack (hl : l.Built)
    (hzero : ∀ selector row, c.system.nextSelector ≤ selector → c.table.cell .selector selector row = 0)
    (hnodup : columns.Nodup) (hpack : l.pack packing c columns usable = .ok (packed, .ok n)) :
    ∀ selector row, packed.system.nextSelector ≤ selector → packed.table.cell .selector selector row = 0 := by
  obtain ⟨ranges, hchanges⟩ := Catalogue.pack_eq_ok hl.sound hnodup hpack
  exact (hchanges.marked (marked_nil hzero)).fresh

/-- After a packing a component that is served is answered for inputs in range. -/
theorem answered_of_pack (hl : l.Built) (hnodup : columns.Nodup)
    (hpack : l.pack packing c columns usable = .ok (packed, .ok n)) (hserved : component.Served l bound)
    (hrange : ∀ v ∈ component.inputs input, (packed.table.read v).val < bound) : component.Answered packed input := by
  intro lookup hlookup
  obtain ⟨id, target, hid, htarget, hlisted⟩ := listed_of_pack hl hnodup hpack hserved lookup hlookup
  exact ⟨id, target, hid, htarget, hlisted.options, hlisted.all _ (hserved.admitted hrange)⟩

/-- After either packing a lookup component that is placed enforces its relation, whatever is assigned to the witness
    and the public inputs. If nothing else is in the circuit and the inputs exist outside of the component, the
    component can be assigned, and then the circuit is satisfied exactly when its inputs are in range. -/
theorem place_enforces_lookup (hl : l.Built) (hs : c.system.Built)
    (hzero : ∀ selector row, c.system.nextSelector ≤ selector → c.table.cell .selector selector row = 0)
    (hnodup : columns.Nodup) (hpack : l.pack packing c columns usable = .ok (packed, .ok n))
    (hserved : component.Served l bound) (hplace : component.place packed input row = .ok (output, placed)) :
    (∀ t : Assignment, (∀ i r, t.cell .constant i r = placed.table.cell .constant i r) →
      (∀ i r, t.cell .selector i r = placed.table.cell .selector i r) →
      placed.system.firstViolation t = .ok none → component.Enforced t bound output input) ∧
    (c.system.Bare → component.columns.Nodup →
      (∀ v ∈ component.inputs input, packed.table.Has v ∧
        ∀ r, v.position = .row r → ¬ component.Owns row v.kind v.index r) →
      ∃ t, component.assign placed.table input row = .ok (output, t) ∧
        (placed.system.firstViolation t = .ok none ↔
          ∀ v ∈ component.inputs input, (packed.table.read v).val < bound)) := by
  have hsound : ∀ t : Assignment, (∀ i r, t.cell .constant i r = placed.table.cell .constant i r) →
      (∀ i r, t.cell .selector i r = placed.table.cell .selector i r) →
      placed.system.firstViolation t = .ok none → component.Enforced t bound output input := fun t =>
    enforced_of_pack hl hs.tidy hzero hnodup hpack hserved hplace
  refine ⟨hsound, fun hbare hdistinct hinputs => ?_⟩
  obtain ⟨hstanding, hnothing⟩ :=
    Circuit.standing_of_bare (bare_of_pack hl hbare hnodup hpack) (fresh_of_pack hl hzero hnodup hpack)
  have hfits := fits_of_place hplace hdistinct hinputs
  obtain ⟨_, _, -, -, -, -, houtput⟩ := place_eq_ok hplace
  obtain ⟨t, hassign, hfilled⟩ := exists_assign (hfits.place hplace) houtput
  refine ⟨t, hassign, fun hsat v hv => ?_, fun hrange => ?_⟩
  · -- The witness of the component changes no constant and no selector, so what holds is enforced.
    have henforced := hsound t (fun i r => hfilled.writes.cell _ _ _ fun h => nomatch h.1)
      (fun i r => hfilled.writes.cell _ _ _ fun h => nomatch h.1) hsat
    obtain ⟨x, hx, hlt⟩ := henforced.lt v hv
    rw [hfilled.writes.value_eq (hinputs v hv).2] at hx
    rwa [← read_place hplace (hfits.inputs v hv).2.1, Assignment.read_eq hx]
  · -- Inputs below the bound are answered by the table, and nothing else is asked for.
    have hanswered := answered_of_pack hl hnodup hpack hserved hrange
    exact (standing_assign hfits hplace hfilled hstanding (fun k i r h => absurd h (hnothing k i r)) hanswered).firstViolation

/-- A number below four, packed with its table and checked in the first row. -/
theorem enforced_below_four :
    let component : Component := .rangeOf 0 2 fullName
    let x : Variable := ⟨.publicInput, 0, .row 0⟩
    let cell : Variable := ⟨.witness, 0, .row 0⟩
    let c : Circuit := ⟨.empty, ⟨#[#[]], #[#[]], #[#[3]], #[#[], #[]]⟩⟩
    ∃ packed placed t, Catalogue.fours.pack .vertical c [0] 0 = .ok (packed, .ok 5) ∧
      component.place packed x 0 = .ok (cell, placed) ∧ component.assign placed.table x 0 = .ok (cell, t) ∧
        placed.system.firstViolation t = .ok none ∧ component.Enforced t 4 cell x := by
  intro component x cell c
  let system : System := { System.empty with
    targets := ⟨[(1, ⟨0, 1, [[.constant 0 0]]⟩)], by decide⟩
    reserved := ⟨[(join (rangeName 2) fullName, 1)], by decide⟩
    nextSelector := 1 }
  let packed : Circuit := ⟨system, ⟨#[#[]], #[#[0, 0, 1, 2, 3]], #[#[3]], #[#[0, 1, 1, 1, 1], #[]]⟩⟩
  let placed : Circuit :=
    ⟨{ system with lookupGates := [⟨1, [⟨1, [operand 0]⟩]⟩], copies := [⟨x, cell⟩], nextSelector := 2 },
      ⟨#[#[]], #[#[0, 0, 1, 2, 3]], #[#[3]], #[#[0, 1, 1, 1, 1], #[1]]⟩⟩
  have hzero : ∀ selector row, 0 ≤ selector → c.table.cell .selector selector row = 0 :=
    fun _ _ => Assignment.cell_of_empty (by decide)
  have hpack : Catalogue.fours.pack .vertical c [0] 0 = .ok (packed, .ok 5) := by cbv
  have hserved : component.Served .fours 4 := .full (t := Lookup.rangeOf 2) rfl rfl (by decide)
  have hplace : component.place packed x 0 = .ok (cell, placed) := by cbv
  obtain ⟨hsound, hcomplete⟩ := place_enforces_lookup Catalogue.built_fours .empty hzero (by decide) hpack hserved hplace
  obtain ⟨t, hassign, hiff⟩ := hcomplete ⟨rfl, rfl, rfl⟩ (by decide) (by
    intro v hv
    obtain rfl := List.mem_singleton.mp hv
    exact ⟨by decide, fun r hr h => absurd h.1 (by decide)⟩)
  have hsat : placed.system.firstViolation t = .ok none := hiff.mpr (by
    intro v hv
    obtain rfl := List.mem_singleton.mp hv
    decide)
  have ht : t = ⟨#[#[3]], #[#[0, 0, 1, 2, 3]], #[#[3]], #[#[0, 1, 1, 1, 1], #[1]]⟩ := by
    have hassign' : component.assign placed.table x 0 = .ok (cell, ⟨#[#[3]], #[#[0, 0, 1, 2, 3]], #[#[3]],
      #[#[0, 1, 1, 1, 1], #[1]]⟩) := by rfl
    exact (Prod.mk.inj (Except.ok.inj (hassign.symm.trans hassign'))).2
  refine ⟨packed, placed, t, hpack, hplace, hassign, hsat, hsound t ?_ ?_ hsat⟩
  · exact fun i r => ht ▸ rfl
  · exact fun i r => ht ▸ rfl

end Packed

end Component
end Plonkish
