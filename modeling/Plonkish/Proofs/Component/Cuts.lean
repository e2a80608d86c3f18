import Mathlib
import Plonkish.Proofs.Component.Surroundings

/-! A running sum has no copy to spare. Its cells and inputs fall into terms: a term has an input and the cells of
    one row (`OfTerm`). Gates and the copies of inputs stay within a term, and one copy links each term to the one
    before it (`SumEdge`). So without the copy of an input nothing is left at that input, and without a link no edge
    leads from the terms above it to those below. Either way an input is cut off from the result
    (`exists_cut`). -/

namespace Plonkish
open Component Zone

/-! ### Cuts -/

namespace Zone
variable {s : System} {t : Assignment} {sp : Space} {inputs : List Variable} {v w : Variable}

/-- Chains stay on one side of what no edge crosses. -/
theorem not_reaches_of_cut {side : Variable → Prop} (hedge : ∀ v w, Edge s t sp v w → (side v ↔ side w))
    (hv : side v) (hw : ¬ side w) : ¬ Reaches s t sp v w := fun h => by
  have hsame : side v = side w := Setoid.eqvGen_le (s := .ker side) (fun v w h => propext (hedge v w h)) h
  exact hw (hsame ▸ hv)

/-- No check of the wiring passes where an input does not reach the only output. -/
theorem not_connected_of_cut (hv : v ∈ inputs) (hcut : ¬ Reaches s t sp v w) {wiring : Wiring}
    (hwiring : wiring ≠ .none) (islands : Bool) : ¬ Connected ⟨wiring, islands⟩ s t sp inputs [w] := by
  rintro ⟨hwired, -⟩
  cases wiring with
  | none => exact hwiring rfl
  | weak =>
    obtain ⟨-, u, hu, hreach⟩ := hwired.2 v hv
    obtain rfl := List.mem_singleton.mp hu
    exact hcut hreach
  | strong =>
    rcases hwired with hnil | ⟨-, hreach⟩
    · exact List.cons_ne_nil _ _ (List.append_eq_nil_iff.mp hnil).2
    · exact hcut (hreach v (List.mem_append_left _ hv) w (List.mem_append_right _ (List.mem_singleton_self _)))

end Zone

/-! ### Copies by their index -/

/-- Copies do not turn anything on. -/
theorem System.active_of_copies {s : System} {copies : List Copy} {t : Assignment} {row : Nat} {xs : List Expr} :
    System.Active { s with copies } t row xs ↔ s.Active t row xs := by
  constructor
  · intro h
    cases h with
    | gate hg hon hxs => exact .gate hg hon hxs
    | lookup hg hon hxs => exact .lookup hg hon hxs
  · intro h
    cases h with
    | gate hg hon hxs => exact .gate hg hon hxs
    | lookup hg hon hxs => exact .lookup hg hon hxs

theorem Zones.exists_make_of_copies {s : System} {copies : List Copy} {t : Assignment} {inputs outputs : List Variable}
    {start rows : Nat} : (∃ z, Zones.make { s with copies } t inputs outputs start rows = .ok z) ↔
      ∃ z, Zones.make s t inputs outputs start rows = .ok z := by
  simp only [(Zones.faults_make _ _ _ _ _ _).ok_iff, System.Overruns, System.active_of_copies]

theorem System.removeCopy_of_lt {s : System} {k : Nat} (h : k < s.copies.length) :
    s.removeCopy k = .ok (s.copies[k], { s with copies := s.copies.eraseIdx k }) := by
  rw [removeCopy, List.getElem?_eq_getElem h]

namespace Component
variable {c : Component} {d placed : Circuit} {input : c.Input} {row : Nat} {output : Variable}

/-- The cell at an end of a copy. -/
def End.cell : End → Variable
  | given v => v
  | own column row => Component.cell column row

theorem End.eq_cell {e : End} {v : Variable} (h : e.variable = .ok v) : v = e.cell := by
  cases e with
  | given w => exact (Except.ok.inj h).symm
  | own column row => exact eq_of_at? h

theorem copies_addWires {s t : System} {wires : List (End × End)} (h : addWires s wires = .ok t) :
    t.copies = s.copies ++ wires.map fun e => ⟨e.1.cell, e.2.cell⟩ := by
  induction wires generalizing s with
  | nil =>
    obtain rfl := Except.ok.inj h
    exact (List.append_nil _).symm
  | cons e rest ih =>
    obtain ⟨v, w, s₁, hv, hw, hcopy, hrest⟩ := addWires_cons_eq_ok h
    obtain ⟨-, -, rfl⟩ := System.addCopy_cases hcopy
    rw [ih hrest, End.eq_cell hv, End.eq_cell hw, List.map_cons, List.append_assoc, List.singleton_append]

/-- Placing a component adds its wires to the copies, in their order. -/
theorem copies_place (h : c.place d input row = .ok (output, placed)) :
    placed.system.copies = d.system.copies ++ (c.wires input row).map fun e => ⟨e.1.cell, e.2.cell⟩ := by
  obtain ⟨selectors, system, hregister, -, -, hwires, -⟩ := place_eq_ok h
  have hcopies : system.copies = d.system.copies := by
    refine register_preserves (·.copies = d.system.copies) (fun _ ht hq => ?_) (fun _ _ ht hq => ?_) hregister rfl
    · obtain ⟨rfl, -⟩ | ⟨-, -, rfl⟩ := System.addGate_cases ht <;> exact hq
    · obtain ⟨rfl, -⟩ | ⟨-, -, rfl⟩ := System.addLookupGate_cases ht <;> exact hq
  rw [copies_addWires hwires, hcopies]

/-- The check of a placed component answers whether it is connected, if its zones can be made. -/
theorem exists_connected (hrows : row + c.rows ≤ Variable.rowLimit)
    (hmake : ∃ z, Zones.make d.system d.table (c.inputs input) [c.result row] row c.rows = .ok z) (check : Check) :
    ∃ b, c.connected d input row check = .ok b ∧ (b = true ↔ Connected check d.system d.table
      (Space.ofTable d.table (c.inputs input ++ [c.result row]) row c.rows) (c.inputs input) [c.result row]) := by
  obtain ⟨z, hz⟩ := hmake
  obtain ⟨b, hb⟩ : ∃ b, check.run d.system d.table (c.inputs input) [c.result row] row c.rows = .ok b := by
    unfold Check.run
    split
    · exact ⟨true, rfl⟩
    · exact ⟨_, map_eq_ok.mpr ⟨z, hz, rfl⟩⟩
  exact ⟨b, bind_eq_ok.mpr ⟨_, output_eq_ok hrows, hb⟩, Check.run_eq_true_iff hb⟩

/-! ### When a running sum has room -/

variable {w : Trio} {terms : Nat} {pos : 0 < terms} {values : List Variable}

/-- From no gates on, the gates of a running sum get the next two selectors. -/
theorem register_runningSum {s : System} (hbare : s.Bare) : ∃ system,
    (runningSum w terms pos).register s = .ok ([s.nextSelector, s.nextSelector + 1], system) := by
  obtain ⟨_, _, hregister⟩ : ∃ selectors system, (runningSum w terms pos).register s = .ok (selectors, system) :=
    exists_register fun _ hl => absurd hl List.not_mem_nil
  obtain ⟨_, hgates, hends⟩ := bind_eq_ok.mp hregister
  obtain ⟨⟨first, s₁⟩, hfirst, hgates⟩ := bind_eq_ok.mp hgates
  obtain ⟨_, hrest, hgates⟩ := bind_eq_ok.mp hgates
  obtain ⟨⟨second, s₂⟩, hsecond, hrest⟩ := bind_eq_ok.mp hrest
  obtain rfl := Except.ok.inj hrest
  obtain rfl := Except.ok.inj hgates
  obtain ⟨rfl, rfl⟩ := Prod.mk.inj (Except.ok.inj hends)
  -- Neither gate is known: at first there are none, and the constraints of the two differ.
  obtain ⟨-, hmem⟩ | ⟨-, rfl, rfl⟩ := System.addGate_cases hfirst
  · exact absurd (hbare.gates ▸ hmem) List.not_mem_nil
  obtain ⟨-, hmem⟩ | ⟨-, rfl, -⟩ := System.addGate_cases hsecond
  · simp [hbare.gates, operand] at hmem
  exact ⟨_, hregister⟩

/-- The first gate is on in the first row, the second in those below. A single term has none below. -/
theorem exists_enable_runningSum_iff {t : Assignment} {selector : Nat} :
    (∃ t', (runningSum w terms pos).enable [selector, selector + 1] t row = .ok t') ↔
      selector + min terms 2 ≤ t.width .selector := by
  have hsplit : (∃ t', (runningSum w terms pos).enable [selector, selector + 1] t row = .ok t') ↔
      ∃ t₁, t.enableRange selector (row + 0) (row + 1) = .ok t₁ ∧
        ∃ t₂, t₁.enableRange (selector + 1) (row + 1) (row + terms) = .ok t₂ := by
    constructor
    · rintro ⟨t', h⟩
      obtain ⟨t₁, h₁, h⟩ := bind_eq_ok.mp h
      obtain ⟨t₂, h₂, -⟩ := bind_eq_ok.mp h
      exact ⟨t₁, h₁, t₂, h₂⟩
    · rintro ⟨t₁, h₁, t₂, h₂⟩
      exact ⟨t₂, bind_eq_ok.mpr ⟨t₁, h₁, bind_eq_ok.mpr ⟨t₂, h₂, rfl⟩⟩⟩
  rw [hsplit]
  constructor
  · rintro ⟨t₁, h₁, h₂⟩
    -- A range without rows needs no column: a sum of one term has no second selector.
    have hfirst := Assignment.exists_enableRange_iff.mp ⟨t₁, h₁⟩
    have hsecond := Assignment.exists_enableRange_iff.mp h₂
    rw [Assignment.width_enableRange h₁] at hsecond
    omega
  · intro hroom
    obtain ⟨t₁, h₁⟩ : ∃ t₁, t.enableRange selector (row + 0) (row + 1) = .ok t₁ :=
      Assignment.exists_enableRange (by omega) _ _
    refine ⟨t₁, h₁, Assignment.exists_enableRange_iff.mpr ?_⟩
    rw [Assignment.width_enableRange h₁]
    omega

/-- From no gates on, a running sum can be placed exactly if it is seated and there are columns for its selectors. -/
theorem exists_place_runningSum_iff (hbare : d.system.Bare) :
    (∃ output placed, (runningSum w terms pos).place d values row = .ok (output, placed)) ↔
      (runningSum w terms pos).Seated d.table values row ∧
        d.system.nextSelector + min terms 2 ≤ d.table.width .selector := by
  obtain ⟨system, hregister⟩ : ∃ system, (runningSum w terms pos).register d.system =
      .ok ([d.system.nextSelector, d.system.nextSelector + 1], system) := register_runningSum hbare
  constructor
  · rintro ⟨output, placed, hplace⟩
    obtain ⟨selectors, system', hregister', henable, -⟩ := place_eq_ok hplace
    obtain ⟨rfl, rfl⟩ := Prod.mk.inj (Except.ok.inj (hregister.symm.trans hregister'))
    exact ⟨seated_of_place hplace, exists_enable_runningSum_iff.mp ⟨_, henable⟩⟩
  · rintro ⟨hseated, hroom⟩
    obtain ⟨table, henable⟩ := exists_enable_runningSum_iff.mpr hroom
    exact ⟨_, exists_place_of_enable hseated hregister henable⟩

/-! ### Terms -/

/-- A cell belongs to a term of a running sum: it is the input, or a cell of the component in the row of the term. -/
def OfTerm (w : Trio) (values : List Variable) (row k : Nat) (v : Variable) : Prop :=
  values[k]? = some v ∨ k < values.length ∧ ∃ i ∈ w.toList, v = cell i (row + k)

/-- The edges around a running sum without the copy at index `m`. -/
inductive SumEdge (w : Trio) (values : List Variable) (row m : Nat) (v u : Variable) : Prop where
  | gate {k i j : Nat} (hk : k < values.length) (hi : i ∈ w.toList) (hj : j ∈ w.toList) (hv : v = cell i (row + k))
    (hu : u = cell j (row + k))
  | input {k : Nat} (hk : k ≠ m) (hv : values[k]? = some v) (hu : u = cell w.first (row + k))
  | link {k : Nat} (hk : values.length + k ≠ m) (hlt : k + 1 < values.length) (hv : v = cell w.second (row + k + 1))
    (hu : u = cell w.third (row + k))

theorem OfTerm.cell {k i : Nat} (hk : k < values.length) (hi : i ∈ w.toList) :
    OfTerm w values row k (Component.cell i (row + k)) := Or.inr ⟨hk, i, hi, rfl⟩

variable {k l m : Nat} {v u : Variable}

section Inputs
variable (hnodup : values.Nodup)
  (hout : ∀ v ∈ values, ∀ r, v.position = .row r →
    ¬ (v.kind = .witness ∧ v.index ∈ w.toList ∧ row ≤ r ∧ r < row + values.length))
include hout

/-- The cells of a running sum are not among its inputs. -/
theorem getElem?_ne_cell {i : Nat} (hi : i ∈ w.toList) (hk : k < values.length) :
    values[m]? ≠ some (cell i (row + k)) := fun h =>
  hout _ (List.mem_of_getElem? h) (row + k) rfl ⟨rfl, hi, Nat.le_add_right row k, Nat.add_lt_add_left hk row⟩

include hnodup

/-- No cell belongs to two terms. -/
theorem OfTerm.unique (h : OfTerm w values row k v) (h' : OfTerm w values row l v) : k = l := by
  rcases h with h | ⟨hk, i, hi, rfl⟩
  · rcases h' with h' | ⟨hl, j, hj, rfl⟩
    · exact (List.getElem?_inj (List.getElem?_eq_some_iff.mp h).1 hnodup).mp (h.trans h'.symm)
    · exact absurd h (getElem?_ne_cell hout hj hl)
  · rcases h' with h' | ⟨-, j, -, heq⟩
    · exact absurd h' (getElem?_ne_cell hout hi hk)
    · have hrow : row + k = row + l := Position.row.inj (congrArg Variable.position heq)
      omega

theorem OfTerm.le_iff (h : OfTerm w values row k v) : (∃ j ≤ l, OfTerm w values row j v) ↔ k ≤ l :=
  ⟨fun ⟨_, hj, hv⟩ => OfTerm.unique hnodup hout h hv ▸ hj, fun hk => ⟨k, hk, h⟩⟩

/-- Without its copy no edge is left at an input. -/
theorem cut_input (h : SumEdge w values row m v u) : values[m]? = some v ↔ values[m]? = some u := by
  cases h with
  | gate hk hi hj hv hu =>
    subst hv hu
    exact iff_of_false (getElem?_ne_cell hout hi hk) (getElem?_ne_cell hout hj hk)
  | @input k hk hv hu =>
    subst hu
    have hlt : k < values.length := (List.getElem?_eq_some_iff.mp hv).1
    refine iff_of_false (fun h => hk ?_) (getElem?_ne_cell hout List.mem_cons_self hlt)
    exact (List.getElem?_inj hlt hnodup).mp (hv.trans h.symm)
  | link _ hlt hv hu =>
    subst hv hu
    exact iff_of_false (getElem?_ne_cell hout (by simp [Trio.toList]) hlt)
      (getElem?_ne_cell hout (by simp [Trio.toList]) (Nat.lt_of_succ_lt hlt))

/-- Without the link from a term to the next no edge leads from the terms up to it to those after it. -/
theorem cut_link (h : SumEdge w values row (values.length + l) v u) :
    (∃ j ≤ l, OfTerm w values row j v) ↔ ∃ j ≤ l, OfTerm w values row j u := by
  cases h with
  | gate hk hi hj hv hu =>
    subst hv hu
    rw [(OfTerm.cell hk hi).le_iff hnodup hout, (OfTerm.cell hk hj).le_iff hnodup hout]
  | input hk hv hu =>
    subst hu
    have hlt := (List.getElem?_eq_some_iff.mp hv).1
    have hinput : OfTerm w values row _ v := Or.inl hv
    rw [hinput.le_iff hnodup hout, (OfTerm.cell hlt List.mem_cons_self).le_iff hnodup hout]
  | @link k hk hlt hv hu =>
    subst hv hu
    have hbelow : OfTerm w values row (k + 1) (Component.cell w.second (row + k + 1)) :=
      .cell hlt (by simp [Trio.toList])
    have habove : OfTerm w values row k (Component.cell w.third (row + k)) :=
      .cell (Nat.lt_of_succ_lt hlt) (by simp [Trio.toList])
    rw [hbelow.le_iff hnodup hout, habove.le_iff hnodup hout]
    omega

/-- Whichever copy is missing, there is an input and a side of it that no edge leaves and the result is not on. -/
theorem exists_cut (hm : m < 2 * values.length - 1) : ∃ v ∈ values, ∃ side : Variable → Prop, side v ∧
    ¬ side (cell w.third (row + values.length - 1)) ∧ ∀ v u, SumEdge w values row m v u → (side v ↔ side u) := by
  have hlast : row + values.length - 1 = row + (values.length - 1) := by omega
  have hthird : w.third ∈ w.toList := by simp [Trio.toList]
  rw [hlast]
  rcases Nat.lt_or_ge m values.length with hinput | hlink
  · exact ⟨values[m], List.getElem_mem hinput, fun v => values[m]? = some v, List.getElem?_eq_getElem hinput,
      getElem?_ne_cell hout hthird (by omega), fun _ _ => cut_input hnodup hout⟩
  · obtain ⟨l, rfl⟩ := Nat.exists_eq_add_of_le hlink
    have hpos : 0 < values.length := by omega
    have hresult : OfTerm w values row (values.length - 1) (cell w.third (row + (values.length - 1))) :=
      .cell (by omega) hthird
    refine ⟨values[0], List.getElem_mem hpos, fun v => ∃ j ≤ l, OfTerm w values row j v,
      ⟨0, Nat.zero_le l, Or.inl (List.getElem?_eq_getElem hpos)⟩, fun h => ?_, fun _ _ => cut_link hnodup hout⟩
    have hle := (hresult.le_iff hnodup hout).mp h
    omega

end Inputs

/-! ### The edges of a placed running sum -/

/-- The copies of a running sum by their index: one for each input, then the links. -/
theorem copy_cases (hlength : values.length = terms)
    (h : (((runningSum w terms pos).wires values row).map fun e => (⟨e.1.cell, e.2.cell⟩ : Copy))[m]? = some ⟨v, u⟩) :
    (values[m]? = some v ∧ u = cell w.first (row + m)) ∨ ∃ k, m = values.length + k ∧ k + 1 < values.length ∧
      v = cell w.second (row + k + 1) ∧ u = cell w.third (row + k) := by
  simp only [wires, List.map_append, List.map_map] at h
  rcases Nat.lt_or_ge m values.length with hm | hm
  · rw [List.getElem?_append_left (by simpa using hm), List.getElem?_map, List.getElem?_zipIdx,
      List.getElem?_eq_getElem hm] at h
    obtain ⟨rfl, rfl⟩ := Copy.mk.inj (Option.some.inj h)
    exact Or.inl ⟨List.getElem?_eq_getElem hm, rfl⟩
  · obtain ⟨k, rfl⟩ := Nat.exists_eq_add_of_le hm
    rw [List.getElem?_append_right (by simp), List.length_map, List.length_zipIdx, Nat.add_sub_cancel_left,
      List.getElem?_map] at h
    obtain ⟨r, hr, h⟩ := Option.map_eq_some_iff.mp h
    obtain ⟨hk, rfl⟩ := List.getElem?_eq_some_iff.mp hr
    rw [List.length_range'] at hk
    rw [List.getElem_range', Nat.one_mul] at h
    obtain ⟨rfl, rfl⟩ := Copy.mk.inj h
    exact Or.inr ⟨k, rfl, by omega, rfl, rfl⟩

theorem length_copies (hlength : values.length = terms) :
    (((runningSum w terms pos).wires values row).map fun e => (⟨e.1.cell, e.2.cell⟩ : Copy)).length =
      2 * terms - 1 := by
  simp only [wires, List.length_map, List.length_append, List.length_zipIdx, List.length_range', hlength]
  omega

section Alone
variable (hcomposed : Composed [⟨runningSum w terms pos, values, row⟩] d) (hlength : values.length = terms)
  (hcopies : d.system.copies = ((runningSum w terms pos).wires values row).map fun e => ⟨e.1.cell, e.2.cell⟩)
  {sp : Space}
include hcomposed hlength hcopies

/-- Around a running sum on its own, without one of its copies, there are only the edges of its gates and of the other
    copies. -/
theorem sumEdge_of_edge (h : Edge { d.system with copies := d.system.copies.eraseIdx m } d.table sp v u) :
    SumEdge w values row m v u := by
  obtain ⟨-, ⟨r, xs, -, hactive, hv, hu⟩ | hcopy⟩ := edge_iff.mp h
  · obtain ⟨p, hp, hactive⟩ := (hcomposed.active r xs).mp (System.active_of_copies.mp hactive)
    obtain rfl := List.mem_singleton.mp hp
    obtain ⟨hlo, hhi⟩ := Active.mem_rows hactive
    obtain ⟨k, rfl⟩ := Nat.exists_eq_add_of_le hlo
    obtain ⟨i, hi, rfl⟩ := Active.eq_cell hactive hv
    obtain ⟨j, hj, rfl⟩ := Active.eq_cell hactive hu
    exact .gate (hlength ▸ Nat.lt_of_add_lt_add_left hhi) hi hj rfl rfl
  · obtain ⟨k, hk, hcopy⟩ := List.mem_eraseIdx_iff_getElem?.mp hcopy
    rw [hcopies] at hcopy
    rcases copy_cases hlength hcopy with ⟨hv, hu⟩ | ⟨l, rfl, hlt, hv, hu⟩
    · exact .input hk hv hu
    · exact .link hk hlt hv hu

theorem not_connected_of_missing (hnodup : values.Nodup)
    (hout : ∀ v ∈ values, ∀ r, v.position = .row r → ¬ (runningSum w terms pos).Owns row v.kind v.index r)
    (hm : m < 2 * terms - 1) {wiring : Wiring} (hwiring : wiring ≠ .none) (islands : Bool) :
    ¬ Connected ⟨wiring, islands⟩ { d.system with copies := d.system.copies.eraseIdx m } d.table sp values
      [(runningSum w terms pos).result row] := by
  obtain ⟨v, hv, side, hside, hresult, hcut⟩ : ∃ v ∈ values, ∃ side : Variable → Prop, side v ∧
      ¬ side (cell w.third (row + values.length - 1)) ∧ ∀ v u, SumEdge w values row m v u → (side v ↔ side u) :=
    exists_cut hnodup (hlength ▸ hout) (hlength ▸ hm)
  rw [hlength] at hresult
  refine not_connected_of_cut hv (not_reaches_of_cut (fun v u hedge => ?_) hside hresult) hwiring islands
  exact hcut v u (sumEdge_of_edge hcomposed hlength hcopies hedge)

end Alone

/-- Placed where there are no gates and copies, a running sum of distinct inputs outside of it makes one copy for each
    input and one from each row to the next, and its inputs and its result are wired. Without any one of the copies they
    are not. It can be placed exactly if it is seated and its gates have selectors. -/
theorem runningSum_needs_every_copy {c : Circuit} (hbare : c.system.Bare)
    (hfresh : ∀ selector row, c.system.nextSelector ≤ selector → c.table.cell .selector selector row = 0)
    (hnodup : values.Nodup)
    (hout : ∀ v ∈ values, ∀ r, v.position = .row r → ¬ (runningSum w terms pos).Owns row v.kind v.index r) :
    let sum := runningSum w terms pos
    ((∃ output d, sum.place c values row = .ok (output, d)) ↔
      sum.Seated c.table values row ∧ c.system.nextSelector + min terms 2 ≤ c.table.width .selector) ∧
    ∀ output d, sum.place c values row = .ok (output, d) →
      d.system.copies.length = 2 * terms - 1 ∧
      (∀ islands, sum.connected d values row ⟨.strong, islands⟩ = .ok true) ∧
      ∀ m < 2 * terms - 1, ∃ copy s, d.system.removeCopy m = .ok (copy, s) ∧ ∀ wiring, wiring ≠ .none → ∀ islands,
        sum.connected { d with system := s } values row ⟨wiring, islands⟩ = .ok false := by
  intro sum
  refine ⟨exists_place_runningSum_iff hbare, fun output d hplace => ?_⟩
  let part : Part := ⟨sum, values, row⟩
  have hcomposed : Composed [part] d := (composed_nil hbare hfresh).place hplace
  have hpart : part ∈ [part] := List.mem_singleton_self _
  have hseated : sum.Seated d.table values row := hcomposed.seated part hpart
  have hlength : values.length = terms := length_of_checkInput hseated.arity
  have hcopies : d.system.copies = (sum.wires values row).map fun e => ⟨e.1.cell, e.2.cell⟩ := by
    rw [copies_place hplace, hbare.copies, List.nil_append]
  have hcount : d.system.copies.length = 2 * terms - 1 := by rw [hcopies, length_copies hlength]
  have hmake : ∃ z, Zones.make d.system d.table values [sum.result row] row terms = .ok z :=
    hcomposed.exists_make _ _ _ _
  refine ⟨hcount, fun islands => ?_, fun m hm => ?_⟩
  · -- With all copies the part is wired as every placed part is.
    obtain ⟨b, hb, hconnected⟩ := exists_connected hseated.rows hmake ⟨.strong, islands⟩
    rw [hb, hconnected.mpr ⟨hcomposed.stronglyWired hpart,
      fun _ => hcomposed.withoutIslands hpart (List.pairwise_singleton ..)⟩]
  · -- Without one of them the check still runs, and some input is cut off from the result.
    refine ⟨_, _, System.removeCopy_of_lt (hcount ▸ hm), fun wiring hwiring islands => ?_⟩
    have hmake' : ∃ z, Zones.make { d.system with copies := d.system.copies.eraseIdx m } d.table values
        [sum.result row] row terms = .ok z := Zones.exists_make_of_copies.mpr hmake
    let without : Circuit := { d with system := { d.system with copies := d.system.copies.eraseIdx m } }
    obtain ⟨b, hb, hconnected⟩ : ∃ b, sum.connected without values row ⟨wiring, islands⟩ = .ok b ∧ (b = true ↔ _) :=
      exists_connected hseated.rows hmake' _
    have hnot : ¬ b = true := fun h =>
      not_connected_of_missing hcomposed hlength hcopies hnodup hout hm hwiring islands (hconnected.mp h)
    rw [hb, Bool.eq_false_iff.mpr hnot]

/-- Two public inputs and a witness cell above the sum: three copies of inputs and two links. -/
theorem runningSum_of_three_inputs :
    let sum : Component := .runningSum ⟨0, 1, 2⟩ 3 (by decide)
    let values : List Variable := [⟨.publicInput, 0, .row 0⟩, ⟨.publicInput, 0, .row 1⟩, ⟨.witness, 1, .row 0⟩]
    let c : Circuit := ⟨.empty, .blank 3 0 1 2⟩
    ∃ output d, sum.place c values 1 = .ok (output, d) ∧ d.system.copies.length = 5 ∧
      sum.connected d values 1 ⟨.strong, false⟩ = .ok true ∧ ∀ m < 5, ∃ copy s, d.system.removeCopy m = .ok (copy, s) ∧
        ∀ wiring, wiring ≠ .none → sum.connected { d with system := s } values 1 ⟨wiring, false⟩ = .ok false := by
  intro sum values c
  have hbare : c.system.Bare := ⟨rfl, rfl, rfl⟩
  have hfresh : ∀ selector row, c.system.nextSelector ≤ selector → c.table.cell .selector selector row = 0 :=
    fun _ _ _ => Assignment.cell_blank ..
  have hout : ∀ v ∈ values, ∀ r, v.position = .row r → ¬ sum.Owns 1 v.kind v.index r := by
    simp only [values, List.forall_mem_cons]
    refine ⟨fun r _ h => ColumnKind.noConfusion h.1, fun r _ h => ColumnKind.noConfusion h.1, fun r hr h => ?_,
      fun _ hv => absurd hv List.not_mem_nil⟩
    obtain rfl := Position.row.inj hr
    exact absurd h.2.2.1 (by decide)
  have hseated : sum.Seated c.table values 1 := ⟨by decide, by decide, rfl, by decide⟩
  obtain ⟨hplace, hanswers⟩ := runningSum_needs_every_copy hbare hfresh (by decide : values.Nodup) hout
  obtain ⟨output, d, hplace⟩ := hplace.mpr ⟨hseated, by decide⟩
  obtain ⟨hcount, hconnected, hmissing⟩ := hanswers output d hplace
  refine ⟨output, d, hplace, hcount, hconnected false, fun m hm => ?_⟩
  obtain ⟨copy, s, hremove, hcut⟩ := hmissing m hm
  exact ⟨copy, s, hremove, fun wiring hwiring => hcut wiring hwiring false⟩

end Component
end Plonkish
