import Plonkish.Zone.Address
import Mathlib.Data.List.Nodup

/-! Addresses name cells. No two variables share an address (`address?_inj`), and for a boundary of
    absolute variables every number below the size of the space is the address of a cell
    (`exists_address?`). -/

namespace Plonkish
namespace Zone
namespace Space
variable {s : Space}

/-! ### No collisions -/

theorem mul_add_inj {a b c d n : Nat} (hb : b < n) (hd : d < n) (h : a * n + b = c * n + d) :
    a = c ∧ b = d := by
  have hn : 0 < n := Nat.zero_lt_of_lt hb
  have hac : a = c := by
    have hdiv := congrArg (· / n) h
    simpa [Nat.mul_comm _ n, Nat.mul_add_div hn, Nat.div_eq_of_lt hb, Nat.div_eq_of_lt hd] using hdiv
  subst hac
  exact ⟨rfl, Nat.add_left_cancel h⟩

/-- The place of a cell in a row of the window. -/
def PlaceOf (s : Space) (kind : ColumnKind) (index place : Nat) : Prop :=
  kind = .witness ∧ index < s.witnesses ∧ place = index ∨
    kind = .constant ∧ index < s.constants ∧ place = s.witnesses + index

theorem PlaceOf.lt {kind : ColumnKind} {index place : Nat} (h : s.PlaceOf kind index place) :
    place < s.rowSize := by
  unfold rowSize
  rcases h with ⟨-, h, rfl⟩ | ⟨-, h, rfl⟩ <;> omega

theorem PlaceOf.inj {k l : ColumnKind} {i j place : Nat} (h : s.PlaceOf k i place) (h' : s.PlaceOf l j place) :
    k = l ∧ i = j := by
  rcases h with ⟨rfl, h, rfl⟩ | ⟨rfl, h, rfl⟩ <;> rcases h' with ⟨rfl, h', he⟩ | ⟨rfl, h', he⟩
  · exact ⟨rfl, he⟩
  · omega
  · omega
  · exact ⟨rfl, by omega⟩

theorem gridAddress?_eq_some_iff {kind : ColumnKind} {index row a : Nat} :
    s.gridAddress? kind index row = some a ↔
      (∃ place, s.inWindow row ∧ s.PlaceOf kind index place ∧ s.windowCell row place = a) ∨
        kind = .publicInput ∧ index < s.publicInputs ∧ row < s.publicRows ∧ s.publicCell index row = a := by
  cases kind <;> simp [gridAddress?, PlaceOf, and_assoc]

theorem windowCell_inj {row row' place place' : Nat} (hr : s.inWindow row) (hr' : s.inWindow row')
    (hp : place < s.rowSize) (hp' : place' < s.rowSize) (h : s.windowCell row place = s.windowCell row' place') :
    row = row' ∧ place = place' := by
  simp only [inWindow, decide_eq_true_eq] at hr hr'
  obtain ⟨hrow, hplace⟩ := mul_add_inj hp hp' h
  exact ⟨by omega, hplace⟩

theorem windowSize_le_publicCell (column row : Nat) : s.windowSize ≤ s.publicCell column row := by
  unfold publicCell
  omega

theorem gridAddress?_inj {k l : ColumnKind} {i j r r' a : Nat} (h : s.gridAddress? k i r = some a)
    (h' : s.gridAddress? l j r' = some a) : k = l ∧ i = j ∧ r = r' := by
  rcases gridAddress?_eq_some_iff.mp h with ⟨p, hr, hp, rfl⟩ | ⟨rfl, hi, hr, rfl⟩
  · rcases gridAddress?_eq_some_iff.mp h' with ⟨p', hr', hp', he⟩ | ⟨rfl, hj, hr', he⟩
    · obtain ⟨rfl, rfl⟩ := windowCell_inj hr' hr hp'.lt hp.lt he
      obtain ⟨rfl, rfl⟩ := hp.inj hp'
      exact ⟨rfl, rfl, rfl⟩
    · have hlt := windowCell_lt hr hp.lt
      have hle := s.windowSize_le_publicCell j r'
      omega
  · rcases gridAddress?_eq_some_iff.mp h' with ⟨p', hr', hp', he⟩ | ⟨rfl, hj, hr', he⟩
    · have hlt := windowCell_lt hr' hp'.lt
      have hle := s.windowSize_le_publicCell i r
      omega
    · unfold publicCell at he
      have hsum : j * s.publicRows + r' = i * s.publicRows + r := by omega
      obtain ⟨rfl, rfl⟩ := mul_add_inj hr' hr hsum
      exact ⟨rfl, rfl, rfl⟩

theorem slotAddress?_eq_some {v : Variable} {a : Nat} (h : s.slotAddress? v = some a) :
    ∃ i, s.slots[i]? = some v ∧ a = s.gridSize + i := by
  obtain ⟨i, hi, rfl⟩ := Option.map_eq_some_iff.mp h
  obtain ⟨hlt, hv, -⟩ := List.idxOf?_eq_some_iff.mp hi
  exact ⟨i, by rw [List.getElem?_eq_getElem hlt, hv], rfl⟩

theorem address?_eq_some {v : Variable} {a : Nat} (h : s.address? v = some a) :
    ∃ r, v.position = .row r ∧ (s.gridAddress? v.kind v.index r = some a ∨
      s.gridAddress? v.kind v.index r = none ∧ s.slotAddress? v = some a) := by
  unfold address? at h
  split at h
  · cases h
  · rename_i r hr
    rcases Option.or_eq_some_iff.mp h with h | h
    · exact ⟨r, hr, Or.inl h⟩
    · exact ⟨r, hr, Or.inr h⟩

/-- Variables with one address are one variable. -/
theorem address?_inj {v w : Variable} {a : Nat} (hv : s.address? v = some a) (hw : s.address? w = some a) :
    v = w := by
  obtain ⟨r, hr, hv⟩ := address?_eq_some hv
  obtain ⟨r', hr', hw⟩ := address?_eq_some hw
  rcases hv with hv | ⟨-, hv⟩
  · rcases hw with hw | ⟨-, hw⟩
    · obtain ⟨hk, hi, rfl⟩ := gridAddress?_inj hv hw
      cases v
      cases w
      simp_all
    · obtain ⟨i, -, rfl⟩ := slotAddress?_eq_some hw
      have := gridAddress?_lt hv
      omega
  · rcases hw with hw | ⟨-, hw⟩
    · obtain ⟨i, -, rfl⟩ := slotAddress?_eq_some hv
      have := gridAddress?_lt hw
      omega
    · obtain ⟨i, hi, rfl⟩ := slotAddress?_eq_some hv
      obtain ⟨j, hj, hij⟩ := slotAddress?_eq_some hw
      obtain rfl : i = j := by omega
      exact Option.some.inj (hi.symm.trans hj)

theorem cell?_eq_some_iff {v : Variable} {a : Fin s.size} : s.cell? v = some a ↔ s.address? v = some a.val := by
  unfold cell?
  split
  · rename_i b hb
    constructor
    · rintro ⟨⟩
      exact hb
    · intro h
      obtain rfl := Option.some.inj (hb.symm.trans h)
      rfl
  · rename_i hb
    constructor
    · intro h
      cases h
    · intro h
      cases hb.symm.trans h

/-! ### Growth -/

theorem cover_eq (s : Space) (v : Variable) : ∃ slots, s.cover v = { s with slots := slots } := by
  unfold cover
  split
  · exact ⟨s.slots, rfl⟩
  · exact ⟨s.slots ++ [v], rfl⟩

theorem foldl_cover_eq (s : Space) (boundary : List Variable) :
    ∃ slots, boundary.foldl cover s = { s with slots := slots } := by
  induction boundary generalizing s with
  | nil => exact ⟨s.slots, rfl⟩
  | cons v rest ih =>
    obtain ⟨slots, hv⟩ := s.cover_eq v
    obtain ⟨slots', h⟩ := ih (s.cover v)
    exact ⟨slots', by rw [List.foldl_cons, h, hv]⟩

theorem ofTable_eq (t : Assignment) (boundary : List Variable) (start rows : Nat) :
    ∃ slots, ofTable t boundary start rows = {
      start, rows
      witnesses := t.width .witness
      constants := t.width .constant
      publicInputs := t.width .publicInput
      publicRows := t.publicRows
      slots } :=
  foldl_cover_eq _ boundary

/-- A table shows its space through the number of its columns and through the rows of its public inputs. -/
theorem ofTable_congr {t t' : Assignment} (hwidth : ∀ kind, kind ≠ .selector → t'.width kind = t.width kind)
    (hrows : t'.publicRows = t.publicRows) (boundary : List Variable) (start rows : Nat) :
    ofTable t' boundary start rows = ofTable t boundary start rows := by
  rw [ofTable, ofTable, hrows, hwidth .witness nofun, hwidth .constant nofun, hwidth .publicInput nofun]

theorem inWindow_ofTable {t : Assignment} {boundary : List Variable} {start rows row : Nat} :
    (ofTable t boundary start rows).inWindow row ↔ start ≤ row ∧ row < start + rows := by
  obtain ⟨slots, h⟩ := ofTable_eq t boundary start rows
  rw [h]
  simp [inWindow]

theorem isSome_address?_cover {v w : Variable} (h : (s.address? w).isSome) : ((s.cover v).address? w).isSome := by
  unfold cover
  split
  · exact h
  · obtain ⟨a, ha⟩ := Option.isSome_iff_exists.mp h
    obtain ⟨r, hr, hgrid | ⟨-, hslot⟩⟩ := address?_eq_some ha
    · have hgrid' : gridAddress? { s with slots := s.slots ++ [v] } w.kind w.index r = some a := hgrid
      simp [address?, hr, hgrid']
    · obtain ⟨i, hi, -⟩ := slotAddress?_eq_some hslot
      have hmem : w ∈ s.slots ++ [v] := List.mem_append_left _ (List.mem_of_getElem? hi)
      simp [address?, hr, slotAddress?, hmem]

theorem isSome_address?_of_cover {v : Variable} (h : v.relative = false) : ((s.cover v).address? v).isSome := by
  unfold cover
  split
  · assumption
  · obtain ⟨k, i, d | r⟩ := v
    · cases h
    · simp [address?, slotAddress?]

theorem isSome_address?_foldl_cover {v : Variable} {boundary : List Variable}
    (h : (s.address? v).isSome ∨ v ∈ boundary ∧ v.relative = false) :
    ((boundary.foldl cover s).address? v).isSome := by
  induction boundary generalizing s with
  | nil => simpa using h
  | cons w rest ih =>
    rcases h with h | ⟨hv, h⟩
    · exact ih (Or.inl (isSome_address?_cover h))
    · rcases List.mem_cons.mp hv with rfl | hv
      · exact ih (Or.inl (isSome_address?_of_cover h))
      · exact ih (Or.inr ⟨hv, h⟩)

/-- The absolute variables of the boundary have addresses, and no relative variable has one. -/
theorem isSome_address?_iff {t : Assignment} {boundary : List Variable} {start rows : Nat} {v : Variable}
    (hv : v ∈ boundary) : ((ofTable t boundary start rows).address? v).isSome ↔ v.relative = false := by
  constructor
  · intro h
    obtain ⟨a, ha⟩ := Option.isSome_iff_exists.mp h
    obtain ⟨r, hr, -⟩ := address?_eq_some ha
    simp [Variable.relative, hr]
  · exact fun h => isSome_address?_foldl_cover (Or.inr ⟨hv, h⟩)

theorem slots_foldl_cover {v : Variable} {boundary : List Variable} (h : v ∈ (boundary.foldl cover s).slots) :
    v ∈ s.slots ∨ v ∈ boundary := by
  induction boundary generalizing s with
  | nil => exact Or.inl h
  | cons w rest ih =>
    rcases ih h with h | h
    · unfold cover at h
      split at h
      · exact Or.inl h
      · rcases List.mem_append.mp h with h | h
        · exact Or.inl h
        · obtain rfl := List.mem_singleton.mp h
          exact Or.inr List.mem_cons_self
    · exact Or.inr (List.mem_cons_of_mem _ h)

theorem grid_ofTable (t : Assignment) (boundary : List Variable) (start rows index row : Nat) :
    ((ofTable t boundary start rows).gridAddress? .witness index row).isSome ↔
      start ≤ row ∧ row < start + rows ∧ index < t.width .witness := by
  obtain ⟨slots, h⟩ := ofTable_eq t boundary start rows
  rw [h]
  simp [gridAddress?, inWindow, and_assoc]

/-- A witness cell has an address if it lies in the window or on the boundary. -/
theorem isSome_address?_witness_iff {t : Assignment} {boundary : List Variable} {start rows index row : Nat} :
    ((ofTable t boundary start rows).address? ⟨.witness, index, .row row⟩).isSome ↔
      (start ≤ row ∧ row < start + rows ∧ index < t.width .witness) ∨ ⟨.witness, index, .row row⟩ ∈ boundary := by
  rw [← grid_ofTable t boundary]
  constructor
  · intro h
    obtain ⟨a, ha⟩ := Option.isSome_iff_exists.mp h
    obtain ⟨r, hr, hgrid | ⟨-, hslot⟩⟩ := address?_eq_some ha
    · obtain rfl := Position.row.inj hr
      exact Or.inl (Option.isSome_of_eq_some hgrid)
    · obtain ⟨i, hi, -⟩ := slotAddress?_eq_some hslot
      exact Or.inr ((slots_foldl_cover (List.mem_of_getElem? hi)).resolve_left List.not_mem_nil)
  · rintro (h | h)
    · obtain ⟨a, ha⟩ := Option.isSome_iff_exists.mp h
      simp [address?, ha]
    · exact (isSome_address?_iff h).mpr rfl

/-! ### No gaps -/

/-- The slots are distinct absolute variables outside the window and the public inputs. -/
structure Tight (s : Space) : Prop where
  nodup : s.slots.Nodup
  free : ∀ v ∈ s.slots, ∃ r, v.position = .row r ∧ s.gridAddress? v.kind v.index r = none

theorem slotAddress?_isSome {v : Variable} (h : v ∈ s.slots) : (s.slotAddress? v).isSome := by
  simpa [slotAddress?] using h

theorem Tight.cover {v : Variable} (h : s.Tight) (hv : v.relative = false) : (s.cover v).Tight := by
  unfold Space.cover
  split
  · exact h
  · rename_i hnone
    obtain ⟨k, i, p⟩ := v
    cases p with
    | offset d => simp [Variable.relative] at hv
    | row r =>
      simp only [address?, Option.isSome_or, Bool.or_eq_true, not_or, Bool.not_eq_true,
        Option.isSome_eq_false_iff, Option.isNone_iff_eq_none] at hnone
      refine ⟨List.nodup_append.mpr ⟨h.nodup, List.nodup_singleton _, fun w hw u hu => ?_⟩, fun w hw => ?_⟩
      · obtain rfl := List.mem_singleton.mp hu
        rintro rfl
        have := slotAddress?_isSome hw
        rw [hnone.2] at this
        cases this
      · rcases List.mem_append.mp hw with hw | hw
        · exact h.free w hw
        · obtain rfl := List.mem_singleton.mp hw
          exact ⟨r, rfl, hnone.1⟩

theorem Tight.foldl_cover {boundary : List Variable} (h : s.Tight) (hb : ∀ v ∈ boundary, v.relative = false) :
    (boundary.foldl Space.cover s).Tight := by
  induction boundary generalizing s with
  | nil => exact h
  | cons v rest ih =>
    exact ih (h.cover (hb v List.mem_cons_self)) fun w hw => hb w (List.mem_cons_of_mem _ hw)

theorem tight_ofTable {t : Assignment} {boundary : List Variable} {start rows : Nat}
    (h : ∀ v ∈ boundary, v.relative = false) : (ofTable t boundary start rows).Tight :=
  Tight.foldl_cover ⟨List.nodup_nil, fun _ hv => absurd hv List.not_mem_nil⟩ h

theorem exists_windowCell {a : Nat} (ha : a < s.windowSize) : ∃ k i r, s.gridAddress? k i r = some a := by
  -- The row is the quotient by the size of a row, the place in it the remainder.
  have hpos : 0 < s.rowSize := Nat.pos_of_ne_zero fun h0 => by simp [windowSize, h0] at ha
  have hrow : s.inWindow (s.start + a / s.rowSize) := by
    have hdiv : a / s.rowSize < s.rows := Nat.div_lt_of_lt_mul ha
    simp only [inWindow, decide_eq_true_eq]
    generalize a / s.rowSize = q at hdiv ⊢
    omega
  have hcell : s.windowCell (s.start + a / s.rowSize) (a % s.rowSize) = a := by
    rw [windowCell, Nat.add_sub_cancel_left, Nat.mul_comm]
    exact Nat.div_add_mod a s.rowSize
  have hplace := Nat.mod_lt a hpos
  by_cases hwit : a % s.rowSize < s.witnesses
  · exact ⟨.witness, _, _, gridAddress?_eq_some_iff.mpr (Or.inl ⟨_, hrow, Or.inl ⟨rfl, hwit, rfl⟩, hcell⟩)⟩
  · refine ⟨.constant, a % s.rowSize - s.witnesses, _,
      gridAddress?_eq_some_iff.mpr (Or.inl ⟨_, hrow, Or.inr ⟨rfl, ?_, ?_⟩, hcell⟩)⟩
    · unfold rowSize at *
      omega
    · omega

theorem exists_publicCell {a : Nat} (hle : s.windowSize ≤ a) (ha : a < s.gridSize) :
    ∃ k i r, s.gridAddress? k i r = some a := by
  have hlt : a - s.windowSize < s.publicInputs * s.publicRows := by
    unfold gridSize at ha
    omega
  have hpos : 0 < s.publicRows := Nat.pos_of_ne_zero fun h0 => by simp [h0] at hlt
  have hcolumn : (a - s.windowSize) / s.publicRows < s.publicInputs :=
    Nat.div_lt_of_lt_mul (Nat.mul_comm _ _ ▸ hlt)
  have hcell : s.publicCell ((a - s.windowSize) / s.publicRows) ((a - s.windowSize) % s.publicRows) = a := by
    have := Nat.div_add_mod' (a - s.windowSize) s.publicRows
    unfold publicCell
    omega
  exact ⟨.publicInput, _, _, gridAddress?_eq_some_iff.mpr (Or.inr ⟨rfl, hcolumn, Nat.mod_lt _ hpos, hcell⟩)⟩

theorem address?_slot (h : s.Tight) {i : Nat} (hi : i < s.slots.length) :
    s.address? s.slots[i] = some (s.gridSize + i) := by
  obtain ⟨r, hr, hnone⟩ := h.free _ (List.getElem_mem hi)
  have hidx : s.slots.idxOf? s.slots[i] = some i := by
    refine List.idxOf?_eq_some_iff.mpr ⟨hi, rfl, fun j hj he => ?_⟩
    have := (h.nodup.getElem_inj_iff).mp he
    omega
  simp [address?, hr, hnone, slotAddress?, hidx]

/-- Every number below the size of a space without gaps is an address. -/
theorem exists_address? (h : s.Tight) {a : Nat} (ha : a < s.size) : ∃ v, s.address? v = some a := by
  by_cases hgrid : a < s.gridSize
  · have hcell : ∃ k i r, s.gridAddress? k i r = some a := by
      by_cases hw : a < s.windowSize
      · exact exists_windowCell hw
      · exact exists_publicCell (Nat.le_of_not_lt hw) hgrid
    obtain ⟨k, i, r, hcell⟩ := hcell
    exact ⟨⟨k, i, .row r⟩, by simp [address?, hcell]⟩
  · have hle := Nat.le_of_not_lt hgrid
    have hlt : a - s.gridSize < s.slots.length := Nat.sub_lt_left_of_lt_add hle ha
    exact ⟨_, (address?_slot h hlt).trans (by rw [Nat.add_sub_cancel' hle])⟩

end Space
end Zone
end Plonkish
