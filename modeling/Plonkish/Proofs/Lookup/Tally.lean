import Mathlib
import Plonkish.Proofs.Lookup.Bands
import Plonkish.Proofs.Lookup.Enlisting

/-! The selectors of a packing side by side. One selector is handed out for each range of rows that comes up for the
    first time (`Tally.share`), so a run of placements hands out as many as there are different ranges, unless there
    are fewer selectors than that (`Tally.place`). The ranges are those of the subtables in use (`seats`), and the
    rows that a subtable lies in are such a range (`Seat.occupies_iff`). -/

namespace Plonkish
namespace Lookup

/-- A subtable in use, with its table and the placement of the table. -/
structure Seat where
  placement : Placement
  table : Table
  reference : Reference

namespace Seat

def fullName (s : Seat) : String := join s.table.name s.reference.name

/-- The rows that are marked for the subtable: from the first to before the second. -/
def rows (s : Seat) : Nat × Nat := s.placement.rowsOf s.reference.subtable

/-- A row of the subtable lies in this row. Every group of a table begins in the first row of its placement. -/
def Occupies (s : Seat) (row : Nat) : Prop :=
  ∃ i, s.reference.subtable.first ≤ i ∧ i ≤ s.reference.subtable.last ∧
    row = s.placement.y + i % s.placement.strip.rows

end Seat

/-- The subtables in use of the tables of a list of placements. -/
def seats (reserved : Reserved) (tables : List Table) (ps : List Placement) : List Seat :=
  ps.flatMap fun p =>
    match tables.find? (·.name = p.strip.name) with
    | none => []
    | some t => (t.references reserved).map (Seat.mk p t)

variable {α : Type} {reserved : Reserved} {tables : List Table} {columns : List Nat} {c c₀ c' : Circuit} {t : Table}
  {g : Grid} {r : Reference} {rs : List Reference} {s : Seat} {p : Placement} {ps : List Placement}
  {places : List (List Nat)} {ranges : Ranges} {rows : Nat × Nat} {done : List (Nat × Nat)} {row : Nat} {e : Refusal}

/-! ### Seats -/

theorem seats_cons_of_none (h : tables.find? (·.name = p.strip.name) = none) :
    seats reserved tables (p :: ps) = seats reserved tables ps := by
  simp [seats, h]

theorem seats_cons_of_some (h : tables.find? (·.name = p.strip.name) = some t) :
    seats reserved tables (p :: ps) = (t.references reserved).map (Seat.mk p t) ++ seats reserved tables ps := by
  simp [seats, h]

theorem mem_seats : s ∈ seats reserved tables ps ↔ s.placement ∈ ps ∧
    tables.find? (·.name = s.placement.strip.name) = some s.table ∧ s.reference ∈ s.table.references reserved := by
  constructor
  · intro h
    obtain ⟨p, hp, h⟩ := List.mem_flatMap.mp h
    split at h
    · cases h
    · rename_i t hfind
      obtain ⟨r, hr, rfl⟩ := List.mem_map.mp h
      exact ⟨hp, hfind, hr⟩
  · rintro ⟨hp, hfind, hr⟩
    refine List.mem_flatMap.mpr ⟨s.placement, hp, ?_⟩
    rw [hfind]
    exact List.mem_map_of_mem hr

/-- The seats of placements follow from the names of these. -/
theorem map_seats (f : Table → Reference → α) : (seats reserved tables ps).map (fun s => f s.table s.reference) =
    (ps.map (·.strip.name)).flatMap fun name =>
      ((tables.find? (·.name = name)).map fun t => (t.references reserved).map (f t)).getD [] := by
  rw [seats, List.map_flatMap, List.flatMap_map]
  refine List.flatMap_congr fun p _ => ?_
  cases tables.find? (·.name = p.strip.name) with
  | none => rfl
  | some t => exact List.map_map

/-- Where a table is not folded, its rows follow each other; where it is, its subtables have all rows of a group. -/
theorem Seat.occupies_iff (hl : Lays reserved t g p) (hr : r ∈ t.references reserved)
    (hlast : r.subtable.last < g.rows) : (Seat.mk p t r).Occupies row ↔
      (Seat.mk p t r).rows.1 ≤ row ∧ row < (Seat.mk p t r).rows.2 := by
  simp only [Seat.Occupies, Seat.rows]
  rcases hl.rowsOf hr with ⟨-, hrows, hfirst, hspan⟩ | ⟨-, hheight, hrows⟩
  · -- A folded table occupies the rows of its groups, and the first group is never short of one.
    have hpos : 0 < p.strip.rows := hl.rows ▸ ceilDiv_pos (by omega) hl.folds
    have hle : p.strip.rows ≤ g.rows := hl.rows ▸ ceilDiv_le hl.folds (Nat.le_mul_of_pos_right _ hl.folds)
    rw [hrows]
    constructor
    · rintro ⟨i, -, -, rfl⟩
      exact ⟨Nat.le_add_right .., Nat.add_lt_add_left (Nat.mod_lt i hpos) _⟩
    · rintro ⟨hlo, hhi⟩
      exact ⟨row - p.y, by omega, by omega, by rw [Nat.mod_eq_of_lt (by omega)]; omega⟩
  · -- A table in one piece occupies the rows of the subtable.
    rw [hrows]
    constructor
    · rintro ⟨i, hlo, hhi, rfl⟩
      rw [Nat.mod_eq_of_lt (by omega)]
      omega
    · rintro ⟨hlo, hhi⟩
      exact ⟨row - p.y, by omega, by omega, by rw [Nat.mod_eq_of_lt (by omega)]; omega⟩

theorem exists_lays_of_mem_seats (hlays : LaysAll reserved tables ps) (hs : s ∈ seats reserved tables ps) :
    ∃ g, Lays reserved s.table g s.placement := by
  obtain ⟨hp, hfind, -⟩ := mem_seats.mp hs
  obtain ⟨t, g, hfind', hl⟩ := hlays _ hp
  obtain rfl := Option.some.inj (hfind.symm.trans hfind')
  exact ⟨g, hl⟩

theorem occupies_iff_of_mem_seats (hlays : LaysAll reserved tables ps) (hs : s ∈ seats reserved tables ps) :
    s.rows.1 < s.rows.2 ∧ ∀ row, s.Occupies row ↔ s.rows.1 ≤ row ∧ row < s.rows.2 := by
  obtain ⟨-, -, hr⟩ := mem_seats.mp hs
  obtain ⟨g, hl⟩ := exists_lays_of_mem_seats hlays hs
  have hlast := (check_eq_ok hl.grid).2.2 _ (mem_subtables hr)
  have hrow : ∀ row, s.Occupies row ↔ s.rows.1 ≤ row ∧ row < s.rows.2 := fun _ => Seat.occupies_iff hl hr hlast
  obtain ⟨hfirst, hstop⟩ := (hrow _).mp ⟨_, Nat.le_refl _, s.reference.subtable.first_le_last, rfl⟩
  exact ⟨Nat.lt_of_le_of_lt hfirst hstop, hrow⟩

/-! ### One selector for each range of rows -/

/-- How the selectors stand after subtables on some rows: each range of these rows has one, and they were handed out in
    turn. -/
structure Tally (c₀ : Circuit) (done : List (Nat × Nat)) (ranges : Ranges) (c : Circuit) : Prop where
  keys : (ranges.map Prod.fst).Nodup
  tags : ranges.map Prod.snd = (List.range' c₀.system.nextSelector ranges.length).reverse
  mem : ∀ rows, rows ∈ ranges.map Prod.fst ↔ rows ∈ done
  next : c.system.nextSelector = c₀.system.nextSelector + ranges.length
  width : c.table.width .selector = c₀.table.width .selector
  /-- Every selector has a column. -/
  bound : ranges = [] ∨ c.system.nextSelector ≤ c₀.table.width .selector

/-- There are fewer selectors than different ranges of rows, and the first one without a column is reported. -/
structure Short (c₀ : Circuit) (done : List (Nat × Nat)) (e : Refusal) : Prop where
  refusal : e = .selectorColumns (max c₀.system.nextSelector (c₀.table.width .selector)) (c₀.table.width .selector)
  some : done ≠ []
  short : c₀.table.width .selector < c₀.system.nextSelector + done.toFinset.card

/-- How a run stands after subtables on some rows. -/
def Stands (c₀ : Circuit) (done : List (Nat × Nat)) : Outcome Ranges → Prop
  | (c, .ok ranges) => Tally c₀ done ranges c
  | (_, .error e) => Short c₀ done e

theorem Short.append (h : Short c₀ done e) (more : List (Nat × Nat)) : Short c₀ (done ++ more) e where
  refusal := h.refusal
  some hnil := h.some (List.append_eq_nil_iff.mp hnil).1
  short := by
    have hsub : done.toFinset ⊆ (done ++ more).toFinset := fun rows hrows =>
      List.mem_toFinset.mpr (List.mem_append_left _ (List.mem_toFinset.mp hrows))
    exact Nat.lt_of_lt_of_le h.short (Nat.add_le_add_left (Finset.card_le_card hsub) _)

namespace Tally

theorem nil (c : Circuit) : Tally c [] [] c :=
  ⟨List.nodup_nil, rfl, fun _ => Iff.rfl, rfl, rfl, Or.inl rfl⟩

variable (h : Tally c₀ done ranges c)
include h

theorem of_eq (hnext : c'.system.nextSelector = c.system.nextSelector)
    (hwidth : c'.table.width .selector = c.table.width .selector) : Tally c₀ done ranges c' :=
  ⟨h.keys, h.tags, h.mem, hnext.trans h.next, hwidth.trans h.width, h.bound.imp_right fun hle => hnext ▸ hle⟩

theorem length_eq : ranges.length = done.toFinset.card := by
  have hset : (ranges.map Prod.fst).toFinset = done.toFinset := by
    ext rows
    rw [List.mem_toFinset, List.mem_toFinset, h.mem]
  rw [← hset, List.toFinset_card_of_nodup h.keys, List.length_map]

theorem tag_unique {tag tag' : Nat} (he : (rows, tag) ∈ ranges) (he' : (rows, tag') ∈ ranges) : tag = tag' :=
  congrArg Prod.snd (List.inj_on_of_nodup_map h.keys he he' rfl)

theorem rows_unique {rows' : Nat × Nat} {tag : Nat} (he : (rows, tag) ∈ ranges) (he' : (rows', tag) ∈ ranges) :
    rows = rows' := by
  have hnodup : (ranges.map Prod.snd).Nodup := h.tags ▸ List.nodup_reverse.mpr List.nodup_range'
  exact congrArg Prod.fst (List.inj_on_of_nodup_map hnodup he he' rfl)

theorem known (hmem : rows ∈ ranges.map Prod.fst) : Tally c₀ (done ++ [rows]) ranges c where
  keys := h.keys
  tags := h.tags
  mem rows' := by
    rw [List.mem_append, List.mem_singleton, h.mem]
    exact ⟨Or.inl, fun hor => hor.elim id fun he => he ▸ (h.mem rows).mp hmem⟩
  next := h.next
  width := h.width
  bound := h.bound

theorem fresh {a : Assignment} (hnew : rows ∉ ranges.map Prod.fst)
    (hlt : c.system.nextSelector < c.table.width .selector) (hwidth : a.width .selector = c.table.width .selector) :
    Tally c₀ (done ++ [rows]) ((rows, c.system.nextSelector) :: ranges)
      ⟨{ c.system with nextSelector := c.system.nextSelector + 1 }, a⟩ where
  keys := List.nodup_cons.mpr ⟨hnew, h.keys⟩
  tags := by
    rw [List.map_cons, h.tags, List.length_cons, List.range'_1_concat, List.reverse_append, ← h.next]
    rfl
  mem rows' := by
    rw [List.map_cons, List.mem_cons, List.mem_append, List.mem_singleton, h.mem]
    exact Or.comm
  next := by simp [h.next, Nat.add_assoc]
  width := hwidth.trans h.width
  bound := Or.inr (h.width ▸ hlt)

theorem short (hnew : rows ∉ ranges.map Prod.fst) (hle : c.table.width .selector ≤ c.system.nextSelector) :
    Short c₀ (done ++ [rows]) (.selectorColumns c.system.nextSelector (c.table.width .selector)) where
  refusal := by
    have hnext := h.next
    rw [h.width] at hle ⊢
    rcases h.bound with rfl | hbound
    · rw [List.length_nil, Nat.add_zero] at hnext
      rw [hnext] at hle ⊢
      rw [Nat.max_eq_left hle]
    · rw [Nat.le_antisymm hbound hle, Nat.max_eq_right (by omega)]
  some := List.append_ne_nil_of_right_ne_nil _ (List.cons_ne_nil _ _)
  short := by
    have hcard : (done ++ [rows]).toFinset.card = ranges.length + 1 := by
      have hdone : rows ∉ done.toFinset := fun hmem => hnew ((h.mem rows).mpr (List.mem_toFinset.mp hmem))
      rw [List.toFinset_append, List.toFinset_cons, List.toFinset_nil, Finset.union_comm, Finset.insert_union,
        Finset.empty_union, Finset.card_insert_of_notMem hdone, h.length_eq]
    have hnext := h.next
    rw [h.width] at hle
    omega

/-- A range of rows that is new takes one selector, if there is one left. -/
theorem share {o : Except Refusal (Nat × Ranges)} (hrun : shareSelector ranges rows c = .ok (c', o)) :
    Stands c₀ (done ++ [rows]) (c', o.map Prod.snd) := by
  obtain ⟨tag, hmem, rfl, rfl⟩ | ⟨hnew, ⟨e, hallocate, rfl⟩ | ⟨c₁, tag, hallocate, henable, rfl⟩⟩ :=
    shareSelector_cases hrun
  · exact h.known (List.mem_map_of_mem hmem)
  · obtain ⟨hle, rfl⟩ := allocate_eq_error hallocate
    exact h.short hnew hle
  · have hlt := lt_of_allocate hallocate
    obtain ⟨rfl, rfl⟩ := allocate_eq_ok hallocate
    obtain ⟨a, ha, henable⟩ := bind_eq_ok.mp henable
    cases henable
    exact h.fresh hnew hlt (Assignment.width_enableRange ha _)

theorem shareAll {o : Except Refusal Ranges} (hrun : shareReferences p places ranges c rs = .ok (c', o)) :
    Stands c₀ (done ++ rs.map fun r => p.rowsOf r.subtable) (c', o) := by
  induction rs generalizing c ranges done with
  | nil =>
    cases hrun
    rwa [List.map_nil, List.append_nil]
  | cons r rest ih =>
    obtain ⟨⟨c₁, o₁⟩, hshare, hrun⟩ := bind_eq_ok.mp hrun
    have hstands := h.share hshare
    rw [List.map_cons, List.append_cons]
    cases o₁ with
    | error e =>
      cases hrun
      exact Short.append hstands _
    | ok o₁ =>
      obtain ⟨c₂, hregister, hrun⟩ := bind_eq_ok.mp hrun
      have htally : Tally c₀ (done ++ [p.rowsOf r.subtable]) o₁.2 c₁ := hstands
      obtain ⟨target, -, -, rfl⟩ := register_eq_ok hregister
      refine ih ?_ hrun
      exact htally.of_eq rfl rfl

theorem place {o : Except Refusal Ranges} (hrun : place reserved tables columns ranges c ps = .ok (c', o)) :
    Stands c₀ (done ++ (seats reserved tables ps).map Seat.rows) (c', o) := by
  induction ps generalizing c ranges done with
  | nil =>
    cases hrun
    have hnone : (seats reserved tables []).map Seat.rows = [] := rfl
    rwa [hnone, List.append_nil]
  | cons p rest ih =>
    cases hfind : tables.find? (·.name = p.strip.name) with
    | none =>
      rw [Lookup.place, hfind] at hrun
      rw [seats_cons_of_none hfind]
      exact ih h hrun
    | some t =>
      obtain ⟨g, c₁, c₂, o₁, -, -, hwrite, hshare, hrest⟩ := exists_of_place_cons hfind hrun
      -- The grid is written into constants and takes no selector.
      have htally : Tally c₀ done ranges c₁ :=
        h.of_eq (by rw [system_writeGrid hwrite]) (width_writeGrid hwrite _)
      have hstands := htally.shareAll hshare
      have hrows : ((t.references reserved).map (Seat.mk p t)).map Seat.rows =
          (t.references reserved).map fun r => p.rowsOf r.subtable := List.map_map
      rw [seats_cons_of_some hfind, List.map_append, hrows, ← List.append_assoc]
      rcases hrest with ⟨e, rfl, rfl, rfl⟩ | ⟨ranges₁, rfl, hrun⟩
      · exact Short.append hstands _
      · exact ih hstands hrun

end Tally

/-- There is an answer exactly if the selectors are enough for all ranges. -/
theorem Stands.map_eq {o : Except Refusal Ranges} (h : Stands c₀ done (c, o)) (n : Nat) :
    o.map (fun _ => n) =
      if done.toFinset.card = 0 ∨ c₀.system.nextSelector + done.toFinset.card ≤ c₀.table.width .selector then .ok n
      else .error (.selectorColumns (max c₀.system.nextSelector (c₀.table.width .selector))
        (c₀.table.width .selector)) := by
  cases o with
  | ok ranges =>
    have htally : Tally c₀ done ranges c := h
    rw [if_pos, Except.map]
    rw [← htally.length_eq, ← htally.next, List.length_eq_zero_iff]
    exact htally.bound
  | error e =>
    have hshort : Short c₀ done e := h
    have hsome : done.toFinset.card ≠ 0 := fun hnone =>
      hshort.some ((List.toFinset_eq_empty_iff done).mp (Finset.card_eq_zero.mp hnone))
    rw [if_neg (not_or.mpr ⟨hsome, Nat.not_le.mpr hshort.short⟩), hshort.refusal, Except.map]

end Lookup
end Plonkish
