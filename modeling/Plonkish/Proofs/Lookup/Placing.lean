import Mathlib.Data.List.Nodup
import Plonkish.Proofs.Lookup.Fold
import Plonkish.Proofs.Lookup.Layout
import Plonkish.Proofs.Lookup.Marking

/-! What placing tables leaves in the circuit. Every placement writes the cells that it covers and no other
    constant (`written_of_writeGrid`, `changes_place`). At the end of a run every subtable in use is registered
    (`registered_place`). Placements that are clear of each other cover no cell in common, so the cells of every
    table are then still those of its grid (`Laid`, `laid_place`). -/

namespace Plonkish
namespace Lookup

/-- How a table with a checked grid is laid: its columns once for each group, and the rows of a group. A table
    in more than one group has subtables on all rows only. -/
structure Lays (reserved : Reserved) (t : Table) (g : Grid) (p : Placement) : Prop where
  name : p.strip.name = t.name
  grid : t.columns = .ok g
  columns : p.strip.columns = g.length
  folds : 0 < p.strip.folds
  rows : p.strip.rows = ceilDiv g.rows p.strip.folds
  spans : 1 < p.strip.folds → ∀ r ∈ t.references reserved, r.subtable.spans g.rows

/-- The columns that a placement writes, each with the values that it gets. -/
def Placement.cells (p : Placement) (columns : List Nat) (g : Grid) : List (Nat × Array Scalar) :=
  ((columns.drop p.x).take p.strip.width).zip (groups g p.strip.folds)

/-- A placement covers a cell of a constant column. -/
def Placement.Covers (p : Placement) (columns : List Nat) (column row : Nat) : Prop :=
  ∃ j, columns[p.x + j]? = some column ∧ j < p.strip.width ∧ p.y ≤ row ∧ row < p.bottom

/-- The cells of a placement hold its grid, group by group. -/
def Written (c : Circuit) (columns : List Nat) (p : Placement) (g : Grid) : Prop :=
  ∀ f i r column values, f < p.strip.folds → r < p.strip.rows →
    columns[p.x + (f * p.strip.columns + i)]? = some column → g[i]? = some values →
      c.table.cell .constant column (p.y + r) = values[min (f * p.strip.rows + r) (g.rows - 1)]?.getD 0

variable {reserved : Reserved} {tables : List Table} {columns : List Nat} {c c' : Circuit}
  {ranges ranges' : Ranges} {p q : Placement} {ps : List Placement} {t : Table} {g : Grid}

/-! ### Covered cells -/

theorem Strip.group_lt_width {s : Strip} {f i : Nat} (hf : f < s.folds) (hi : i < s.columns) :
    f * s.columns + i < s.width := by
  have hlt := group_add_lt hf hi
  rwa [Nat.mul_comm s.folds] at hlt

/-- Placements that are clear of each other cover no cell in common. -/
theorem Placement.Clears.not_covers (h : p.Clears q) (hnodup : columns.Nodup) {column row : Nat}
    (hp : p.Covers columns column row) : ¬ q.Covers columns column row := by
  rintro ⟨j', hj', hlt', hy', hb'⟩
  obtain ⟨j, hj, hlt, hy, hb⟩ := hp
  have hbound : p.x + j < columns.length := (List.getElem?_eq_some_iff.mp hj).1
  have he := (List.getElem?_inj hbound hnodup).mp (hj.trans hj'.symm)
  rcases h with h | h
  · unfold Placement.right at h
    omega
  · omega

theorem Lays.covers (h : Lays reserved t g p) {f i r column : Nat} {values : Array Scalar}
    (hf : f < p.strip.folds) (hr : r < p.strip.rows)
    (hcolumn : columns[p.x + (f * p.strip.columns + i)]? = some column) (hvalues : g[i]? = some values) :
    p.Covers columns column (p.y + r) := by
  have hi : i < p.strip.columns := h.columns ▸ (List.getElem?_eq_some_iff.mp hvalues).1
  exact ⟨_, hcolumn, Strip.group_lt_width hf hi, Nat.le_add_right .., Nat.add_lt_add_left hr _⟩

/-! ### One placement -/

theorem mem_of_mem_band {column : Nat} (h : column ∈ (columns.drop p.x).take p.strip.width) :
    ∃ j < p.strip.width, columns[p.x + j]? = some column := by
  obtain ⟨j, hj⟩ := List.mem_iff_getElem?.mp h
  rw [List.getElem?_take] at hj
  split at hj
  · rename_i hlt
    exact ⟨j, hlt, by rwa [List.getElem?_drop] at hj⟩
  · cases hj

theorem Lays.nodup_cells (h : Lays reserved t g p) (hnodup : columns.Nodup) :
    ((p.cells columns g).map Prod.fst).Nodup := by
  have hlen : ((columns.drop p.x).take p.strip.width).length ≤ (groups g p.strip.folds).length := by
    rw [List.length_take, length_groups, Strip.width, h.columns, Nat.mul_comm g.length]
    exact Nat.min_le_left _ _
  rw [Placement.cells, List.map_fst_zip hlen]
  exact (hnodup.sublist (List.drop_sublist _ _)).sublist (List.take_sublist _ _)

theorem written_of_writeGrid (hl : Lays reserved t g p) (hnodup : columns.Nodup)
    (h : writeGrid c p.y (p.cells columns g) = .ok c') :
    Written c' columns p g := by
  intro f i r column values hf hr hcolumn hvalues
  have hi : i < g.length := (List.getElem?_eq_some_iff.mp hvalues).1
  have hlt : f * p.strip.columns + i < p.strip.width := Strip.group_lt_width hf (hl.columns ▸ hi)
  have hband : ((columns.drop p.x).take p.strip.width)[f * p.strip.columns + i]? = some column := by
    rw [List.getElem?_take, if_pos hlt, List.getElem?_drop, hcolumn]
  have hgroup := getElem?_groups hf hi
  rw [← hl.columns] at hgroup
  have hmem : (column, foldColumn g[i] (f * ceilDiv g.rows p.strip.folds) (ceilDiv g.rows p.strip.folds) g.rows) ∈
      p.cells columns g := List.mem_of_getElem? (List.getElem?_zip_eq_some.mpr ⟨hband, hgroup⟩)
  rw [cell_writeGrid_of_mem h (hl.nodup_cells hnodup) hmem (by rw [size_foldColumn, ← hl.rows]; exact hr),
    getElem?_foldColumn (by rwa [← hl.rows]), Option.getD_some, hl.rows, (List.getElem?_eq_some_iff.mp hvalues).2]

/-- Writing a folded grid is a change of the cells that its placement covers. -/
theorem change_of_writeGrid (hl : Lays reserved t g p) (h : writeGrid c p.y (p.cells columns g) = .ok c') :
    Change (p.Covers columns) c ranges c' ranges := by
  refine .grid h fun e he row hle hlt => ?_
  obtain ⟨hband, hgroup⟩ := List.of_mem_zip he
  obtain ⟨j, hj, hget⟩ := mem_of_mem_band hband
  rw [size_of_mem_groups hgroup, ← hl.rows] at hlt
  exact ⟨j, hget, hj, hle, hlt⟩

/-- The columns that a placement lies in exist. -/
def Placement.Seated (p : Placement) (columns : List Nat) (c : Circuit) : Prop :=
  ∀ j column, j < p.strip.width → columns[p.x + j]? = some column → column < c.table.width .constant

theorem Placement.Seated.extend (h : p.Seated columns c) (he : Extends c ranges c' ranges') : p.Seated columns c' :=
  fun j column hj hcolumn => he.width .constant ▸ h j column hj hcolumn

theorem seated_of_writeGrid (hl : Lays reserved t g p) (hrows : 0 < g.rows)
    (h : writeGrid c p.y (p.cells columns g) = .ok c') : p.Seated columns c := by
  intro j column hj hcolumn
  have hgroup : j < (groups g p.strip.folds).length := by
    rwa [length_groups, ← hl.columns, Nat.mul_comm]
  have hband : ((columns.drop p.x).take p.strip.width)[j]? = some column := by
    rw [List.getElem?_take, if_pos hj, List.getElem?_drop, hcolumn]
  have hmem : (column, (groups g p.strip.folds)[j]) ∈ p.cells columns g :=
    List.mem_of_getElem? (List.getElem?_zip_eq_some.mpr ⟨hband, List.getElem?_eq_getElem hgroup⟩)
  refine lt_width_of_writeGrid h hmem ?_
  rw [size_of_mem_groups (List.getElem_mem hgroup)]
  exact ceilDiv_pos hrows hl.folds

/-- A table lies where it was placed, and its subtables in use are registered. -/
structure Laid (reserved : Reserved) (columns : List Nat) (c : Circuit) (ranges : Ranges) (t : Table) (g : Grid)
    (p : Placement) : Prop where
  lays : Lays reserved t g p
  written : Written c columns p g
  registered : ∀ r ∈ t.references reserved, Registered c ranges columns p r

/-- A table stays where it lies while its cells are not written. -/
theorem Laid.extend {W : Nat → Nat → Prop} (h : Laid reserved columns c ranges t g p)
    (hc : Changes W c ranges c' ranges') (hW : ∀ column row, p.Covers columns column row → ¬ W column row) :
    Laid reserved columns c' ranges' t g p where
  lays := h.lays
  written f i r column values hf hr hcolumn hvalues := by
    have hcovers := h.lays.covers hf hr hcolumn hvalues
    rw [hc.cell_eq (by decide) fun _ => hW _ _ hcovers]
    exact h.written f i r column values hf hr hcolumn hvalues
  registered r hr := (h.registered r hr).extend hc.extends

/-! ### A run of placements -/

def LaysAll (reserved : Reserved) (tables : List Table) (ps : List Placement) : Prop :=
  ∀ p ∈ ps, ∃ t g, tables.find? (·.name = p.strip.name) = some t ∧ Lays reserved t g p

/-- A placement whose table is found is written and registered; unless it was refused, the others follow. -/
theorem exists_of_place_cons {o : Except Refusal Ranges} (hfind : tables.find? (·.name = p.strip.name) = some t)
    (h : place reserved tables columns ranges c (p :: ps) = .ok (c', o)) :
    ∃ g c₁ c₂ o₁, t.columns = .ok g ∧ 0 < p.strip.folds ∧ writeGrid c p.y (p.cells columns g) = .ok c₁ ∧
      shareReferences p (p.places columns) ranges c₁ (t.references reserved) = .ok (c₂, o₁) ∧
      ((∃ e, o₁ = .error e ∧ o = .error e ∧ c' = c₂) ∨
        ∃ ranges₁, o₁ = .ok ranges₁ ∧ place reserved tables columns ranges₁ c₂ ps = .ok (c', o)) := by
  rw [place, hfind] at h
  dsimp only at h
  obtain ⟨g, hg, h⟩ := bind_eq_ok.mp h
  obtain ⟨grid, hgrid, h⟩ := bind_eq_ok.mp h
  obtain ⟨c₁, hwrite, h⟩ := bind_eq_ok.mp h
  obtain ⟨⟨c₂, o₁⟩, hshare, h⟩ := bind_eq_ok.mp h
  obtain ⟨hfolds, rfl⟩ := foldGrid_eq_ok hgrid
  refine ⟨g, c₁, c₂, o₁, hg, hfolds, hwrite, hshare, ?_⟩
  cases o₁ with
  | error e =>
    cases h
    exact Or.inl ⟨e, rfl, rfl, rfl⟩
  | ok ranges₁ => exact Or.inr ⟨ranges₁, rfl, h⟩

theorem place_cons_eq_ok (hfind : tables.find? (·.name = p.strip.name) = some t) (hl : Lays reserved t g p)
    (h : place reserved tables columns ranges c (p :: ps) = .ok (c', .ok ranges')) :
    ∃ c₁ c₂ ranges₁,
      writeGrid c p.y (p.cells columns g) = .ok c₁ ∧
      shareReferences p (p.places columns) ranges c₁ (t.references reserved) = .ok (c₂, .ok ranges₁) ∧
      place reserved tables columns ranges₁ c₂ ps = .ok (c', .ok ranges') := by
  obtain ⟨g', c₁, c₂, o₁, hg, -, hwrite, hshare, ⟨_, -, he, -⟩ | ⟨ranges₁, rfl, h⟩⟩ := exists_of_place_cons hfind h
  · cases he
  · obtain rfl := Except.ok.inj (hl.grid.symm.trans hg)
    exact ⟨c₁, c₂, ranges₁, hwrite, hshare, h⟩

theorem changes_place (hlays : LaysAll reserved tables ps)
    (h : place reserved tables columns ranges c ps = .ok (c', .ok ranges')) :
    Changes (fun column row => ∃ p ∈ ps, p.Covers columns column row) c ranges c' ranges' := by
  induction ps generalizing c ranges with
  | nil =>
    cases h
    exact .refl _ _
  | cons p rest ih =>
    obtain ⟨⟨t, g, hfind, hl⟩, hrestlays⟩ := List.forall_mem_cons.mp hlays
    obtain ⟨c₁, c₂, ranges₁, hwrite, hshare, hrest⟩ := place_cons_eq_ok hfind hl h
    have hgrid : Changes (p.Covers columns) c ranges c₁ ranges := (change_of_writeGrid hl hwrite).changes
    have hgrid := hgrid.mono fun column row hcovers =>
      (⟨p, List.mem_cons_self, hcovers⟩ : ∃ q ∈ p :: rest, q.Covers columns column row)
    have hlater := (ih hrestlays hrest).mono fun column row ⟨q, hq, hcovers⟩ =>
      (⟨q, List.mem_cons_of_mem _ hq, hcovers⟩ : ∃ q ∈ p :: rest, q.Covers columns column row)
    exact (hgrid.trans (changes_shareReferences hshare)).trans hlater

/-- After a run of placements the subtables in use of every placed table are registered, wherever it lies. -/
theorem registered_place (hlays : LaysAll reserved tables ps)
    (h : place reserved tables columns ranges c ps = .ok (c', .ok ranges')) (hp : p ∈ ps)
    (hfind : tables.find? (·.name = p.strip.name) = some t) :
    ∀ r ∈ t.references reserved, Registered c' ranges' columns p r := by
  induction ps generalizing c ranges with
  | nil => cases hp
  | cons q rest ih =>
    obtain ⟨⟨t', g', hfind', hl'⟩, hrestlays⟩ := List.forall_mem_cons.mp hlays
    obtain ⟨c₁, c₂, ranges₁, -, hshare, hrest⟩ := place_cons_eq_ok hfind' hl' h
    rcases List.mem_cons.mp hp with rfl | hp
    · obtain rfl := Option.some.inj (hfind.symm.trans hfind')
      exact fun r hr => (registered_shareReferences hshare r hr).extend (changes_place hrestlays hrest).extends
    · exact ih hrestlays hrest hp

/-- After a run of placements that are clear of each other, every table lies where it was placed, in columns that
    exist. -/
theorem laid_place (hlays : LaysAll reserved tables ps) (hnodup : columns.Nodup)
    (hclear : ps.Pairwise Placement.Clears)
    (h : place reserved tables columns ranges c ps = .ok (c', .ok ranges')) (hp : p ∈ ps)
    (hfind : tables.find? (·.name = p.strip.name) = some t) (hl : Lays reserved t g p) :
    Laid reserved columns c' ranges' t g p ∧ (0 < g.rows → p.Seated columns c') := by
  induction ps generalizing c ranges with
  | nil => cases hp
  | cons q rest ih =>
    obtain ⟨⟨t', g', hfind', hl'⟩, hrestlays⟩ := List.forall_mem_cons.mp hlays
    obtain ⟨hq, hclear⟩ := List.pairwise_cons.mp hclear
    obtain ⟨c₁, c₂, ranges₁, hwrite, hshare, hrest⟩ := place_cons_eq_ok hfind' hl' h
    rcases List.mem_cons.mp hp with rfl | hp
    · obtain rfl := Option.some.inj (hfind.symm.trans hfind')
      obtain rfl := Except.ok.inj (hl.grid.symm.trans hl'.grid)
      have hmarks : Changes (fun _ _ => False) c₁ ranges c₂ ranges₁ := changes_shareReferences hshare
      have hlater := changes_place hrestlays hrest
      have hwritten : Written c₂ columns p g := fun f i r column values hf hr hcolumn hvalues =>
        (hmarks.cell_eq (by decide) fun _ => id).trans
          (written_of_writeGrid hl hnodup hwrite f i r column values hf hr hcolumn hvalues)
      refine ⟨Laid.extend ⟨hl, hwritten, registered_shareReferences hshare⟩ hlater ?_, fun hrows => ?_⟩
      · -- The cells were written first, and no later placement covers them.
        rintro column row hcovers ⟨q, hq', hcovers'⟩
        exact (hq q hq').not_covers hnodup hcovers hcovers'
      · have hgrid : Change (p.Covers columns) c ranges c₁ ranges := change_of_writeGrid hl hwrite
        exact (seated_of_writeGrid hl hrows hwrite).extend
          ((hgrid.extends.trans hmarks.extends).trans hlater.extends)
    · exact ih hrestlays hclear hrest hp

end Lookup
end Plonkish
