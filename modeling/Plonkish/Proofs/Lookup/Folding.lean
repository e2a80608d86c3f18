import Plonkish.Proofs.Lookup.Bands

/-! Folding loses no row and adds none. A group of a folded grid has, row for row, rows of the grid (`row_group`),
    and row `i` of the grid lies in group `i / height`, in its row `i % height` (`foldGrid_lossless`). What is
    laid past the end of the grid repeats its last row. A table that may be folded is cut into the least number
    of groups that are no higher than the capacity, and these are so few that each of them begins with a row of
    the table (`fold_start_lt`). -/

namespace Plonkish
namespace Lookup

/-- The values of a grid in one row, from column to column. -/
def Grid.row (g : Grid) (i : Nat) : List (Option Scalar) := g.map (·[i]?)

/-- The columns of one group, among groups of `width` columns. -/
def Grid.group (g : Grid) (width f : Nat) : Grid := (g.drop (width * f)).take width

variable {g : Grid} {n folds f j capacity : Nat} {s : Shape}

/-! ### Groups -/

theorem group_groups (hf : f < folds) : (groups g folds).group g.length f =
    g.map fun column => foldColumn column (f * ceilDiv g.rows folds) (ceilDiv g.rows folds) g.rows := by
  refine List.ext_getElem? fun k => ?_
  rw [Grid.group, List.getElem?_take, List.getElem?_drop, List.getElem?_map]
  split
  · rename_i hk
    rw [Nat.mul_comm, getElem?_groups hf hk, List.getElem?_eq_getElem hk, Option.map_some]
  · rename_i hk
    rw [List.getElem?_eq_none (Nat.le_of_not_lt hk), Option.map_none]

theorem getElem?_foldColumn_of_size {column : Array Scalar} (hsize : column.size = n) (hn : 0 < n)
    (hj : j < ceilDiv n folds) :
    (foldColumn column (f * ceilDiv n folds) (ceilDiv n folds) n)[j]? =
      column[min (f * ceilDiv n folds + j) (n - 1)]? := by
  have hlt : min (f * ceilDiv n folds + j) (n - 1) < column.size := by omega
  rw [getElem?_foldColumn hj, Array.getElem?_eq_getElem hlt, Option.getD_some]

/-- A row of a group is a row of the grid, past the end the last one. -/
theorem row_group (hsizes : ∀ column ∈ g, column.size = n) (hn : 0 < n) (hf : f < folds) (hj : j < ceilDiv n folds) :
    ((groups g folds).group g.length f).row j = g.row (min (f * ceilDiv n folds + j) (n - 1)) := by
  cases g with
  | nil => simp [Grid.group, Grid.row]
  | cons column rest =>
    rw [group_groups hf, rows_of_cons hsizes, Grid.row, Grid.row, List.map_map]
    exact List.map_congr_left fun values hv => getElem?_foldColumn_of_size (hsizes values hv) hn hj

theorem cell_groups (hsizes : ∀ column ∈ g, column.size = n) (hn : 0 < n) (hf : f < folds) (hj : j < ceilDiv n folds)
    {k : Nat} (hk : k < g.length) :
    (groups g folds)[g.length * f + k]?.bind (·[j]?) = g[k]?.bind (·[min (f * ceilDiv n folds + j) (n - 1)]?) := by
  have hrows : g.rows = n := by
    cases g with
    | nil => cases hk
    | cons column rest => exact rows_of_cons hsizes
  rw [Nat.mul_comm, getElem?_groups hf hk, hrows, List.getElem?_eq_getElem hk, Option.bind_some, Option.bind_some]
  exact getElem?_foldColumn_of_size (hsizes _ (List.getElem_mem hk)) hn hj

theorem size_of_mem_groups_of_sizes (hsizes : ∀ column ∈ g, column.size = n) {column : Array Scalar}
    (h : column ∈ groups g folds) : column.size = ceilDiv n folds := by
  cases g with
  | nil => simp [groups] at h
  | cons values rest => rw [size_of_mem_groups h, rows_of_cons hsizes]

/-! ### The number of groups -/

theorem ceilDiv_le_iff {size k : Nat} (hsize : 0 < size) : ceilDiv n size ≤ k ↔ n ≤ k * size := by
  refine ⟨fun h => ?_, ceilDiv_le hsize⟩
  calc n ≤ size * ceilDiv n size := le_mul_ceilDiv hsize
    _ ≤ size * k := Nat.mul_le_mul_left size h
    _ = k * size := Nat.mul_comm ..

/-- No fewer groups are low enough. -/
theorem isLeast_ceilDiv (hn : 0 < n) (hcapacity : 0 < capacity) :
    IsLeast {k | 0 < k ∧ ceilDiv n k ≤ capacity} (ceilDiv n capacity) := by
  refine ⟨⟨ceilDiv_pos hn hcapacity, ?_⟩, fun k ⟨hk, hlow⟩ => ?_⟩
  · exact (ceilDiv_le_iff (ceilDiv_pos hn hcapacity)).mpr (le_mul_ceilDiv hcapacity)
  · rw [ceilDiv_le_iff hk, Nat.mul_comm] at hlow
    exact (ceilDiv_le_iff hcapacity).mpr hlow

theorem folds_fold (hfold : s.foldable = true) (hrows : 0 < s.rows) (hcapacity : 0 < capacity) :
    (s.fold capacity).folds = ceilDiv s.rows capacity := by
  have hpos := ceilDiv_pos hrows hcapacity
  simp only [Shape.fold, hfold, if_true]
  omega

theorem rows_fold (s : Shape) (capacity : Nat) : (s.fold capacity).rows = ceilDiv s.rows (s.fold capacity).folds := rfl

/-- Every group of a table that is folded begins with a row of the table, so none is padding alone. -/
theorem fold_start_lt (hfold : s.foldable = true) (hrows : 0 < s.rows) (hcapacity : 0 < capacity)
    (hf : f < (s.fold capacity).folds) : f * (s.fold capacity).rows < s.rows := by
  rw [folds_fold hfold hrows hcapacity] at hf
  have hfew : f * capacity < s.rows := by
    rw [← Nat.not_le, ← ceilDiv_le_iff hcapacity]
    exact Nat.not_le.mpr hf
  calc f * (s.fold capacity).rows ≤ f * capacity := Nat.mul_le_mul_left f (rows_fold_le hfold hcapacity)
    _ < s.rows := hfew

/-! ### Folding -/

/-- A grid with columns of one length is folded into as many columns for each group, all of them of one height. The
    cells of a group are those of the rows that follow each other in the grid, so every row is found again in its
    group and the groups have no other rows. A table that may be folded is cut into no more groups than it takes to
    be within the capacity, and every one of them begins with a row of the table. -/
theorem foldGrid_lossless (hsizes : ∀ column ∈ g, column.size = n) (hn : 0 < n) (hfolds : 0 < folds) :
    (∃ folded, foldGrid g folds = .ok folded ∧ folded.length = g.length * folds ∧
      (∀ column ∈ folded, column.size = ceilDiv n folds) ∧
      (∀ f < folds, ∀ k < g.length, ∀ j < ceilDiv n folds,
        folded[g.length * f + k]?.bind (·[j]?) = g[k]?.bind (·[min (f * ceilDiv n folds + j) (n - 1)]?)) ∧
      (∀ i < n, i / ceilDiv n folds < folds ∧ i % ceilDiv n folds < ceilDiv n folds ∧
        (folded.group g.length (i / ceilDiv n folds)).row (i % ceilDiv n folds) = g.row i) ∧
      ∀ x, (∃ f < folds, ∃ j < ceilDiv n folds, (folded.group g.length f).row j = x) ↔ ∃ i < n, g.row i = x) ∧
    ∀ s : Shape, s.rows = n → s.foldable = true → ∀ capacity, 0 < capacity →
      (s.fold capacity).folds = ceilDiv n capacity ∧
      (s.fold capacity).rows = ceilDiv n (s.fold capacity).folds ∧
      IsLeast {k | 0 < k ∧ ceilDiv n k ≤ capacity} (s.fold capacity).folds ∧
      ∀ f < (s.fold capacity).folds, f * (s.fold capacity).rows < n := by
  have hfound : ∀ i < n, i / ceilDiv n folds < folds ∧ i % ceilDiv n folds < ceilDiv n folds ∧
      ((groups g folds).group g.length (i / ceilDiv n folds)).row (i % ceilDiv n folds) = g.row i := fun i hi => by
    obtain ⟨hgroup, hrow, hcell⟩ := group_of_row hfolds hi
    exact ⟨hgroup, hrow, by rw [row_group hsizes hn hgroup hrow, hcell]⟩
  refine ⟨⟨groups g folds, foldGrid_of_sizes hsizes hfolds, ?_, fun column => size_of_mem_groups_of_sizes hsizes,
    fun f hf k hk j hj => cell_groups hsizes hn hf hj hk, hfound, fun x => ⟨?_, ?_⟩⟩, ?_⟩
  · rw [length_groups, Nat.mul_comm]
  · rintro ⟨f, hf, j, hj, rfl⟩
    exact ⟨_, by omega, (row_group hsizes hn hf hj).symm⟩
  · rintro ⟨i, hi, rfl⟩
    obtain ⟨hgroup, hrow, hfound⟩ := hfound i hi
    exact ⟨_, hgroup, _, hrow, hfound⟩
  · rintro s rfl hfold capacity hcapacity
    have hleast := isLeast_ceilDiv hn hcapacity
    rw [← folds_fold hfold hn hcapacity] at hleast
    exact ⟨folds_fold hfold hn hcapacity, rows_fold s capacity, hleast, fun f hf => fold_start_lt hfold hn hcapacity hf⟩

/-- Of five rows, folded into two groups of three, the last one is the second row of the second group, and it is
    repeated below. A capacity of three rows leads to these groups. -/
theorem foldGrid_of_five_rows :
    let g : Grid := [#[1, 2, 3, 4, 5], #[6, 7, 8, 9, 10]]
    let folded : Grid := [#[1, 2, 3], #[6, 7, 8], #[4, 5, 5], #[9, 10, 10]]
    foldGrid g 2 = .ok folded ∧ (folded.group 2 1).row 1 = g.row 4 ∧
      (∀ x, (∃ f < 2, ∃ j < 3, (folded.group 2 f).row j = x) ↔ ∃ i < 5, g.row i = x) ∧
      (Shape.fold ⟨"t", 2, 5, true⟩ 3).folds = 2 ∧ 1 * (Shape.fold ⟨"t", 2, 5, true⟩ 3).rows < 5 := by
  intro g folded
  have hfolded : foldGrid g 2 = .ok folded := by decide +kernel
  have hsizes : ∀ column ∈ g, column.size = 5 := by decide
  obtain ⟨⟨folded', hok, -, -, -, hfound, hrows⟩, hfolds⟩ :=
    foldGrid_lossless hsizes (by decide) (show 0 < 2 by decide)
  obtain rfl := Except.ok.inj (hfolded.symm.trans hok)
  obtain ⟨hnumber, -, -, hstart⟩ := hfolds ⟨"t", 2, 5, true⟩ rfl rfl 3 (by decide)
  exact ⟨hfolded, (hfound 4 (by decide)).2.2, hrows, hnumber, hstart 1 (by decide)⟩

end Lookup
end Plonkish
