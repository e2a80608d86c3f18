import Mathlib.Data.List.Basic
import Plonkish.Lookup.Fold

/-! The cells of a folded table. Column `i` of group `f` is column `f * width + i` of the folded grid, and
    its cell in row `r` is the cell of the table in row `f * height + r`, or in the last row past the end
    (`getElem?_groups`, `getElem?_foldColumn`). The groups reach every row (`exists_row_of_group`). -/

namespace Plonkish
namespace Lookup

/-! ### Heights -/

theorem ceilDiv_one (n : Nat) : ceilDiv n 1 = n := by
  simp [ceilDiv]

theorem le_mul_ceilDiv {n folds : Nat} (h : 0 < folds) : n ≤ folds * ceilDiv n folds := by
  unfold ceilDiv
  have hdiv := Nat.div_add_mod (n + folds - 1) folds
  have hmod := Nat.mod_lt (n + folds - 1) h
  omega

theorem ceilDiv_pos {n folds : Nat} (hn : 0 < n) (h : 0 < folds) : 0 < ceilDiv n folds :=
  Nat.pos_of_ne_zero fun h0 => by
    have hle := le_mul_ceilDiv (n := n) h
    rw [h0] at hle
    omega

theorem ceilDiv_eq {n size k : Nat} (hk : k * size < n + size) (hn : n ≤ k * size) : ceilDiv n size = k := by
  unfold ceilDiv
  exact Nat.div_eq_of_lt_le (by omega) (by rw [Nat.add_mul]; omega)

/-- Where a row of a table lies in the groups. -/
theorem group_of_row {n folds i : Nat} (h : 0 < folds) (hi : i < n) :
    i / ceilDiv n folds < folds ∧ i % ceilDiv n folds < ceilDiv n folds ∧
      min (i / ceilDiv n folds * ceilDiv n folds + i % ceilDiv n folds) (n - 1) = i := by
  have hpos := ceilDiv_pos (Nat.zero_lt_of_lt hi) h
  have hle := le_mul_ceilDiv (n := n) h
  refine ⟨?_, Nat.mod_lt _ hpos, ?_⟩
  · exact Nat.div_lt_of_lt_mul (by rw [Nat.mul_comm]; omega)
  · rw [Nat.div_add_mod']
    omega

/-- Every row of a table is a row of one of its groups. -/
theorem exists_row_of_group {n folds i : Nat} (h : 0 < folds) (hi : i < n) :
    ∃ f < folds, ∃ r < ceilDiv n folds, min (f * ceilDiv n folds + r) (n - 1) = i := by
  obtain ⟨hgroup, hrow, hcell⟩ := group_of_row h hi
  exact ⟨_, hgroup, _, hrow, hcell⟩

/-! ### Groups -/

theorem group_add_lt {f folds i w : Nat} (hf : f < folds) (hi : i < w) : f * w + i < folds * w := by
  have hle : (f + 1) * w ≤ folds * w := Nat.mul_le_mul_right w hf
  rw [Nat.add_mul, Nat.one_mul] at hle
  omega

theorem length_flatMap_range {α : Type} {f : Nat → List α} {w : Nat} (hf : ∀ i, (f i).length = w) (n : Nat) :
    ((List.range n).flatMap f).length = n * w := by
  induction n with
  | zero => simp
  | succ n ih => simp [List.range_succ, ih, hf, Nat.add_mul]

/-- Lists of one length, one after the other. -/
theorem getElem?_flatMap_range {α : Type} {f : Nat → List α} {w : Nat} (hf : ∀ i, (f i).length = w)
    {n j i : Nat} (hj : j < n) (hi : i < w) : ((List.range n).flatMap f)[j * w + i]? = (f j)[i]? := by
  induction n with
  | zero => cases hj
  | succ n ih =>
    rw [List.range_succ, List.flatMap_append, List.flatMap_singleton]
    have hlen := length_flatMap_range hf n
    rcases Nat.lt_succ_iff_lt_or_eq.mp hj with hj | rfl
    · rw [List.getElem?_append_left (hlen ▸ group_add_lt hj hi), ih hj]
    · rw [List.getElem?_append_right (by omega), hlen, Nat.add_sub_cancel_left]

theorem getElem?_foldColumn {column : Array Scalar} {start height rows r : Nat} (hr : r < height) :
    (foldColumn column start height rows)[r]? = some (column[min (start + r) (rows - 1)]?.getD 0) := by
  simp [foldColumn, hr]

theorem size_foldColumn (column : Array Scalar) (start height rows : Nat) :
    (foldColumn column start height rows).size = height :=
  Array.size_ofFn

theorem groups_eq (g : Grid) (folds : Nat) : groups g folds =
    (List.range folds).flatMap fun fold =>
      g.map fun column => foldColumn column (fold * ceilDiv g.rows folds) (ceilDiv g.rows folds) g.rows := by
  unfold groups
  split
  · rename_i h
    obtain rfl := List.isEmpty_iff.mp h
    simp
  · rfl

theorem length_groups (g : Grid) (folds : Nat) : (groups g folds).length = folds * g.length := by
  rw [groups_eq]
  exact length_flatMap_range (fun _ => List.length_map _) folds

/-- The columns of a folded grid, by group and column. -/
theorem getElem?_groups {g : Grid} {folds f i : Nat} (hf : f < folds) (hi : i < g.length) :
    (groups g folds)[f * g.length + i]? = some (foldColumn g[i] (f * ceilDiv g.rows folds)
      (ceilDiv g.rows folds) g.rows) := by
  rw [groups_eq, getElem?_flatMap_range (fun _ => List.length_map _) hf hi]
  simp [hi]

theorem size_of_mem_groups {g : Grid} {folds : Nat} {column : Array Scalar} (h : column ∈ groups g folds) :
    column.size = ceilDiv g.rows folds := by
  rw [groups_eq] at h
  obtain ⟨fold, -, h⟩ := List.mem_flatMap.mp h
  obtain ⟨c, -, rfl⟩ := List.mem_map.mp h
  exact size_foldColumn ..

theorem foldGrid_eq_ok {g g' : Grid} {folds : Nat} (h : foldGrid g folds = .ok g') :
    0 < folds ∧ g' = groups g folds := by
  unfold foldGrid at h
  split at h
  · cases h
  · rename_i h0
    split at h
    · cases h
    · exact ⟨Nat.pos_of_ne_zero h0, (Except.ok.inj h).symm⟩

theorem rows_of_cons {column : Array Scalar} {rest : Grid} {n : Nat}
    (hsizes : ∀ values ∈ column :: rest, values.size = n) : Grid.rows (column :: rest) = n :=
  hsizes column List.mem_cons_self

/-- Columns of one length are folded without a fault. -/
theorem foldGrid_of_sizes {g : Grid} {n folds : Nat} (hsizes : ∀ column ∈ g, column.size = n) (hf : 0 < folds) :
    foldGrid g folds = .ok (groups g folds) := by
  have hlong : ¬ g.any (·.size < g.rows) := by
    rw [List.any_eq_true]
    rintro ⟨column, hc, hlt⟩
    cases g with
    | nil => cases hc
    | cons values rest =>
      have hlt : column.size < Grid.rows (values :: rest) := of_decide_eq_true hlt
      rw [hsizes column hc, rows_of_cons hsizes] at hlt
      exact Nat.lt_irrefl n hlt
  rw [foldGrid, if_neg (Nat.ne_of_gt hf), if_neg hlong]

end Lookup
end Plonkish
