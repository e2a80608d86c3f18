import Plonkish.Assignment.Dump
import Plonkish.Proofs.Satisfaction
import Plonkish.Proofs.Text.Words

/-! The text of a table tells the table. Its first line is five numbers between words that are always the same, so
    it tells the number of columns of each kind and the number of rows (`sizesText_inj`). Every other line is four
    groups between bars, and a group is as many numbers between blanks as the kind has columns, so a line tells its
    cells (`rowText_inj`). Cells below the last line were never written. -/

namespace Plonkish
namespace Assignment
variable {t u : Assignment} {row : Nat} {kind : ColumnKind} {c : Char}

/-! ### A row -/

/-- The texts of the cells of one kind in one row. -/
def numbers (t : Assignment) (row : Nat) (kind : ColumnKind) : List (List Char) :=
  (List.range (t.width kind)).map fun column => (t.cell kind column row).val.repr.toList

/-- The text of the cells of one kind in one row. -/
def group (t : Assignment) (row : Nat) (kind : ColumnKind) : List Char := [' '].intercalate (t.numbers row kind)

theorem toList_rowText (t : Assignment) (row : Nat) :
    (t.rowText row).toList = [' ', '|', ' '].intercalate (ColumnKind.all.map (t.group row)) := by
  rw [rowText, String.toList_intercalate, List.map_map]
  refine congrArg _ (List.map_congr_left fun kind _ => ?_)
  rw [Function.comp_apply, String.toList_intercalate, List.map_map]
  rfl

theorem isDigit_of_mem_numbers {n : List Char} (hn : n ∈ t.numbers row kind) (hc : c ∈ n) : c.isDigit := by
  obtain ⟨column, -, rfl⟩ := List.mem_map.mp hn
  exact isDigit_of_mem_repr hc

theorem notMem_numbers (hc : c.isDigit = false) : ∀ n ∈ t.numbers row kind, c ∉ n := fun _ hn hmem =>
  ne_of_isDigit (isDigit_of_mem_numbers hn hmem) hc rfl

theorem notMem_group (hc : c.isDigit = false) (hblank : c ≠ ' ') : c ∉ t.group row kind := by
  intro hmem
  rcases mem_intercalate hmem with h | ⟨n, hn, h⟩
  · exact hblank (List.mem_singleton.mp h)
  · exact notMem_numbers hc n hn h

theorem newline_notMem_rowText (t : Assignment) (row : Nat) : '\n' ∉ (t.rowText row).toList := by
  rw [toList_rowText]
  intro hmem
  rcases mem_intercalate hmem with h | ⟨g, hg, h⟩
  · exact absurd h (by decide)
  · obtain ⟨kind, -, rfl⟩ := List.mem_map.mp hg
    exact notMem_group (by decide) (by decide) h

theorem group_inj (hwidth : t.width kind = u.width kind) (h : t.group row kind = u.group row kind) {column : Nat}
    (hcolumn : column < t.width kind) : t.cell kind column row = u.cell kind column row := by
  have hlength : (t.numbers row kind).length = (u.numbers row kind).length := by simp [numbers, hwidth]
  have hnumbers := intercalate_inj [] [] List.not_mem_nil hlength (notMem_numbers (by decide))
    (notMem_numbers (by decide)) h
  unfold numbers at hnumbers
  rw [hwidth] at hnumbers
  have hcell := List.map_inj_left.mp hnumbers column (List.mem_range.mpr (hwidth ▸ hcolumn))
  exact Fin.ext (repr_toList_inj hcell)

/-- Groups have digits and blanks only, so the bars stand between them. -/
theorem rowText_inj (hwidth : ∀ kind, t.width kind = u.width kind) (h : t.rowText row = u.rowText row)
    {column : Nat} (hcolumn : column < t.width kind) : t.cell kind column row = u.cell kind column row := by
  have hbar : ∀ {t : Assignment}, ∀ g ∈ ColumnKind.all.map (t.group row), '|' ∉ g := by
    intro t g hg
    obtain ⟨kind, -, rfl⟩ := List.mem_map.mp hg
    exact notMem_group (by decide) (by decide)
  have htext := congrArg String.toList h
  rw [toList_rowText, toList_rowText] at htext
  have hgroups := intercalate_inj [' '] [' '] (by decide) (by simp) hbar hbar htext
  exact group_inj (hwidth kind) (List.map_inj_left.mp hgroups kind (ColumnKind.mem_all kind)) hcolumn

/-! ### The first line -/

theorem toList_sizesText (t : Assignment) : t.sizesText.toList = "witnesses_size: ".toList ++
    ((t.width .witness).repr.toList ++ (" constants_size: ".toList ++
      ((t.width .constant).repr.toList ++ (" public_inputs_size: ".toList ++
        ((t.width .publicInput).repr.toList ++ (" selectors_size: ".toList ++
          ((t.width .selector).repr.toList ++ (" rows: ".toList ++ t.height.repr.toList)))))))) := by
  have hrepr : ∀ n : Nat, toString n = n.repr := fun _ => rfl
  unfold sizesText
  rw [hrepr, hrepr, hrepr, hrepr, hrepr]
  simp only [String.toList_append, List.append_assoc]

theorem sizesText_inj (h : t.sizesText = u.sizesText) :
    (∀ kind, t.width kind = u.width kind) ∧ t.height = u.height := by
  have hblank : (' ').isDigit = false := by decide
  have htext := congrArg String.toList h
  rw [toList_sizesText, toList_sizesText] at htext
  -- Each number ends at the blank that the next word begins with.
  obtain ⟨hwitnesses, htext⟩ := number_append_inj (by decide) hblank (List.append_cancel_left htext)
  obtain ⟨hconstants, htext⟩ := number_append_inj (by decide) hblank htext
  obtain ⟨hpublicInputs, htext⟩ := number_append_inj (by decide) hblank htext
  obtain ⟨hselectors, htext⟩ := number_append_inj (by decide) hblank htext
  refine ⟨fun kind => ?_, repr_toList_inj htext⟩
  cases kind with
  | witness => exact hwitnesses
  | constant => exact hconstants
  | publicInput => exact hpublicInputs
  | selector => exact hselectors

theorem newline_notMem_sizesText (t : Assignment) : '\n' ∉ t.sizesText.toList := by
  have hnumber : ∀ n : Nat, '\n' ∉ n.repr.toList := fun n hmem =>
    ne_of_isDigit (isDigit_of_mem_repr hmem) (by decide) rfl
  simp only [toList_sizesText, List.mem_append, hnumber, not_or]
  decide

/-! ### All lines -/

/-- The lines of the text of a table. -/
def lines (t : Assignment) : List (List Char) :=
  t.sizesText.toList :: (List.range t.height).map fun row => (t.rowText row).toList

theorem toList_dump (t : Assignment) : t.dump.toList = t.lines.flatMap (· ++ ['\n']) := by
  simp [dump, lines, String.toList_join, List.flatMap_map]

theorem newline_notMem_lines (t : Assignment) : ∀ l ∈ t.lines, '\n' ∉ l := by
  refine List.forall_mem_cons.mpr ⟨t.newline_notMem_sizesText, fun l hl => ?_⟩
  obtain ⟨row, -, rfl⟩ := List.mem_map.mp hl
  exact t.newline_notMem_rowText row

theorem dump_congr (hwidth : ∀ kind, t.width kind = u.width kind) (hheight : t.height = u.height)
    (hcell : ∀ kind, ∀ column < t.width kind, ∀ row, t.cell kind column row = u.cell kind column row) :
    t.dump = u.dump := by
  have hrow : ∀ row, t.rowText row = u.rowText row := by
    intro row
    unfold rowText
    refine congrArg _ (List.map_congr_left fun kind _ => ?_)
    rw [← hwidth kind]
    refine congrArg _ (List.map_congr_left fun column hcolumn => ?_)
    rw [hcell kind column (List.mem_range.mp hcolumn) row]
  have hsizes : t.sizesText = u.sizesText := by
    unfold sizesText
    simp only [hwidth, hheight]
  unfold dump
  rw [hsizes, hheight, List.map_congr_left fun row _ => hrow row]

/-- Two tables have one text exactly if they have as many columns of each kind and as many rows, and equal values in
    all their cells, where a cell that was never written is zero. -/
theorem dump_eq_iff (t u : Assignment) :
    t.dump = u.dump ↔ (∀ kind, t.width kind = u.width kind) ∧ t.height = u.height ∧
      ∀ kind, ∀ column < t.width kind, ∀ row, t.cell kind column row = u.cell kind column row := by
  refine ⟨fun h => ?_, fun ⟨hwidth, hheight, hcell⟩ => dump_congr hwidth hheight hcell⟩
  have htext := congrArg String.toList h
  rw [toList_dump, toList_dump] at htext
  have hlines := lines_inj t.newline_notMem_lines u.newline_notMem_lines htext
  unfold lines at hlines
  obtain ⟨hsizes, hrows⟩ := List.cons.inj hlines
  obtain ⟨hwidth, hheight⟩ := sizesText_inj (String.toList_inj.mp hsizes)
  refine ⟨hwidth, hheight, fun kind column hcolumn row => ?_⟩
  by_cases hrow : row < t.height
  · rw [hheight] at hrows hrow
    have hline := List.map_inj_left.mp hrows row (List.mem_range.mpr hrow)
    exact rowText_inj hwidth (String.toList_inj.mp hline) hcolumn
  · have hrow := Nat.le_of_not_lt hrow
    rw [cell_of_height_le hrow, cell_of_height_le (hheight ▸ hrow)]

/-- Columns of other lengths, with a zero written where the other table has nothing; there are no constants. -/
example : (⟨#[#[3, 0], #[]], #[], #[#[0, 5]], #[]⟩ : Assignment).dump =
    (⟨#[#[3], #[0]], #[], #[#[0, 5]], #[]⟩ : Assignment).dump := by decide +kernel

end Assignment
end Plonkish
