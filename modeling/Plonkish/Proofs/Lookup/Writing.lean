import Plonkish.Lookup.Pack.Basic
import Plonkish.Proofs.Steps

/-! What writing a grid does to a table. Values written downwards fill the cells from the first row on and
    leave all others (`cell_writeDown`). So a grid written into distinct columns is found there cell by
    cell (`cell_writeGrid_of_mem`), and the cells around it stay as they were (`cell_writeGrid_of_forall`). -/

namespace Plonkish
namespace Assignment
variable {t t' : Assignment}

/-! ### Widths -/

theorem width_modify (t : Assignment) (kind : ColumnKind) (column : Nat) (f : Array Scalar → Array Scalar)
    (k : ColumnKind) : (t.modify kind fun cs => cs.modify column f).width k = t.width k := by
  unfold width
  rw [columns_modify]
  split
  · rw [Array.size_modify]
  · rfl

theorem width_enableRange {selector first stop : Nat} (h : t.enableRange selector first stop = .ok t')
    (k : ColumnKind) : t'.width k = t.width k := by
  unfold enableRange at h
  split at h
  · rw [← Except.ok.inj h]
  · split at h
    · rw [← Except.ok.inj h, width_modify]
    · cases h

theorem exists_enableRange_iff {selector first stop : Nat} :
    (∃ t', t.enableRange selector first stop = .ok t') ↔ stop ≤ first ∨ selector < t.width .selector := by
  unfold enableRange
  split
  · rename_i hnone
    exact iff_of_true ⟨_, rfl⟩ (Or.inl hnone)
  · rename_i hsome
    split
    · rename_i hlt
      exact iff_of_true ⟨_, rfl⟩ (Or.inr hlt)
    · rename_i hlt
      exact iff_of_false nofun (not_or.mpr ⟨hsome, hlt⟩)

theorem exists_enableRange {selector : Nat} (h : selector < t.width .selector) (first stop : Nat) :
    ∃ t', t.enableRange selector first stop = .ok t' := exists_enableRange_iff.mpr (Or.inr h)

theorem width_writeDown {kind : ColumnKind} {column row : Nat} {xs : List Scalar}
    (h : t.writeDown kind column row xs = .ok t') (k : ColumnKind) : t'.width k = t.width k := by
  induction xs generalizing t row with
  | nil => rw [← Except.ok.inj h]
  | cons x xs ih =>
    obtain ⟨t₁, h₁, h⟩ := bind_eq_ok.mp h
    rw [ih h, width_set h₁]

theorem lt_width_of_set {kind : ColumnKind} {column row : Nat} {x : Scalar}
    (h : t.set kind column row x = .ok t') : column < t.width kind := by
  unfold set at h
  split at h
  · assumption
  · cases h

/-! ### Cells -/

theorem cell_blank (witnesses constants publicInputs selectors : Nat) (kind : ColumnKind) (column row : Nat) :
    (blank witnesses constants publicInputs selectors).cell kind column row = 0 := by
  cases kind <;> simp [blank, cell, columns, Array.getElem?_replicate] <;> split <;> simp

/-- Where the columns from the `n`th on are empty, so are their cells. -/
theorem cell_of_empty {kind : ColumnKind} {n column row : Nat}
    (hempty : ∀ xs ∈ (t.columns kind).toList.drop n, xs = #[]) (hle : n ≤ column) : t.cell kind column row = 0 := by
  unfold cell
  cases hxs : (t.columns kind)[column]? with
  | none => rfl
  | some xs =>
    have hmem : xs ∈ (t.columns kind).toList.drop n := by
      rw [List.mem_iff_getElem?]
      refine ⟨column - n, ?_⟩
      rw [List.getElem?_drop, Nat.add_sub_cancel' hle, Array.getElem?_toList, hxs]
    obtain rfl := hempty xs hmem
    rfl

/-- Values written downwards are the cells from the first row on; no other cell changes. -/
theorem cell_writeDown {kind : ColumnKind} {column row : Nat} {xs : List Scalar}
    (h : t.writeDown kind column row xs = .ok t') (k : ColumnKind) (c r : Nat) :
    t'.cell k c r = if k = kind ∧ c = column ∧ row ≤ r ∧ r < row + xs.length then xs[r - row]?.getD 0
      else t.cell k c r := by
  induction xs generalizing t row with
  | nil =>
    rw [← Except.ok.inj h, if_neg]
    rintro ⟨-, -, hle, hlt⟩
    simp only [List.length_nil] at hlt
    omega
  | cons x xs ih =>
    obtain ⟨t₁, h₁, h⟩ := bind_eq_ok.mp h
    rw [ih h, cell_set h₁, List.length_cons]
    by_cases hk : k = kind ∧ c = column
    · simp only [hk.1, hk.2, true_and]
      -- The head goes to the first row, and the rest is written from the next row on.
      by_cases hr : r = row
      · subst hr
        rw [if_neg (by omega), if_pos rfl, if_pos (by omega), Nat.sub_self]
        rfl
      · by_cases hin : row + 1 ≤ r ∧ r < row + 1 + xs.length
        · have hsub : r - row = r - (row + 1) + 1 := by omega
          rw [if_pos hin, if_pos (by omega), hsub, List.getElem?_cons_succ]
        · rw [if_neg hin, if_neg hr, if_neg (by omega)]
    · rw [if_neg fun hc => hk ⟨hc.1, hc.2.1⟩, if_neg fun hc => hk ⟨hc.1, hc.2.1⟩, if_neg fun hc => hk ⟨hc.1, hc.2.1⟩]

end Assignment

namespace Lookup
variable {c c' : Circuit} {row : Nat} {cells : List (Nat × Array Scalar)}

theorem writeGrid_cons_eq_ok {e : Nat × Array Scalar} (h : writeGrid c row (e :: cells) = .ok c') :
    ∃ t, c.table.writeDown .constant e.1 row e.2.toList = .ok t ∧
      writeGrid { c with table := t } row cells = .ok c' := by
  obtain ⟨c₁, h₁, h⟩ := bind_eq_ok.mp h
  obtain ⟨t, ht, h₁⟩ := bind_eq_ok.mp h₁
  rw [← Except.ok.inj h₁] at h
  exact ⟨t, ht, h⟩

theorem system_writeGrid (h : writeGrid c row cells = .ok c') : c'.system = c.system := by
  induction cells generalizing c with
  | nil => rw [← Except.ok.inj h]
  | cons e rest ih =>
    obtain ⟨t, -, hrest⟩ := writeGrid_cons_eq_ok h
    exact (ih hrest).trans rfl

theorem width_writeGrid (h : writeGrid c row cells = .ok c') (k : ColumnKind) :
    c'.table.width k = c.table.width k := by
  induction cells generalizing c with
  | nil => rw [← Except.ok.inj h]
  | cons e rest ih =>
    obtain ⟨t, ht, hrest⟩ := writeGrid_cons_eq_ok h
    exact (ih hrest).trans (Assignment.width_writeDown ht k)

/-- A column with values can be written only if it exists. -/
theorem lt_width_of_writeGrid (h : writeGrid c row cells = .ok c') {column : Nat} {values : Array Scalar}
    (hmem : (column, values) ∈ cells) (hpos : 0 < values.size) : column < c.table.width .constant := by
  induction cells generalizing c with
  | nil => cases hmem
  | cons e rest ih =>
    obtain ⟨t, ht, hrest⟩ := writeGrid_cons_eq_ok h
    rcases List.mem_cons.mp hmem with rfl | hmem
    · obtain ⟨x, xs, hxs⟩ := List.exists_cons_of_length_pos (l := values.toList) (by simpa using hpos)
      rw [hxs] at ht
      obtain ⟨t₁, hset, -⟩ := bind_eq_ok.mp ht
      exact Assignment.lt_width_of_set hset
    · exact Assignment.width_writeDown ht .constant ▸ ih hrest hmem

theorem cell_writeGrid_of_forall (h : writeGrid c row cells = .ok c') {k : ColumnKind} {column r : Nat}
    (hout : ∀ e ∈ cells, k = .constant → column = e.1 → ¬ (row ≤ r ∧ r < row + e.2.size)) :
    c'.table.cell k column r = c.table.cell k column r := by
  induction cells generalizing c with
  | nil => rw [← Except.ok.inj h]
  | cons e rest ih =>
    obtain ⟨t, ht, hrest⟩ := writeGrid_cons_eq_ok h
    rw [ih hrest fun e he => hout e (List.mem_cons_of_mem _ he), Assignment.cell_writeDown ht, if_neg]
    rintro ⟨hk, hc, hr⟩
    exact hout e List.mem_cons_self hk hc (by simpa using hr)

/-- A grid written into distinct columns is found there. -/
theorem cell_writeGrid_of_mem (h : writeGrid c row cells = .ok c') (hnodup : (cells.map Prod.fst).Nodup)
    {column r : Nat} {values : Array Scalar} (hmem : (column, values) ∈ cells) (hr : r < values.size) :
    c'.table.cell .constant column (row + r) = values[r]?.getD 0 := by
  induction cells generalizing c with
  | nil => cases hmem
  | cons e rest ih =>
    obtain ⟨t, ht, hrest⟩ := writeGrid_cons_eq_ok h
    rw [List.map_cons, List.nodup_cons] at hnodup
    rcases List.mem_cons.mp hmem with rfl | hmem
    · have hnot : ∀ e ∈ rest, column ≠ e.1 := fun e he hce =>
        hnodup.1 (List.mem_map.mpr ⟨e, he, hce.symm⟩)
      rw [cell_writeGrid_of_forall hrest fun e he _ hce => absurd hce (hnot e he), Assignment.cell_writeDown ht, if_pos]
      · rw [Nat.add_sub_cancel_left, Array.getElem?_toList]
      · exact ⟨rfl, rfl, by omega, by simpa using hr⟩
    · exact ih hrest hnodup.2 hmem

end Lookup
end Plonkish
