import Mathlib
import Plonkish.Proofs.Lookup.Bands

/-! What it means that the budgets are exhausted (`exhausted_answers`). No budget that the search tries has a layout.
    It tries the given one and then those that are three less than a power of two, and none in between (`budgets`).
    Up to four rows no budget at all has a layout then, since tables with a layout under fewer rows have one
    (`attempt_of_few_rows`). For every number of rows from five on there are two tables that exhaust the budgets
    and have a layout under one row less. They are laid in two columns, and one row makes the difference
    whether the second one is folded, and so whether both together are too high or not
    (`attempt_wideAndTall`, `attempt_wideAndTall_eq_none`). -/

namespace Plonkish
namespace Lookup

variable {shapes rest : List Shape} {available budget : Nat} {l : Layout} {s t : Shape}

/-! ### What an attempt needs -/

theorem width_le_of_attempt (h : attempt shapes available budget = some l) (hs : s ∈ shapes) :
    (s.fold (budget - firstRow)).width ≤ available := by
  obtain ⟨-, hplaced⟩ := placed_of_attempt h
  obtain ⟨p, hp, hstrip⟩ := List.mem_map.mp (hplaced.strips.mem_iff.mpr (List.mem_map_of_mem hs))
  have hright := (hplaced.within p hp).right
  unfold Placement.right at hright
  rw [← hstrip]
  omega

/-- Two tables with no room side by side lie one below the other. -/
theorem rows_le_of_attempt (h : attempt (s :: t :: rest) available budget = some l)
    (hwide : available < (s.fold (budget - firstRow)).width + (t.fold (budget - firstRow)).width) :
    firstRow + (s.fold (budget - firstRow)).rows + (t.fold (budget - firstRow)).rows ≤ budget := by
  obtain ⟨-, hplaced⟩ := placed_of_attempt h
  obtain ⟨p, hp, hps⟩ := List.mem_map.mp (hplaced.strips.mem_iff.mpr List.mem_cons_self)
  obtain ⟨before, after, hsplit⟩ := List.append_of_mem hp
  have hothers : ((before ++ after).map Placement.strip).Perm ((t :: rest).map (·.fold (budget - firstRow))) := by
    have hperm := hplaced.strips
    rw [hsplit, (List.perm_middle.map _).congr_left, List.map_cons, hps] at hperm
    exact hperm.cons_inv
  obtain ⟨q, hq, hqt⟩ := List.mem_map.mp (hothers.mem_iff.mpr List.mem_cons_self)
  have hclear : q.Clears p ∨ p.Clears q := by
    have hpairs := hplaced.clear
    rw [hsplit, List.pairwise_append, List.pairwise_cons] at hpairs
    exact (List.mem_append.mp hq).imp (fun hq => hpairs.2.2 q hq p List.mem_cons_self) (hpairs.2.1.1 q)
  have hp := hplaced.within p hp
  have hq := hplaced.within q (hsplit ▸ ((List.sublist_cons_self p after).append_left before).subset hq)
  obtain ⟨-, hpright, hptop, hpbottom⟩ := hp
  obtain ⟨-, hqright, hqtop, hqbottom⟩ := hq
  simp only [← hps, ← hqt] at hwide ⊢
  unfold Placement.Clears Placement.right Placement.bottom at *
  omega

/-! ### Two tables in two columns -/

/-- A table of two columns, and one of one column and twice as many rows. -/
def wideAndTall (n : Nat) : List Shape := [⟨"a", 2, n / 2 + 1, true⟩, ⟨"b", 1, n + 4, true⟩]

theorem Shape.fold_eq {folds capacity : Nat} (hfold : s.foldable = true) (hfolds : max 1 (ceilDiv s.rows capacity) = folds) :
    s.fold capacity = ⟨s.name, s.columns, ceilDiv s.rows folds, folds⟩ := by
  rw [Shape.fold, hfold, if_pos rfl, hfolds]

theorem attempt_wideAndTall (n : Nat) : attempt (wideAndTall n) 2 (n + 4) =
    some ⟨n + 4, [⟨⟨"a", 2, n / 2 + 1, 1⟩, 0, 1⟩, ⟨⟨"b", 1, (n + 5) / 2, 2⟩, 0, n / 2 + 2⟩]⟩ := by
  have hstrips : (wideAndTall n).map (·.fold (n + 4 - firstRow)) =
      [⟨"a", 2, n / 2 + 1, 1⟩, ⟨"b", 1, (n + 5) / 2, 2⟩] := by
    have ha : max 1 (ceilDiv (n / 2 + 1) (n + 3)) = 1 := by rw [ceilDiv_eq (k := 1) (by omega) (by omega)]; rfl
    have hb : max 1 (ceilDiv (n + 4) (n + 3)) = 2 := by rw [ceilDiv_eq (k := 2) (by omega) (by omega)]; rfl
    rw [wideAndTall, List.map_cons, List.map_cons, List.map_nil, Shape.fold_eq rfl ha, Shape.fold_eq rfl hb, ceilDiv_one]
    rfl
  have hsort : [(⟨"a", 2, n / 2 + 1, 1⟩ : Strip), ⟨"b", 1, (n + 5) / 2, 2⟩].mergeSort Strip.before =
      [⟨"a", 2, n / 2 + 1, 1⟩, ⟨"b", 1, (n + 5) / 2, 2⟩] := by
    refine List.mergeSort_of_pairwise (List.pairwise_pair.mpr ?_)
    have hrows : n / 2 + 1 < (n + 5) / 2 := by omega
    simp [Strip.before, Strip.width, hrows]
  have hlow : ¬ (n + 4 ≤ firstRow) := by unfold firstRow; omega
  have hy : 1 + (n / 2 + 1) = n / 2 + 2 := by omega
  have hfits : n / 2 + 2 + (n + 5) / 2 ≤ n + 4 := by omega
  have ha : ¬ (n + 4 < n / 2 + 2) := by omega
  have hb : ¬ (n + 4 < 1 + (n + 5) / 2) := by omega
  rw [attempt, if_neg hlow, hstrips]
  simp [hsort, fillBands, fillBand, Strip.width, firstRow, hy, hfits, ha, hb]

/-- The wide table is not folded in two columns, so its rows and those of the other one come on top of each other. -/
theorem attempt_wideAndTall_eq_none {n c : Nat} (h : c ≤ n + 3 ∨ c = n + 5) : attempt (wideAndTall n) 2 c = none := by
  by_contra hne
  obtain ⟨l, hl⟩ := Option.ne_none_iff_exists'.mp hne
  have hwa := width_le_of_attempt hl List.mem_cons_self
  have hwb := width_le_of_attempt hl (List.mem_cons_of_mem _ List.mem_cons_self)
  have hrows := rows_le_of_attempt hl
  obtain ⟨fa, hfa⟩ : ∃ fa, max 1 (ceilDiv (n / 2 + 1) (c - firstRow)) = fa := ⟨_, rfl⟩
  obtain ⟨fb, hfb⟩ : ∃ fb, max 1 (ceilDiv (n + 4) (c - firstRow)) = fb := ⟨_, rfl⟩
  rw [Shape.fold_eq rfl hfa] at hwa hrows
  rw [Shape.fold_eq rfl hfb] at hwb hrows
  simp only [Strip.width] at hwa hwb hrows
  -- The wide table takes both columns, so it is not folded.
  obtain rfl : fa = 1 := by omega
  rw [ceilDiv_one] at hrows
  obtain rfl | rfl : fb = 1 ∨ fb = 2 := by omega
  · -- In one piece the tall table is too high below the wide one.
    rw [ceilDiv_one] at hrows
    unfold firstRow at hrows
    omega
  · have hhalf : n + 4 ≤ 2 * ceilDiv (n + 4) 2 := le_mul_ceilDiv (by omega)
    -- In two groups both need `n + 4` rows, and under `n + 5` the tall one is not folded.
    rcases h with h | rfl
    · unfold firstRow at hrows
      omega
    · rw [ceilDiv_eq (k := 1) (by unfold firstRow; omega) (by unfold firstRow; omega)] at hfb
      cases hfb

/-- No budget that the search tries from `n + 5` on is `n + 4`. -/
theorem le_or_eq_of_mem_budgets {n c : Nat} (h : c ∈ budgets (n + 5)) : c ≤ n + 3 ∨ c = n + 5 := by
  rcases Nat.lt_or_ge (n + 5) 8 with hn | hn
  · rw [budgets_of_lt hn] at h
    exact Or.inr (List.mem_singleton.mp h)
  · rw [budgets_of_le hn] at h
    rcases List.mem_cons.mp h with rfl | h
    · exact Or.inr rfl
    · have hc := le_of_mem_budgets h
      have hpow : 2 ^ (n + 5).log2 ≤ n + 5 := Nat.log2_self_le (by omega)
      exact Or.inl (by omega)

theorem wideAndTall_not_refused (n budget : Nat) : ∀ s ∈ wideAndTall n, ¬ s.Refused 2 budget := by
  simp [wideAndTall, Shape.Refused]

/-! ### The same two in use -/

/-- A table of zeros with one subtable, which is all of it. -/
def whole (name : String) (width rows : Nat) : Table :=
  ⟨name, width, ⟨[("all", ⟨List.range width, 0, rows - 1, Nat.zero_le _⟩)], List.pairwise_singleton ..⟩,
    Thunk.mk fun _ => List.replicate width (Array.replicate rows 0)⟩

theorem columns_whole {width rows : Nat} (name : String) (hwidth : 0 < width) (hrows : 0 < rows) :
    ∃ g : Grid, (whole name width rows).columns = .ok g ∧ g.rows = rows := by
  let g : Grid := List.replicate width (Array.replicate rows 0)
  have hg : g.rows = rows := by
    obtain ⟨w, rfl⟩ := Nat.exists_eq_add_of_lt hwidth
    simp [g, Grid.rows, List.replicate_succ]
  refine ⟨g, ?_, hg⟩
  change (whole name width rows).check g = .ok g
  have hlength : g.length = width := List.length_replicate
  have hragged : ∀ values ∈ g, values.size = rows := by
    intro values hv
    rw [List.eq_of_mem_replicate hv, Array.size_replicate]
  have hlong : ¬ rows ≤ rows - 1 := by omega
  simpa [Table.check, whole, hlength, hg, hlong] using hragged

theorem shape_whole {width rows : Nat} (name : String) (hwidth : 0 < width) (hrows : 0 < rows) (reserved : Reserved) :
    (whole name width rows).shape reserved = .ok ⟨name, width, rows, true⟩ := by
  obtain ⟨g, hcolumns, hg⟩ := columns_whole name hwidth hrows
  have hspans : ((whole name width rows).references reserved).all (·.subtable.spans rows) = true := by
    refine List.all_eq_true.mpr fun r hr => ?_
    obtain ⟨e, he, hr⟩ := List.mem_filterMap.mp hr
    obtain rfl := List.mem_singleton.mp he
    obtain ⟨id, -, rfl⟩ := Option.map_eq_some_iff.mp hr
    simp [Subtable.spans, Nat.sub_add_cancel hrows]
  refine bind_eq_ok.mpr ⟨rows, map_eq_ok.mpr ⟨g, hcolumns, hg⟩, ?_⟩
  rw [hspans]
  rfl

/-- Two tables in use that are `wideAndTall`. -/
theorem shapes_wideAndTall (n : Nat) :
    ∃ reserved tables, (tables.map Table.name).Nodup ∧
      (referenced reserved tables).mapM (·.shape reserved) = .ok (wideAndTall n) := by
  let reserved : Reserved := ⟨[("a/all", 1), ("b/all", 2)], by decide⟩
  let tables := [whole "a" 2 (n / 2 + 1), whole "b" 1 (n + 4)]
  have hreferenced : referenced reserved tables = tables := by
    have hused : tables.filter (fun t => !(t.references reserved).isEmpty) = tables := by
      refine List.filter_eq_self.mpr fun t ht => ?_
      simp only [tables, List.mem_cons, List.not_mem_nil, or_false] at ht
      rcases ht with rfl | rfl
      · rfl
      · rfl
    rw [referenced, hused]
    exact List.mergeSort_of_pairwise (List.pairwise_pair.mpr (by simp [whole]))
  refine ⟨reserved, tables, ?_, ?_⟩
  · simp [tables, whole]
  · rw [hreferenced, mapM_eq_ok]
    simp only [tables, List.map_cons, List.map_nil, wideAndTall]
    rw [shape_whole "a" (by omega) (by omega), shape_whole "b" (by omega) (by omega)]

/-! ### When nothing fits -/

theorem rows_pos_of_shapes {reserved : Reserved} {tables : List Table}
    (h : (referenced reserved tables).mapM (·.shape reserved) = .ok shapes) : ∀ s ∈ shapes, 0 < s.rows := by
  intro s hs
  obtain ⟨t, ht, hshape⟩ := (mem_of_mapM_eq_ok h).mp hs
  obtain ⟨g, hg, rfl⟩ := shape_eq_ok hshape
  obtain ⟨r, hr⟩ := List.exists_mem_of_ne_nil _ (mem_referenced.mp ht).2
  obtain ⟨e, he, -⟩ := List.mem_filterMap.mp hr
  exact Nat.zero_lt_of_lt ((check_eq_ok hg).2.2 e he)

/-- Up to four rows, tables that have a layout under fewer rows have one. -/
theorem attempt_of_few_rows (hpos : ∀ s ∈ shapes, 0 < s.rows) (hfree : ∀ s ∈ shapes, ¬ s.Refused available budget)
    (hbudget : budget < 5) {b : Nat} (hlow : 2 ≤ b) (hle : b ≤ budget) (h : attempt shapes available b ≠ none) :
    attempt shapes available budget ≠ none := by
  obtain rfl | rfl | ⟨rfl, rfl⟩ : b = 2 ∨ b = budget ∨ b = 3 ∧ budget = 4 := by omega
  · exact attempt_of_two_rows hpos hfree hle h
  · exact h
  · exact attempt_of_three_rows hpos hfree h

theorem layout_eq_exhausted_iff {reserved : Reserved} {tables : List Table}
    (h : (referenced reserved tables).mapM (·.shape reserved) = .ok shapes) :
    (∃ b, layout reserved tables available budget = .ok (.error (.exhausted b))) ↔
      (∀ s ∈ shapes, ¬ s.Refused available budget) ∧ ∀ b ∈ budgets budget, attempt shapes available b = none := by
  have hlayout : layout reserved tables available budget = .ok (layoutShapes shapes available budget) :=
    bind_eq_ok.mpr ⟨shapes, h, rfl⟩
  simp only [hlayout, Except.ok.injEq]
  exact layoutShapes_eq_exhausted_iff

/-- The budgets are exhausted when none that the search tries has a layout. Up to four rows none at all has one then.
    From five rows on there are two tables that exhaust the budgets and have a layout under one row less. -/
theorem exhausted_answers (budget : Nat) :
    (∀ reserved tables available shapes, (referenced reserved tables).mapM (·.shape reserved) = .ok shapes →
      ((∃ b, layout reserved tables available budget = .ok (.error (.exhausted b))) ↔
        (∀ s ∈ shapes, ¬ s.Refused available budget) ∧ ∀ b ∈ budgets budget, attempt shapes available b = none)) ∧
    (budget < 5 → ∀ reserved tables available shapes,
      (referenced reserved tables).mapM (·.shape reserved) = .ok shapes →
      (∃ b, layout reserved tables available budget = .ok (.error (.exhausted b))) →
      ∀ b, 2 ≤ b → b ≤ budget → attempt shapes available b = none) ∧
    (5 ≤ budget → ∃ reserved tables shapes, (tables.map Table.name).Nodup ∧
      (referenced reserved tables).mapM (·.shape reserved) = .ok shapes ∧
      (∃ b, layout reserved tables 2 budget = .ok (.error (.exhausted b))) ∧
      attempt shapes 2 (budget - 1) ≠ none) := by
  refine ⟨fun reserved tables available shapes hshapes => layout_eq_exhausted_iff hshapes, ?_, ?_⟩
  · intro hbudget reserved tables available shapes hshapes hexhausted b hlow hle
    obtain ⟨hfree, hnone⟩ := (layout_eq_exhausted_iff hshapes).mp hexhausted
    by_contra hb
    exact attempt_of_few_rows (rows_pos_of_shapes hshapes) hfree hbudget hlow hle hb (hnone budget List.mem_cons_self)
  · intro hbudget
    obtain ⟨n, rfl⟩ := Nat.exists_eq_add_of_le' hbudget
    obtain ⟨reserved, tables, hnames, hshapes⟩ := shapes_wideAndTall n
    refine ⟨reserved, tables, wideAndTall n, hnames, hshapes, (layout_eq_exhausted_iff hshapes).mpr ?_, ?_⟩
    · exact ⟨wideAndTall_not_refused n _, fun _ hb => attempt_wideAndTall_eq_none (le_or_eq_of_mem_budgets hb)⟩
    · exact Option.ne_none_iff_exists'.mpr ⟨_, attempt_wideAndTall n⟩

/-- Under five rows the tables are said to fit in no row budget, and they fit under four. -/
theorem exhausted_above_four_rows :
    let all (n : Nat) : SortedMap String Subtable := ⟨[("all", ⟨[0], 0, n, Nat.zero_le n⟩)], by simp⟩
    let tables : List Table := [⟨"a", 2, all 0, Thunk.mk fun _ => [#[1], #[1001]]⟩,
      ⟨"b", 1, all 3, Thunk.mk fun _ => [#[1, 2, 3, 4]]⟩]
    let reserved : Reserved := ⟨[("a/all", 1), ("b/all", 2)], by decide⟩
    let shapes : List Shape := [⟨"a", 2, 1, true⟩, ⟨"b", 1, 4, true⟩]
    layout reserved tables 2 5 = .ok (.error (.exhausted 5)) ∧
      (referenced reserved tables).mapM (·.shape reserved) = .ok shapes ∧
      attempt shapes 2 4 = some ⟨4, [⟨⟨"a", 2, 1, 1⟩, 0, 1⟩, ⟨⟨"b", 1, 2, 2⟩, 0, 2⟩]⟩ := by
  intro all tables reserved shapes
  have hlayout : layout reserved tables 2 5 = .ok (.error (.exhausted 5)) := by cbv
  have hshapes : (referenced reserved tables).mapM (·.shape reserved) = .ok shapes := by cbv
  exact ⟨hlayout, hshapes, by cbv⟩

end Lookup
end Plonkish
