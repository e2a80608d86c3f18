import Mathlib
import Plonkish.Proofs.Lookup.Search

/-! How many columns the bands of an attempt take (`bandColumns`). An attempt succeeds when no strip is too
    high and its bands take no more columns than there are (`attempt_ne_none_iff`). Bands never take more than
    the strips side by side (`bandColumns_le`), which is what they take under two rows, so tables that fit
    under two rows fit under any more (`attempt_of_two_rows`). Under three rows the strips of one row lie
    in pairs, and under four they and the strips of two rows take no more than that
    (`bandColumns_four_le`), so tables that fit under three rows fit under four (`attempt_of_three_rows`). -/

namespace Plonkish
namespace Lookup

variable {shapes : List Shape} {available budget capacity width y : Nat} {s : Shape}

/-! ### Heights and widths of folded tables -/

theorem ceilDiv_le {n size k : Nat} (hsize : 0 < size) (h : n ≤ k * size) : ceilDiv n size ≤ k := by
  unfold ceilDiv
  exact Nat.le_of_lt_succ (Nat.div_lt_of_lt_mul (by rw [Nat.mul_succ, Nat.mul_comm]; omega))

/-- The number of groups that a table is folded into. -/
theorem folds_pos (s : Shape) (capacity : Nat) : 0 < (s.fold capacity).folds := by
  unfold Shape.fold
  dsimp only
  split <;> omega

theorem rows_fold_le (hfold : s.foldable = true) (hcapacity : 0 < capacity) : (s.fold capacity).rows ≤ capacity := by
  have hrows : s.rows ≤ capacity * ceilDiv s.rows capacity := le_mul_ceilDiv hcapacity
  simp only [Shape.fold, hfold, if_true]
  exact ceilDiv_le (by omega) (hrows.trans (Nat.mul_le_mul_left capacity (Nat.le_max_right _ _)))

/-- More rows never make a table wider. -/
theorem width_fold_le {capacity' : Nat} (hcapacity : 0 < capacity) (hle : capacity ≤ capacity') :
    (s.fold capacity').width ≤ (s.fold capacity).width := by
  refine Nat.mul_le_mul_left s.columns ?_
  have hrows : s.rows ≤ capacity * ceilDiv s.rows capacity := le_mul_ceilDiv hcapacity
  have hceil : ceilDiv s.rows capacity' ≤ ceilDiv s.rows capacity := by
    refine ceilDiv_le (Nat.lt_of_lt_of_le hcapacity hle) (hrows.trans ?_)
    rw [Nat.mul_comm]
    exact Nat.mul_le_mul_left _ hle
  simp only [Shape.fold]
  split <;> omega

theorem rows_fold_pos (hpos : 0 < s.rows) : 0 < (s.fold capacity).rows := ceilDiv_pos hpos (folds_pos s capacity)

/-- A table of one row is not folded. -/
theorem fold_of_one_row (hcapacity : 0 < capacity) (hrow : s.rows = 1) :
    s.fold capacity = ⟨s.name, s.columns, 1, 1⟩ := by
  have hone : ceilDiv 1 capacity = 1 := ceilDiv_eq (by omega) (by omega)
  simp only [Shape.fold, hrow, hone, Nat.max_self, ite_self]
  rw [ceilDiv_one]

/-- No table is folded to one row where there is place for two. -/
theorem rows_fold_eq_one_iff (hpos : 0 < s.rows) (hcapacity : 2 ≤ capacity) :
    (s.fold capacity).rows = 1 ↔ s.rows = 1 := by
  refine ⟨fun h => ?_, fun h => by rw [fold_of_one_row (by omega) h]⟩
  by_contra hne
  have hceil : ceilDiv s.rows capacity ≤ s.rows - 1 := by
    refine ceilDiv_le (by omega) (Nat.le_trans ?_ (Nat.mul_le_mul_left (s.rows - 1) hcapacity))
    omega
  have hfolds : (s.fold capacity).folds ≤ s.rows - 1 := by
    simp only [Shape.fold]
    split <;> omega
  have hrows : s.rows ≤ (s.fold capacity).folds * (s.fold capacity).rows := le_mul_ceilDiv (folds_pos s capacity)
  rw [h] at hrows
  omega

/-! ### One band -/

variable {t : Strip} {strips rest : List Strip}

/-- The strips that a band leaves. -/
def leftOver (budget width y : Nat) (strips : List Strip) : List Strip := (fillBand budget 0 width y strips).2

theorem fillBand_left (budget x width y : Nat) (strips : List Strip) :
    (fillBand budget x width y strips).2 = leftOver budget width y strips := by
  unfold leftOver
  induction strips generalizing y with
  | nil => rfl
  | cons t rest ih =>
    by_cases h : t.width ≤ width ∧ y + t.rows ≤ budget
    · rw [fillBand_of_fits h, fillBand_of_fits h]
      exact ih _
    · rw [fillBand_of_not_fits h, fillBand_of_not_fits h, ih]

theorem leftOver_of_fits (hwidth : t.width ≤ width) (h : y + t.rows ≤ budget) :
    leftOver budget width y (t :: rest) = leftOver budget width (y + t.rows) rest := by
  rw [leftOver, fillBand_of_fits ⟨hwidth, h⟩, leftOver]

theorem leftOver_of_not_fits (h : budget < y + t.rows) :
    leftOver budget width y (t :: rest) = t :: leftOver budget width y rest := by
  rw [leftOver, fillBand_of_not_fits (by omega), leftOver]

theorem leftOver_sublist (budget width y : Nat) (strips : List Strip) :
    (leftOver budget width y strips).Sublist strips := by
  unfold leftOver
  induction strips generalizing y with
  | nil => exact .slnil
  | cons t rest ih =>
    by_cases h : t.width ≤ width ∧ y + t.rows ≤ budget
    · rw [fillBand_of_fits h]
      exact (ih _).cons t
    · rw [fillBand_of_not_fits h]
      exact (ih y).cons_cons t

theorem leftOver_of_full (hpos : ∀ t ∈ strips, 0 < t.rows) (h : budget ≤ y) :
    leftOver budget width y strips = strips := by
  induction strips with
  | nil => rfl
  | cons t rest ih =>
    obtain ⟨ht, hpos⟩ := List.forall_mem_cons.mp hpos
    rw [leftOver_of_not_fits (by omega), ih hpos]

/-- Where one row is left, it is taken by the first strip of one row. -/
theorem leftOver_of_one_row (hwidth : ∀ t ∈ strips, t.width ≤ width) (hpos : ∀ t ∈ strips, 0 < t.rows) :
    leftOver (y + 1) width y strips = strips.eraseP (·.rows = 1) := by
  induction strips with
  | nil => rfl
  | cons t rest ih =>
    obtain ⟨hwt, hwidth⟩ := List.forall_mem_cons.mp hwidth
    obtain ⟨ht, hpos⟩ := List.forall_mem_cons.mp hpos
    by_cases hrow : t.rows = 1
    · rw [leftOver_of_fits hwt (by omega), List.eraseP_cons_of_pos (by simpa using hrow)]
      exact leftOver_of_full hpos (by omega)
    · rw [leftOver_of_not_fits (by omega), ih hwidth hpos, List.eraseP_cons_of_neg (by simpa using hrow)]

/-- Where two rows are left, they are taken by a strip of two rows, or by the first two strips of one row. -/
theorem leftOver_of_two_rows (hwidth : ∀ t ∈ strips, t.width ≤ width) (hpos : ∀ t ∈ strips, 0 < t.rows) :
    (∃ before t after, strips = before ++ t :: after ∧ (∀ u ∈ before, u.rows ≠ 1) ∧ t.rows = 2 ∧
      leftOver (y + 2) width y strips = before ++ after) ∨
    leftOver (y + 2) width y strips = (strips.eraseP (·.rows = 1)).eraseP (·.rows = 1) := by
  induction strips with
  | nil => exact Or.inr rfl
  | cons t rest ih =>
    obtain ⟨hwt, hwidth⟩ := List.forall_mem_cons.mp hwidth
    obtain ⟨ht, hpos⟩ := List.forall_mem_cons.mp hpos
    obtain hrow | hrow | hrow : t.rows = 1 ∨ t.rows = 2 ∨ 2 < t.rows := by omega
    · -- Under a strip of one row there is room for one more of these.
      rw [leftOver_of_fits hwt (by omega), hrow, List.eraseP_cons_of_pos (by simpa using hrow)]
      exact Or.inr (leftOver_of_one_row hwidth hpos)
    · -- A strip of two rows fills the room.
      refine Or.inl ⟨[], t, rest, rfl, by simp, hrow, ?_⟩
      rw [leftOver_of_fits hwt (by omega)]
      exact leftOver_of_full hpos (by omega)
    · -- A higher one is left over, and the search goes on behind it.
      have hne : t.rows ≠ 1 := by omega
      rw [leftOver_of_not_fits (by omega), List.eraseP_cons_of_neg (by simpa using hne),
        List.eraseP_cons_of_neg (by simpa using hne)]
      rcases ih hwidth hpos with ⟨before, u, after, rfl, hbefore, hu, hleft⟩ | hleft
      · exact Or.inl ⟨t :: before, u, after, rfl, List.forall_mem_cons.mpr ⟨hne, hbefore⟩, hu, by rw [hleft]; rfl⟩
      · exact Or.inr (by rw [hleft])

/-! ### All bands -/

/-- The columns that the bands take. -/
def bandColumns (budget : Nat) : List Strip → Nat
  | [] => 0
  | t :: rest => t.width + bandColumns budget (leftOver budget t.width (firstRow + t.rows) rest)
termination_by strips => strips.length
decreasing_by exact Nat.lt_succ_of_le (leftOver_sublist ..).length_le

theorem isSome_fillBands {x : Nat} (hx : x ≤ available) :
    (fillBands budget available x strips).isSome ↔ x + bandColumns budget strips ≤ available := by
  fun_induction fillBands budget available x strips with
  | case1 x => simpa [bandColumns] using hx
  | case2 x t rest hwidth band ih =>
    rw [Option.isSome_map, ih hwidth, fillBand_left, bandColumns, Nat.add_assoc]
  | case3 x t rest hwidth =>
    refine iff_of_false (by simp) ?_
    rw [bandColumns]
    omega

/-- No more columns than the strips side by side. -/
theorem bandColumns_le (budget : Nat) (strips : List Strip) : bandColumns budget strips ≤ (strips.map Strip.width).sum := by
  fun_induction bandColumns budget strips with
  | case1 => exact Nat.zero_le _
  | case2 t rest ih =>
    have hleft := ((leftOver_sublist budget t.width (firstRow + t.rows) rest).map Strip.width).sum_le_sum
      fun _ _ => Nat.zero_le _
    rw [List.map_cons, List.sum_cons]
    omega

/-- Under two rows strips lie side by side. -/
theorem bandColumns_two (hpos : ∀ t ∈ strips, 0 < t.rows) : bandColumns 2 strips = (strips.map Strip.width).sum := by
  induction strips with
  | nil => rw [bandColumns]; rfl
  | cons t rest ih =>
    obtain ⟨ht, hpos⟩ := List.forall_mem_cons.mp hpos
    rw [bandColumns, leftOver_of_full hpos (by unfold firstRow; omega), ih hpos, List.map_cons, List.sum_cons]

/-! ### Strips of one row in pairs -/

def everyOther : List Nat → Nat
  | [] => 0
  | [n] => n
  | n :: _ :: rest => n + everyOther rest

/-- The widths of the strips of one row. -/
def lowWidths (strips : List Strip) : List Nat := (strips.filter (·.rows = 1)).map Strip.width

/-- The columns of all higher strips side by side. -/
def highColumns (strips : List Strip) : Nat := ((strips.filter (·.rows ≠ 1)).map Strip.width).sum

/-- The columns that are taken by higher strips side by side, and strips of one row in pairs. -/
def pairedColumns (strips : List Strip) : Nat := highColumns strips + everyOther (lowWidths strips)

def WidestFirst (strips : List Strip) : Prop := strips.Pairwise fun t u => u.width ≤ t.width

theorem everyOther_cons (n : Nat) (ns : List Nat) : everyOther (n :: ns) = n + everyOther ns.tail := by
  cases ns <;> rfl

theorem everyOther_tail_le {ns : List Nat} (h : ns.Pairwise (· ≥ ·)) : everyOther ns.tail ≤ everyOther ns := by
  fun_induction everyOther ns with
  | case1 => exact Nat.le_refl _
  | case2 n => exact Nat.zero_le _
  | case3 n m rest ih =>
    obtain ⟨hn, hrest⟩ := List.pairwise_cons.mp h
    have hm := hn m List.mem_cons_self
    have htail := ih (List.pairwise_cons.mp hrest).2
    rw [List.tail_cons, everyOther_cons]
    omega

/-- One more number, at least as large as all others, makes up for the shift by one place. -/
theorem everyOther_le_add {n : Nat} {ns : List Nat} (h : (n :: ns).Pairwise (· ≥ ·)) :
    everyOther ns ≤ n + everyOther ns.tail := by
  rw [← everyOther_cons]
  exact everyOther_tail_le h

theorem lowWidths_cons_of_low (h : t.rows = 1) : lowWidths (t :: strips) = t.width :: lowWidths strips := by
  simp [lowWidths, h]

theorem lowWidths_cons_of_high (h : t.rows ≠ 1) : lowWidths (t :: strips) = lowWidths strips := by
  simp [lowWidths, h]

theorem highColumns_cons_of_low (h : t.rows = 1) : highColumns (t :: strips) = highColumns strips := by
  simp [highColumns, h]

theorem highColumns_cons_of_high (h : t.rows ≠ 1) : highColumns (t :: strips) = t.width + highColumns strips := by
  simp [highColumns, h]

theorem lowWidths_eraseP (strips : List Strip) : lowWidths (strips.eraseP (·.rows = 1)) = (lowWidths strips).tail := by
  induction strips with
  | nil => rfl
  | cons t rest ih =>
    by_cases h : t.rows = 1
    · rw [List.eraseP_cons_of_pos (by simpa using h), lowWidths_cons_of_low h, List.tail_cons]
    · rw [List.eraseP_cons_of_neg (by simpa using h), lowWidths_cons_of_high h, lowWidths_cons_of_high h, ih]

theorem highColumns_eraseP (strips : List Strip) : highColumns (strips.eraseP (·.rows = 1)) = highColumns strips := by
  induction strips with
  | nil => rfl
  | cons t rest ih =>
    by_cases h : t.rows = 1
    · rw [List.eraseP_cons_of_pos (by simpa using h), highColumns_cons_of_low h]
    · rw [List.eraseP_cons_of_neg (by simpa using h), highColumns_cons_of_high h, highColumns_cons_of_high h, ih]

theorem WidestFirst.lowWidths (h : WidestFirst strips) : (lowWidths strips).Pairwise (· ≥ ·) :=
  List.pairwise_map.mpr (List.Pairwise.sublist List.filter_sublist h)

theorem pairedColumns_cons_of_high (h : t.rows ≠ 1) : pairedColumns (t :: strips) = t.width + pairedColumns strips := by
  rw [pairedColumns, pairedColumns, lowWidths_cons_of_high h, highColumns_cons_of_high h, Nat.add_assoc]

/-- A strip of one row is paired with the next one. -/
theorem pairedColumns_cons_of_low (h : t.rows = 1) :
    pairedColumns (t :: strips) = t.width + pairedColumns (strips.eraseP (·.rows = 1)) := by
  rw [pairedColumns, pairedColumns, lowWidths_cons_of_low h, highColumns_cons_of_low h, lowWidths_eraseP,
    highColumns_eraseP, everyOther_cons]
  omega

theorem pairedColumns_eraseP_le (h : WidestFirst strips) :
    pairedColumns (strips.eraseP (·.rows = 1)) ≤ pairedColumns strips := by
  have htail := everyOther_tail_le h.lowWidths
  rw [pairedColumns, pairedColumns, lowWidths_eraseP, highColumns_eraseP]
  omega

/-- A strip of two rows below one that is wider takes up no columns, which makes up for the partner that it took. -/
theorem pairedColumns_split_le {u : Strip} {before after : List Strip} (h : WidestFirst (before ++ u :: after))
    (hbefore : ∀ v ∈ before, v.rows ≠ 1) (hu : u.rows ≠ 1) :
    pairedColumns (before ++ after) ≤ pairedColumns ((before ++ u :: after).eraseP (·.rows = 1)) := by
  -- The widths of low strips go down, so taking every other one loses at most the first.
  have hafter : (u.width :: lowWidths after).Pairwise (· ≥ ·) := by
    obtain ⟨hu, hafter⟩ := List.pairwise_cons.mp (List.pairwise_append.mp h).2.1
    refine List.pairwise_cons.mpr ⟨fun n hn => ?_, WidestFirst.lowWidths hafter⟩
    obtain ⟨v, hv, rfl⟩ := List.mem_map.mp hn
    exact hu v (List.mem_of_mem_filter hv)
  induction before with
  | nil =>
    have hle := everyOther_le_add hafter
    rw [List.nil_append, List.nil_append, List.eraseP_cons_of_neg (by simpa using hu), pairedColumns_cons_of_high hu]
    rw [pairedColumns, pairedColumns, lowWidths_eraseP, highColumns_eraseP]
    omega
  | cons v before ih =>
    obtain ⟨hv, hbefore⟩ := List.forall_mem_cons.mp hbefore
    have hle := ih (List.pairwise_cons.mp h).2 hbefore
    rw [List.cons_append, List.cons_append, List.eraseP_cons_of_neg (by simpa using hv), pairedColumns_cons_of_high hv,
      pairedColumns_cons_of_high hv]
    omega

theorem le_bandColumns_three (hwidest : WidestFirst strips) (hpos : ∀ t ∈ strips, 0 < t.rows) :
    pairedColumns strips ≤ bandColumns 3 strips := by
  fun_induction bandColumns 3 strips with
  | case1 => exact Nat.le_refl _
  | case2 t rest ih =>
    obtain ⟨hwidth, hrest⟩ := List.pairwise_cons.mp hwidest
    obtain ⟨ht, hpos⟩ := List.forall_mem_cons.mp hpos
    have hsub := leftOver_sublist 3 t.width (firstRow + t.rows) rest
    have hle := ih (hrest.sublist hsub) fun u hu => hpos u (hsub.subset hu)
    by_cases hrow : t.rows = 1
    · rw [pairedColumns_cons_of_low hrow]
      rw [hrow] at hle ⊢
      rw [firstRow, leftOver_of_one_row hwidth hpos] at hle ⊢
      omega
    · rw [pairedColumns_cons_of_high hrow]
      rw [leftOver_of_full hpos (by unfold firstRow; omega)] at hle ⊢
      omega

theorem bandColumns_four_le (hwidest : WidestFirst strips) (hpos : ∀ t ∈ strips, 0 < t.rows) :
    bandColumns 4 strips ≤ pairedColumns strips := by
  fun_induction bandColumns 4 strips with
  | case1 => exact Nat.le_refl _
  | case2 t rest ih =>
    obtain ⟨hwidth, hrest⟩ := List.pairwise_cons.mp hwidest
    obtain ⟨ht, hpos⟩ := List.forall_mem_cons.mp hpos
    have hsub := leftOver_sublist 4 t.width (firstRow + t.rows) rest
    refine Nat.le_trans (Nat.add_le_add_left (ih (hrest.sublist hsub) fun u hu => hpos u (hsub.subset hu)) _) ?_
    obtain hrow | hrow | hrow : t.rows = 1 ∨ t.rows = 2 ∨ 2 < t.rows := by omega
    · -- A band with one row at its head has two more rows: one strip of two rows, or two of one row.
      rw [pairedColumns_cons_of_low hrow, hrow, firstRow]
      refine Nat.add_le_add_left ?_ _
      rcases leftOver_of_two_rows hwidth hpos with ⟨before, u, after, rfl, hbefore, hu, hleft⟩ | hleft
      · rw [hleft]
        exact pairedColumns_split_le hrest hbefore (by omega)
      · rw [hleft]
        exact pairedColumns_eraseP_le (hrest.sublist List.eraseP_sublist)
    · -- A band with two rows has one more row.
      rw [pairedColumns_cons_of_high (by omega), hrow, firstRow, leftOver_of_one_row hwidth hpos]
      exact Nat.add_le_add_left (pairedColumns_eraseP_le hrest) _
    · -- A higher strip fills its band.
      rw [pairedColumns_cons_of_high (by omega), leftOver_of_full hpos (by unfold firstRow; omega)]

/-! ### Attempts -/

/-- The strips of an attempt in the order in which they are placed. -/
def ordered (shapes : List Shape) (budget : Nat) : List Strip :=
  (shapes.map (·.fold (budget - firstRow))).mergeSort Strip.before

theorem ordered_perm (shapes : List Shape) (budget : Nat) :
    (ordered shapes budget).Perm (shapes.map (·.fold (budget - firstRow))) := List.mergeSort_perm ..

/-- Wide before narrow, then low before high, then by name. -/
theorem ordered_sorted (shapes : List Shape) (budget : Nat) : (ordered shapes budget).Pairwise fun s t =>
    t.width < s.width ∨ s.width = t.width ∧ (s.rows < t.rows ∨ s.rows = t.rows ∧ s.name ≤ t.name) := by
  have hsorted : (ordered shapes budget).Pairwise (Strip.before · ·) := by
    refine List.pairwise_mergeSort (fun t u v htu huv => ?_) (fun t u => ?_) _
    · simp only [Strip.before, decide_eq_true_eq] at htu huv ⊢
      grind
    · simp only [Strip.before, Bool.or_eq_true, decide_eq_true_eq]
      grind
  exact hsorted.imp fun h => of_decide_eq_true h

theorem widestFirst_ordered (shapes : List Shape) (budget : Nat) : WidestFirst (ordered shapes budget) :=
  (ordered_sorted shapes budget).imp fun h => by omega

theorem ordered_pos (hpos : ∀ s ∈ shapes, 0 < s.rows) : ∀ t ∈ ordered shapes budget, 0 < t.rows := by
  intro t ht
  obtain ⟨s, hs, rfl⟩ := List.mem_map.mp ((ordered_perm shapes budget).mem_iff.mp ht)
  exact rows_fold_pos (hpos s hs)

theorem attempt_ne_none_iff : attempt shapes available budget ≠ none ↔
    firstRow < budget ∧ (∀ s ∈ shapes, firstRow + (s.fold (budget - firstRow)).rows ≤ budget) ∧
      bandColumns budget (ordered shapes budget) ≤ available := by
  have hbands : (fillBands budget available 0 (ordered shapes budget)).isSome ↔
      0 + bandColumns budget (ordered shapes budget) ≤ available := isSome_fillBands (Nat.zero_le available)
  rw [Nat.zero_add] at hbands
  rw [Option.ne_none_iff_exists']
  constructor
  · rintro ⟨l, h⟩
    obtain ⟨hlow, hrows, -, hps⟩ := attempt_eq_some_iff.mp h
    exact ⟨hlow, hrows, hbands.mp (Option.isSome_of_eq_some hps)⟩
  · rintro ⟨hlow, hrows, hcolumns⟩
    obtain ⟨ps, hps⟩ := Option.isSome_iff_exists.mp (hbands.mpr hcolumns)
    exact ⟨⟨budget, ps⟩, attempt_eq_some_iff.mpr ⟨hlow, hrows, rfl, hps⟩⟩

/-- A table that is not refused is low enough for the budget. -/
theorem rows_le_of_not_refused (hbudget : firstRow < budget) (h : ¬ s.Refused available budget) :
    firstRow + (s.fold (budget - firstRow)).rows ≤ budget := by
  cases hfold : s.foldable with
  | true =>
    have hrows := rows_fold_le hfold (Nat.sub_pos_of_lt hbudget)
    omega
  | false =>
    have hrows : (s.fold (budget - firstRow)).rows = s.rows := by simp [Shape.fold, hfold, ceilDiv_one]
    have hlong := (not_or.mp h).2
    rw [hrows]
    exact Nat.le_of_not_lt fun hlt => hlong ⟨hfold, hlt⟩

/-- Tables that fit under two rows fit under any more. -/
theorem attempt_of_two_rows (hpos : ∀ s ∈ shapes, 0 < s.rows) (hfree : ∀ s ∈ shapes, ¬ s.Refused available budget)
    (hbudget : 2 ≤ budget) (h : attempt shapes available 2 ≠ none) : attempt shapes available budget ≠ none := by
  have hlow : firstRow < budget := hbudget
  refine attempt_ne_none_iff.mpr ⟨hlow, fun s hs => rows_le_of_not_refused hlow (hfree s hs), ?_⟩
  calc bandColumns budget (ordered shapes budget)
    _ ≤ ((ordered shapes budget).map Strip.width).sum := bandColumns_le ..
    _ = ((shapes.map (·.fold (budget - firstRow))).map Strip.width).sum :=
      ((ordered_perm shapes budget).map Strip.width).sum_eq
    _ ≤ ((shapes.map (·.fold (2 - firstRow))).map Strip.width).sum := by
      rw [List.map_map, List.map_map]
      exact List.sum_le_sum fun s _ => width_fold_le (by decide) (Nat.sub_le_sub_right hbudget firstRow)
    _ = ((ordered shapes 2).map Strip.width).sum := ((ordered_perm shapes 2).map Strip.width).sum_eq.symm
    _ = bandColumns 2 (ordered shapes 2) := (bandColumns_two (ordered_pos hpos)).symm
    _ ≤ available := (attempt_ne_none_iff.mp h).2.2

theorem filter_fold {p : Strip → Bool} {q : Shape → Bool} (h : ∀ s ∈ shapes, p (s.fold capacity) = q s) :
    (shapes.map (·.fold capacity)).filter p = (shapes.filter q).map (·.fold capacity) := by
  rw [List.filter_map]
  exact congrArg _ (List.filter_congr h)

/-- The strips of one row are those of the tables of one row. -/
theorem lowWidths_ordered (hpos : ∀ s ∈ shapes, 0 < s.rows) (hbudget : 2 < budget) :
    (lowWidths (ordered shapes budget)).Perm ((shapes.filter (·.rows = 1)).map Shape.columns) := by
  have hcapacity : 2 ≤ budget - firstRow := by unfold firstRow; omega
  have hperm := ((ordered_perm shapes budget).filter (·.rows = 1)).map Strip.width
  rw [filter_fold fun s hs => decide_eq_decide.mpr (rows_fold_eq_one_iff (hpos s hs) hcapacity), List.map_map] at hperm
  refine hperm.trans (List.Perm.of_eq (List.map_congr_left fun s hs => ?_))
  have hrow : s.rows = 1 := by simpa using (List.mem_filter.mp hs).2
  rw [Function.comp_apply, fold_of_one_row (by omega) hrow, Strip.width, Nat.mul_one]

theorem highColumns_ordered (hpos : ∀ s ∈ shapes, 0 < s.rows) (hbudget : 2 < budget) :
    highColumns (ordered shapes budget) =
      ((shapes.filter (·.rows ≠ 1)).map fun s => (s.fold (budget - firstRow)).width).sum := by
  have hcapacity : 2 ≤ budget - firstRow := by unfold firstRow; omega
  have hperm := ((ordered_perm shapes budget).filter (·.rows ≠ 1)).map Strip.width
  rw [filter_fold fun s hs => decide_eq_decide.mpr (not_congr (rows_fold_eq_one_iff (hpos s hs) hcapacity)),
    List.map_map] at hperm
  exact hperm.sum_eq

theorem pairedColumns_le {budget' : Nat} (hpos : ∀ s ∈ shapes, 0 < s.rows) (hbudget : 2 < budget) (hle : budget ≤ budget') :
    pairedColumns (ordered shapes budget') ≤ pairedColumns (ordered shapes budget) := by
  have hlow : lowWidths (ordered shapes budget') = lowWidths (ordered shapes budget) :=
    ((lowWidths_ordered hpos (by omega)).trans (lowWidths_ordered hpos hbudget).symm).eq_of_pairwise
      (fun _ _ _ _ h h' => Nat.le_antisymm h' h) (widestFirst_ordered ..).lowWidths (widestFirst_ordered ..).lowWidths
  rw [pairedColumns, pairedColumns, hlow, highColumns_ordered hpos (by omega), highColumns_ordered hpos hbudget]
  refine Nat.add_le_add_right (List.sum_le_sum fun s _ => ?_) _
  exact width_fold_le (by unfold firstRow; omega) (Nat.sub_le_sub_right hle firstRow)

/-- Tables that fit under three rows fit under four. -/
theorem attempt_of_three_rows (hpos : ∀ s ∈ shapes, 0 < s.rows) (hfree : ∀ s ∈ shapes, ¬ s.Refused available 4)
    (h : attempt shapes available 3 ≠ none) : attempt shapes available 4 ≠ none := by
  refine attempt_ne_none_iff.mpr ⟨by decide, fun s hs => rows_le_of_not_refused (by decide) (hfree s hs), ?_⟩
  calc bandColumns 4 (ordered shapes 4)
    _ ≤ pairedColumns (ordered shapes 4) := bandColumns_four_le (widestFirst_ordered ..) (ordered_pos hpos)
    _ ≤ pairedColumns (ordered shapes 3) := pairedColumns_le hpos (by decide) (by decide)
    _ ≤ bandColumns 3 (ordered shapes 3) := le_bandColumns_three (widestFirst_ordered ..) (ordered_pos hpos)
    _ ≤ available := (attempt_ne_none_iff.mp h).2.2

end Lookup
end Plonkish
