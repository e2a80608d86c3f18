import Mathlib
import Plonkish.Proofs.Lookup.Packed

/-! Which budgets the search tries. Three less than the largest power of two in a budget has the power below as
    its own largest one, so after the budget given come the numbers `2 ^ j - 3` with `j` going down to three
    (`budgets_of_le`). The search answers the first attempt among them that succeeds (`search_eq`). It
    may give up before the last of them, at a budget that is too small for a table that cannot be folded, and
    such a table is too long for all budgets after it (`attempt_eq_none`). -/

namespace Plonkish
namespace Lookup

/-- The budget given, then three less than each power of two in it, from the largest one down to eight. -/
def budgets (b : Nat) : List Nat := b :: (List.range' 3 (b.log2 - 2)).reverse.map fun j => 2 ^ j - 3

/-- The shape is wider than the columns available, or cannot be folded and is too long for the budget. -/
def Shape.Refused (s : Shape) (available budget : Nat) : Prop :=
  available < s.columns ∨ s.foldable = false ∧ budget < firstRow + s.rows

/-- What is said of a refused shape: of its width if it is too wide, else of its rows. -/
def Shape.refusal (s : Shape) (available budget : Nat) : Refusal :=
  if available < s.columns then .constantColumns s.name s.columns available
  else .tableTooLong s.name s.rows budget

variable {reserved : Reserved} {tables : List Table} {shapes : List Shape} {available budget b : Nat} {l : Layout}
  {s : Shape} {r : Refusal}

/-! ### Budgets -/

theorem shrink?_eq (b : Nat) : shrink? b = if b < 4 then none else some (2 ^ b.log2 - 3) := by
  unfold shrink?
  rw [Nat.one_shiftLeft]
  split
  · rename_i h
    rw [if_pos]
    by_contra hb
    have hlog : 2 ≤ b.log2 := (Nat.le_log2 (by omega)).mpr (by omega)
    have hpow : 2 ^ 2 ≤ 2 ^ b.log2 := Nat.pow_le_pow_right (by omega) hlog
    omega
  · rename_i h
    rw [if_neg]
    intro hb
    have hpow : 2 ^ b.log2 ≤ b := Nat.log2_self_le (by omega)
    obtain rfl : b = 3 := by omega
    exact h (Or.inr (by decide))

theorem log2_pow_sub_three {k : Nat} (h : 3 ≤ k) : (2 ^ k - 3).log2 = k - 1 := by
  obtain ⟨j, rfl⟩ := Nat.exists_eq_add_of_le' h
  have hpos : 0 < 2 ^ j := Nat.two_pow_pos j
  have htop : 2 ^ (j + 2 + 1) = 2 * 2 ^ (j + 2) := Nat.pow_succ'
  have hnext : 2 ^ (j + 2) = 4 * 2 ^ j := by rw [Nat.pow_add, Nat.mul_comm]
  change (2 ^ (j + 2 + 1) - 3).log2 = j + 2
  exact (Nat.log2_eq_iff (by omega)).mpr ⟨by omega, by omega⟩

theorem log2_le_two (h : b < 8) : b.log2 ≤ 2 := by
  rcases Nat.eq_zero_or_pos b with rfl | hb
  · decide
  · exact Nat.le_of_lt_succ ((Nat.log2_lt (by omega)).mpr h)

theorem three_le_log2 (h : 8 ≤ b) : 3 ≤ b.log2 := (Nat.le_log2 (by omega)).mpr h

theorem budgets_of_lt (h : b < 8) : budgets b = [b] := by
  rw [budgets, Nat.sub_eq_zero_of_le (log2_le_two h)]
  rfl

theorem budgets_of_le (h : 8 ≤ b) : budgets b = b :: budgets (2 ^ b.log2 - 3) := by
  have hlog := three_le_log2 h
  have hcount : b.log2 - 2 = b.log2 - 3 + 1 := by omega
  have hlast : 3 + (b.log2 - 3) = b.log2 := by omega
  have hrest : b.log2 - 1 - 2 = b.log2 - 3 := by omega
  unfold budgets
  rw [log2_pow_sub_three hlog, hrest, hcount, List.range'_1_concat, hlast, List.reverse_append,
    List.reverse_singleton, List.singleton_append, List.map_cons]

/-- The search goes on to a smaller budget as long as that leaves a row for tables. -/
theorem budgets_of_shrink? {next : Nat} (h : shrink? b = some next) :
    budgets b = if next ≤ firstRow then [b] else b :: budgets next := by
  rw [shrink?_eq] at h
  split at h
  · cases h
  · obtain rfl := Option.some.inj h
    rcases Nat.lt_or_ge b 8 with hb | hb
    · have hpow : 2 ^ b.log2 ≤ 2 ^ 2 := Nat.pow_le_pow_right (by omega) (log2_le_two hb)
      rw [budgets_of_lt hb, if_pos (by unfold firstRow; omega)]
    · have hpow : 2 ^ 3 ≤ 2 ^ b.log2 := Nat.pow_le_pow_right (by omega) (three_le_log2 hb)
      rw [budgets_of_le hb, if_neg (by unfold firstRow; omega)]

theorem le_of_mem_budgets {b' : Nat} (h : b' ∈ budgets b) : b' ≤ b := by
  rcases List.mem_cons.mp h with rfl | h
  · exact Nat.le_refl _
  · obtain ⟨j, hj, rfl⟩ := List.mem_map.mp h
    have hrange := List.mem_range'_1.mp (List.mem_reverse.mp hj)
    have hlog : j ≤ b.log2 := by omega
    have hb : b ≠ 0 := by
      rintro rfl
      rw [Nat.log2_zero] at hlog
      omega
    exact Nat.le_trans (Nat.sub_le _ _) ((Nat.le_log2 hb).mp hlog)

/-! ### The search -/

/-- A table that cannot be folded lies in as many rows as it has. -/
theorem attempt_eq_none (hs : s ∈ shapes) (hfold : s.foldable = false) (hlong : budget < firstRow + s.rows) :
    attempt shapes available budget = none := by
  by_contra hne
  obtain ⟨l, hl⟩ := Option.ne_none_iff_exists'.mp hne
  obtain ⟨-, hplaced⟩ := placed_of_attempt hl
  obtain ⟨p, hp, hstrip⟩ := List.mem_map.mp (hplaced.strips.mem_iff.mpr (List.mem_map_of_mem hs))
  have hrows : p.strip.rows = s.rows := by simp [hstrip, Shape.fold, hfold, ceilDiv_one]
  have htop := (hplaced.within p hp).top
  have hbottom := (hplaced.within p hp).bottom
  unfold Placement.bottom at hbottom
  omega

/-- The answer of the first attempt that succeeds; if none does, the budgets are exhausted. -/
theorem search_eq (shapes : List Shape) (available budget : Nat) :
    match (budgets budget).findSome? (attempt shapes available) with
    | some l => search shapes available budget = .ok l
    | none => ∃ b, search shapes available budget = .error (.exhausted b) := by
  fun_induction search shapes available budget with
  | case1 b l ha => rw [budgets, List.findSome?_cons, ha]
  | case2 b ha next hnext hle =>
    rw [budgets_of_shrink? hnext, if_pos hle, List.findSome?_singleton, ha]
    exact ⟨b, rfl⟩
  | case3 b ha next hnext hlt hlong =>
    -- The table that is too long for the next budget is so for all further ones.
    have hrest : (budgets next).findSome? (attempt shapes available) = none := by
      obtain ⟨s, hs, hlong⟩ := List.any_eq_true.mp hlong
      simp only [Bool.and_eq_true, Bool.not_eq_true', decide_eq_true_eq] at hlong
      exact List.findSome?_eq_none_iff.mpr fun b' hb' =>
        attempt_eq_none hs hlong.1 (Nat.lt_of_le_of_lt (le_of_mem_budgets hb') hlong.2)
    rw [budgets_of_shrink? hnext, if_neg hlt, List.findSome?_cons, ha, hrest]
    exact ⟨next, rfl⟩
  | case4 b ha next hnext hlt hlong ih =>
    rw [budgets_of_shrink? hnext, if_neg hlt, List.findSome?_cons, ha]
    exact ih
  | case5 b ha hnext =>
    -- There is no next budget below four rows, and the list of budgets ends there too.
    have hb : b < 4 := by
      by_contra hb
      rw [shrink?_eq, if_neg hb] at hnext
      cases hnext
    rw [budgets_of_lt (by omega), List.findSome?_singleton, ha]
    exact ⟨b, rfl⟩

theorem search_eq_ok_iff : search shapes available budget = .ok l ↔
    ∃ before after, budgets budget = before ++ l.budget :: after ∧
      (∀ b ∈ before, attempt shapes available b = none) ∧ attempt shapes available l.budget = some l := by
  have hsearch := search_eq shapes available budget
  constructor
  · intro h
    cases hfind : (budgets budget).findSome? (attempt shapes available) with
    | none =>
      rw [hfind, h] at hsearch
      obtain ⟨_, hb⟩ := hsearch
      cases hb
    | some l' =>
      rw [hfind, h] at hsearch
      obtain rfl := Except.ok.inj hsearch
      obtain ⟨before, b, after, hsplit, hb, hbefore⟩ := List.findSome?_eq_some_iff.mp hfind
      obtain ⟨rfl, -⟩ := placed_of_attempt hb
      exact ⟨before, after, hsplit, hbefore, hb⟩
  · rintro ⟨before, after, hsplit, hbefore, hb⟩
    rwa [List.findSome?_eq_some_iff.mpr ⟨before, l.budget, after, hsplit, hb, hbefore⟩] at hsearch

theorem search_eq_exhausted_iff : (∃ b, search shapes available budget = .error (.exhausted b)) ↔
    ∀ b ∈ budgets budget, attempt shapes available b = none := by
  have hsearch := search_eq shapes available budget
  rw [← List.findSome?_eq_none_iff]
  constructor
  · rintro ⟨b, hb⟩
    cases hfind : (budgets budget).findSome? (attempt shapes available) with
    | none => rfl
    | some l =>
      rw [hfind, hb] at hsearch
      cases hsearch
  · intro hfind
    rwa [hfind] at hsearch

/-! ### Refusals -/

theorem refusal?_of_refused (h : s.Refused available budget) :
    s.refusal? available budget = some (s.refusal available budget) := by
  unfold Shape.refusal? Shape.refusal
  split
  · rfl
  · rename_i hwide
    obtain ⟨hfold, hlong⟩ := h.resolve_left hwide
    rw [if_pos (by simp [hfold, hlong])]

theorem refusal?_of_not_refused (h : ¬ s.Refused available budget) : s.refusal? available budget = none := by
  obtain ⟨hwide, hlong⟩ := not_or.mp h
  rw [Shape.refusal?, if_neg hwide, if_neg (by simpa using hlong)]

/-- The first refused shape settles the answer. -/
theorem layoutShapes_of_refused {before after : List Shape} (hbefore : ∀ s' ∈ before, ¬ s'.Refused available budget)
    (hs : s.Refused available budget) :
    layoutShapes (before ++ s :: after) available budget = .error (s.refusal available budget) := by
  have hfirst : (before ++ s :: after).findSome? (·.refusal? available budget) = some (s.refusal available budget) := by
    rw [List.findSome?_append, List.findSome?_eq_none_iff.mpr fun s' hs' => refusal?_of_not_refused (hbefore s' hs'),
      List.findSome?_cons, refusal?_of_refused hs]
    rfl
  rw [layoutShapes, hfirst]

theorem layoutShapes_of_not_refused (h : ∀ s ∈ shapes, ¬ s.Refused available budget) :
    layoutShapes shapes available budget = search shapes available budget := by
  rw [layoutShapes, List.findSome?_eq_none_iff.mpr fun s hs => refusal?_of_not_refused (h s hs)]

theorem exists_first_refused (h : ∃ s ∈ shapes, s.Refused available budget) :
    ∃ before s after, shapes = before ++ s :: after ∧ (∀ s' ∈ before, ¬ s'.Refused available budget) ∧
      s.Refused available budget := by
  classical
  obtain ⟨s, hs, hrefused⟩ := h
  have hsome : (shapes.find? fun s => decide (s.Refused available budget)).isSome :=
    List.find?_isSome.mpr ⟨s, hs, decide_eq_true hrefused⟩
  obtain ⟨s, hfind⟩ := Option.isSome_iff_exists.mp hsome
  obtain ⟨hrefused, before, after, hsplit, hbefore⟩ := List.find?_eq_some_iff_append.mp hfind
  exact ⟨before, s, after, hsplit, fun s' hs' => by simpa using hbefore s' hs', of_decide_eq_true hrefused⟩

/-- A shape is refused exactly when the answer is about one shape. -/
theorem exists_refused_iff : (∃ s ∈ shapes, s.Refused available budget) ↔
    (∃ name columns, layoutShapes shapes available budget = .error (.constantColumns name columns available)) ∨
      ∃ name rows, layoutShapes shapes available budget = .error (.tableTooLong name rows budget) := by
  constructor
  · intro h
    obtain ⟨before, s, after, rfl, hbefore, hs⟩ := exists_first_refused h
    rw [layoutShapes_of_refused hbefore hs, Shape.refusal]
    split
    · exact Or.inl ⟨_, _, rfl⟩
    · exact Or.inr ⟨_, _, rfl⟩
  · intro h
    by_contra hnone
    -- Without a refused table the answer is that of the search, which refuses none.
    rw [layoutShapes_of_not_refused fun s hs hrefused => hnone ⟨s, hs, hrefused⟩] at h
    have hsearch := search_eq shapes available budget
    split at hsearch
    · rw [hsearch] at h
      rcases h with ⟨_, _, h⟩ | ⟨_, _, h⟩ <;> cases h
    · obtain ⟨b, hb⟩ := hsearch
      rw [hb] at h
      rcases h with ⟨_, _, h⟩ | ⟨_, _, h⟩ <;> cases h

theorem layoutShapes_eq_exhausted_iff : (∃ b, layoutShapes shapes available budget = .error (.exhausted b)) ↔
    (∀ s ∈ shapes, ¬ s.Refused available budget) ∧ ∀ b ∈ budgets budget, attempt shapes available b = none := by
  by_cases hrefused : ∃ s ∈ shapes, s.Refused available budget
  · refine iff_of_false ?_ fun h => ?_
    · rintro ⟨b, hb⟩
      have hanswer := exists_refused_iff.mp hrefused
      rw [hb] at hanswer
      rcases hanswer with ⟨_, _, h⟩ | ⟨_, _, h⟩ <;> cases h
    · obtain ⟨s, hs, hrefused⟩ := hrefused
      exact h.1 s hs hrefused
  · have hnone : ∀ s ∈ shapes, ¬ s.Refused available budget := fun s hs h => hrefused ⟨s, hs, h⟩
    rw [layoutShapes_of_not_refused hnone, search_eq_exhausted_iff]
    exact (and_iff_right hnone).symm

/-! ### Tables in use -/

/-- The tables in use are listed by ascending names. -/
theorem ascending_referenced (hnames : ((referenced reserved tables).map Table.name).Nodup) :
    ((referenced reserved tables).map Table.name).Pairwise (· < ·) := by
  have hsorted := @List.pairwise_mergeSort Table (fun s t => s.name ≤ t.name)
    (fun _ _ _ hst htu => decide_eq_true (le_trans (of_decide_eq_true hst) (of_decide_eq_true htu)))
    (fun s t => by simpa using le_total s.name t.name)
    (tables.filter fun t => !(t.references reserved).isEmpty)
  have hle : ((referenced reserved tables).map Table.name).Pairwise (· ≤ ·) :=
    List.pairwise_map.mpr (hsorted.imp of_decide_eq_true)
  exact (hle.and hnames).imp fun h => lt_of_le_of_ne h.1 h.2

theorem exists_shapes (hgrids : ∀ t ∈ referenced reserved tables, ∃ g, t.columns = .ok g) :
    ∃ shapes, (referenced reserved tables).mapM (·.shape reserved) = .ok shapes := by
  refine exists_mapM_eq_ok.mpr fun t ht => ?_
  obtain ⟨g, hg⟩ := hgrids t ht
  exact ⟨_, bind_eq_ok.mpr ⟨g.rows, map_eq_ok.mpr ⟨g, hg, rfl⟩, rfl⟩⟩

/-- A table with no place settles the answer; else it is the layout under the first budget that has one. -/
theorem layout_answers (hnames : ((referenced reserved tables).map Table.name).Nodup)
    (hgrids : ∀ t ∈ referenced reserved tables, ∃ g, t.columns = .ok g) :
    ∃ shapes answer, (referenced reserved tables).mapM (·.shape reserved) = .ok shapes ∧
      (shapes.map Shape.name).Pairwise (· < ·) ∧
      layout reserved tables available budget = .ok answer ∧
      ((∃ s ∈ shapes, s.Refused available budget) ↔
        (∃ name columns, answer = .error (.constantColumns name columns available)) ∨
          ∃ name rows, answer = .error (.tableTooLong name rows budget)) ∧
      (∀ before s after, shapes = before ++ s :: after → (∀ s' ∈ before, ¬ s'.Refused available budget) →
        s.Refused available budget → answer = .error (s.refusal available budget)) ∧
      ((∀ s ∈ shapes, ¬ s.Refused available budget) →
        (∀ l, answer = .ok l ↔ ∃ before after, budgets budget = before ++ l.budget :: after ∧
          (∀ b ∈ before, attempt shapes available b = none) ∧ attempt shapes available l.budget = some l) ∧
        ((∃ b, answer = .error (.exhausted b)) ↔ ∀ b ∈ budgets budget, attempt shapes available b = none)) := by
  obtain ⟨shapes, hshapes⟩ := exists_shapes hgrids
  refine ⟨shapes, layoutShapes shapes available budget, hshapes, ?_, bind_eq_ok.mpr ⟨shapes, hshapes, rfl⟩,
    exists_refused_iff, ?_, fun hnone => ?_⟩
  · rw [names_of_shapes hshapes]
    exact ascending_referenced hnames
  · rintro before s after rfl hbefore hs
    exact layoutShapes_of_refused hbefore hs
  · rw [layoutShapes_of_not_refused hnone]
    exact ⟨fun l => search_eq_ok_iff, search_eq_exhausted_iff⟩

/-- Under sixteen rows two tables have no place; under thirteen the longer one is folded below the other. -/
theorem layout_of_two_tables :
    let all (n : Nat) : SortedMap String Subtable := ⟨[("all", ⟨[0], 0, n, Nat.zero_le n⟩)], by simp⟩
    let tables : List Table := [⟨"b", 1, all 13, Thunk.mk fun _ => [Array.replicate 14 5]⟩,
      ⟨"a", 2, all 1, Thunk.mk fun _ => [#[1, 2], #[3, 4]]⟩]
    let reserved : Reserved := ⟨[("a/all", 1), ("b/all", 2)], by decide⟩
    let shapes : List Shape := [⟨"a", 2, 2, true⟩, ⟨"b", 1, 14, true⟩]
    let l : Layout := ⟨13, [⟨⟨"a", 2, 2, 1⟩, 0, 1⟩, ⟨⟨"b", 1, 7, 2⟩, 0, 3⟩]⟩
    layout reserved tables 2 16 = .ok (.ok l) ∧
      ∃ before after, budgets 16 = before ++ 13 :: after ∧ ∀ b ∈ before, attempt shapes 2 b = none := by
  intro all tables reserved shapes l
  have hgrids : ∀ t ∈ referenced reserved tables, ∃ g, t.columns = .ok g := by
    intro t ht
    have ht := (mem_referenced.mp ht).1
    simp only [tables, List.mem_cons, List.not_mem_nil, or_false] at ht
    rcases ht with rfl | rfl
    · exact ⟨_, by cbv⟩
    · exact ⟨_, by cbv⟩
  have hlayout : layout reserved tables 2 16 = .ok (.ok l) := by cbv
  obtain ⟨shapes', answer, hshapes, -, hanswer, -, -, hsearch⟩ :=
    @layout_answers reserved tables 2 16 (nodup_referenced (by decide)) hgrids
  obtain rfl : shapes' = shapes := by
    have hlist : (referenced reserved tables).mapM (·.shape reserved) = .ok shapes := by cbv
    exact Except.ok.inj (hshapes.symm.trans hlist)
  obtain rfl : answer = .ok l := Except.ok.inj (hanswer.symm.trans hlayout)
  obtain ⟨before, after, hsplit, hbefore, -⟩ := ((hsearch (by unfold Shape.Refused; decide)).1 l).mp rfl
  exact ⟨hlayout, before, after, hsplit, hbefore⟩

end Lookup
end Plonkish
