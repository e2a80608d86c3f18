import Plonkish.Lookup.Search
import Plonkish.Proofs.Steps

/-! What a layout guarantees. Filling bands places every strip once, within the columns and rows given, and
    of two placements the later one lies to the right of the earlier one or below it
    (`perm_fillBands`, `within_fillBands`, `pairwise_fillBands`). The search ends with such an attempt
    under some budget (`exists_attempt_of_search`), so a layout places every table in use once, folded as
    that budget asks for (`placed_of_layout`). -/

namespace Plonkish
namespace Lookup

/-- The second of two placements lies to the right of the first one or below it. -/
def Placement.Clears (p q : Placement) : Prop := p.right ≤ q.x ∨ p.bottom ≤ q.y

/-- A placement lies in the columns from `x` to before `available`, and in the rows of a budget. -/
structure Placement.Within (budget available x : Nat) (p : Placement) : Prop where
  left : x ≤ p.x
  right : p.right ≤ available
  top : firstRow ≤ p.y
  bottom : p.bottom ≤ budget

/-! ### One band -/

variable {budget available x width y : Nat} {s : Strip} {strips rest : List Strip}

theorem fillBand_of_fits (h : s.width ≤ width ∧ y + s.rows ≤ budget) :
    fillBand budget x width y (s :: rest) =
      (⟨s, x, y⟩ :: (fillBand budget x width (y + s.rows) rest).1, (fillBand budget x width (y + s.rows) rest).2) := by
  rw [fillBand, if_pos h]

theorem fillBand_of_not_fits (h : ¬ (s.width ≤ width ∧ y + s.rows ≤ budget)) :
    fillBand budget x width y (s :: rest) =
      ((fillBand budget x width y rest).1, s :: (fillBand budget x width y rest).2) := by
  rw [fillBand, if_neg h]

theorem perm_fillBand (budget x width y : Nat) (strips : List Strip) :
    ((fillBand budget x width y strips).1.map Placement.strip ++ (fillBand budget x width y strips).2).Perm
      strips := by
  induction strips generalizing y with
  | nil => exact .refl _
  | cons s rest ih =>
    by_cases h : s.width ≤ width ∧ y + s.rows ≤ budget
    · rw [fillBand_of_fits h]
      exact (ih _).cons s
    · rw [fillBand_of_not_fits h]
      exact List.perm_middle.trans ((ih y).cons s)

theorem mem_of_mem_fillBand_left (h : s ∈ (fillBand budget x width y strips).2) : s ∈ strips :=
  (perm_fillBand ..).subset (List.mem_append_right _ h)

theorem within_fillBand {p : Placement} (h : p ∈ (fillBand budget x width y strips).1) :
    p.x = x ∧ p.strip.width ≤ width ∧ y ≤ p.y ∧ p.bottom ≤ budget := by
  induction strips generalizing y with
  | nil => cases h
  | cons s rest ih =>
    by_cases hs : s.width ≤ width ∧ y + s.rows ≤ budget
    · rw [fillBand_of_fits hs] at h
      rcases List.mem_cons.mp h with rfl | h
      · exact ⟨rfl, hs.1, Nat.le_refl y, hs.2⟩
      · obtain ⟨hx, hw, hy, hb⟩ := ih h
        exact ⟨hx, hw, by omega, hb⟩
    · rw [fillBand_of_not_fits hs] at h
      exact ih h

theorem pairwise_fillBand (budget x width y : Nat) (strips : List Strip) :
    (fillBand budget x width y strips).1.Pairwise fun p q => p.bottom ≤ q.y := by
  induction strips generalizing y with
  | nil => exact .nil
  | cons s rest ih =>
    by_cases h : s.width ≤ width ∧ y + s.rows ≤ budget
    · rw [fillBand_of_fits h]
      exact List.pairwise_cons.mpr ⟨fun q hq => (within_fillBand hq).2.2.1, ih _⟩
    · rw [fillBand_of_not_fits h]
      exact ih y

/-! ### All bands -/

theorem perm_fillBands {ps : List Placement} (h : fillBands budget available x strips = some ps) :
    (ps.map Placement.strip).Perm strips := by
  fun_induction fillBands budget available x strips generalizing ps with
  | case1 =>
    obtain rfl := Option.some.inj h
    exact .refl _
  | case2 x s rest hx band =>
    rename_i ih
    obtain ⟨others, ho, rfl⟩ := Option.map_eq_some_iff.mp h
    rw [List.cons_append, List.map_cons, List.map_append]
    exact (((ih ho).append_left _).trans (perm_fillBand ..)).cons s
  | case3 => cases h

theorem within_fillBands {ps : List Placement} (h : fillBands budget available x strips = some ps)
    (hrows : ∀ s ∈ strips, firstRow + s.rows ≤ budget) : ∀ p ∈ ps, p.Within budget available x := by
  fun_induction fillBands budget available x strips generalizing ps with
  | case1 =>
    obtain rfl := Option.some.inj h
    exact fun p hp => absurd hp List.not_mem_nil
  | case2 x s rest hx band =>
    rename_i ih
    obtain ⟨others, ho, rfl⟩ := Option.map_eq_some_iff.mp h
    have hrest : ∀ t ∈ band.2, firstRow + t.rows ≤ budget := fun t ht =>
      hrows t (List.mem_cons_of_mem _ (mem_of_mem_fillBand_left ht))
    intro p hp
    rcases List.mem_append.mp hp with hp | hp
    · rcases List.mem_cons.mp hp with rfl | hp
      · exact ⟨Nat.le_refl x, hx, Nat.le_refl _, hrows s List.mem_cons_self⟩
      · obtain ⟨hpx, hpw, hpy, hpb⟩ := within_fillBand hp
        refine ⟨Nat.le_of_eq hpx.symm, ?_, by omega, hpb⟩
        unfold Placement.right
        omega
    · obtain ⟨hpx, hpr, hpt, hpb⟩ := ih ho hrest p hp
      exact ⟨by omega, hpr, hpt, hpb⟩
  | case3 => cases h

theorem pairwise_fillBands {ps : List Placement} (h : fillBands budget available x strips = some ps)
    (hrows : ∀ s ∈ strips, firstRow + s.rows ≤ budget) : ps.Pairwise Placement.Clears := by
  fun_induction fillBands budget available x strips generalizing ps with
  | case1 =>
    obtain rfl := Option.some.inj h
    exact .nil
  | case2 x s rest hx band =>
    rename_i ih
    obtain ⟨others, ho, rfl⟩ := Option.map_eq_some_iff.mp h
    have hrest : ∀ t ∈ band.2, firstRow + t.rows ≤ budget := fun t ht =>
      hrows t (List.mem_cons_of_mem _ (mem_of_mem_fillBand_left ht))
    refine List.pairwise_append.mpr ⟨List.pairwise_cons.mpr ⟨fun q hq => ?_, ?_⟩, ih ho hrest, fun p hp q hq => ?_⟩
    · -- Within a band the strips lie one below the other.
      exact Or.inr (within_fillBand hq).2.2.1
    · exact (pairwise_fillBand ..).imp Or.inr
    · -- Two bands lie side by side.
      have hq := (within_fillBands ho hrest q hq).left
      refine Or.inl (Nat.le_trans ?_ hq)
      rcases List.mem_cons.mp hp with rfl | hp
      · exact Nat.le_refl _
      · obtain ⟨hpx, hpw, -⟩ := within_fillBand hp
        unfold Placement.right
        omega
  | case3 => cases h

/-! ### One attempt -/

variable {shapes : List Shape} {l : Layout}

/-- An attempt folds the tables for its budget and fills bands with them in order, if the budget has a row for tables
    and none of them is too high. -/
theorem attempt_eq_some_iff : attempt shapes available budget = some l ↔ firstRow < budget ∧
    (∀ s ∈ shapes, firstRow + (s.fold (budget - firstRow)).rows ≤ budget) ∧ l.budget = budget ∧
      fillBands budget available 0 ((shapes.map (·.fold (budget - firstRow))).mergeSort Strip.before) =
        some l.placements := by
  unfold attempt
  split
  · exact iff_of_false (fun h => nomatch h) fun h => by omega
  · dsimp only
    split
    · rename_i hhigh
      refine iff_of_false (fun h => nomatch h) fun h => ?_
      obtain ⟨t, ht, hhigh⟩ := List.any_eq_true.mp hhigh
      obtain ⟨s, hs, rfl⟩ := List.mem_map.mp ht
      exact Nat.not_lt.mpr (h.2.1 s hs) (of_decide_eq_true hhigh)
    · rename_i hlow hhigh
      have hrows : ∀ s ∈ shapes, firstRow + (s.fold (budget - firstRow)).rows ≤ budget := by
        simpa using hhigh
      rw [Option.map_eq_some_iff]
      constructor
      · rintro ⟨ps, hps, rfl⟩
        exact ⟨by omega, hrows, rfl, hps⟩
      · rintro ⟨-, -, rfl, hps⟩
        exact ⟨_, hps, rfl⟩

/-- The placements are those of strips folded to a budget, clear of each other. -/
structure Placed (shapes : List Shape) (available budget : Nat) (ps : List Placement) : Prop where
  strips : (ps.map Placement.strip).Perm (shapes.map (·.fold (budget - firstRow)))
  within : ∀ p ∈ ps, p.Within budget available 0
  clear : ps.Pairwise Placement.Clears

theorem placed_of_attempt (h : attempt shapes available budget = some l) :
    l.budget = budget ∧ Placed shapes available budget l.placements := by
  obtain ⟨-, hlow, hbudget, hps⟩ := attempt_eq_some_iff.mp h
  have hsort := List.mergeSort_perm (shapes.map (·.fold (budget - firstRow))) Strip.before
  have hrows : ∀ s ∈ (shapes.map (·.fold (budget - firstRow))).mergeSort Strip.before,
      firstRow + s.rows ≤ budget := by
    intro s hs
    obtain ⟨shape, hshape, rfl⟩ := List.mem_map.mp (hsort.subset hs)
    exact hlow shape hshape
  exact ⟨hbudget, (perm_fillBands hps).trans hsort, within_fillBands hps hrows, pairwise_fillBands hps hrows⟩

/-! ### The search -/

theorem exists_attempt_of_search (h : search shapes available budget = .ok l) :
    ∃ b ≤ budget, attempt shapes available b = some l := by
  fun_induction search shapes available budget with
  | case1 b l' ha =>
    obtain rfl := Except.ok.inj h
    exact ⟨b, Nat.le_refl b, ha⟩
  | case2 => cases h
  | case3 => cases h
  | case4 b _ next hnext _ _ ih =>
    obtain ⟨b', hb', ha⟩ := ih h
    exact ⟨b', Nat.le_trans hb' (Nat.le_of_lt (shrink?_lt hnext)), ha⟩
  | case5 => cases h

theorem search_of_layoutShapes (h : layoutShapes shapes available budget = .ok l) :
    (∀ s ∈ shapes, s.refusal? available budget = none) ∧ search shapes available budget = .ok l := by
  unfold layoutShapes at h
  split at h
  · cases h
  · rename_i hnone
    exact ⟨List.findSome?_eq_none_iff.mp hnone, h⟩

/-- A layout places the tables in use, as their shapes fold under some budget. -/
theorem placed_of_layout {reserved : Reserved} {tables : List Table}
    (h : layout reserved tables available budget = .ok (.ok l)) :
    ∃ shapes, (referenced reserved tables).mapM (·.shape reserved) = .ok shapes ∧ l.budget ≤ budget ∧
      Placed shapes available l.budget l.placements := by
  obtain ⟨shapes, hshapes, h⟩ := bind_eq_ok.mp h
  obtain ⟨-, hsearch⟩ := search_of_layoutShapes (Except.ok.inj h)
  obtain ⟨b, hb, ha⟩ := exists_attempt_of_search hsearch
  obtain ⟨rfl, hplaced⟩ := placed_of_attempt ha
  exact ⟨shapes, hshapes, hb, hplaced⟩

end Lookup
end Plonkish
