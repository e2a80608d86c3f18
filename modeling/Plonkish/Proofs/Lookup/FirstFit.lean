import Plonkish.Proofs.Lookup.Bands

/-! An attempt is first-fit. Bands are filled one after the other, each with what it takes of all strips left, while
    first-fit goes strip by strip and puts each into the first open band that has the rows for it. Strips come by
    decreasing width, so any of them is narrow enough for every open band, and what a band takes does not depend on the
    bands to its right: under first-fit, too, the strips that it leaves are those that the others are filled with
    (`perm_firstFit_band`). Hence both place every strip at the same spot and open the same columns
    (`attempt_eq_firstFit`). -/

namespace Plonkish
namespace Lookup

/-! ### Strip by strip -/

/-- A band that is open: how wide it is, and the first of its rows that is free. -/
structure OpenBand where
  width : Nat
  free : Nat
  deriving DecidableEq

/-- Puts a strip at the bottom of the first band that it stays within the budget in. The bands lie side by side from
    column `x` on; where none has the rows, a new one is opened to the right of them all. -/
def fitFirst (budget x : Nat) (s : Strip) : List OpenBand → Placement × List OpenBand
  | [] => (⟨s, x, firstRow⟩, [⟨s.width, firstRow + s.rows⟩])
  | b :: bands =>
    if b.free + s.rows ≤ budget then (⟨s, x, b.free⟩, ⟨b.width, b.free + s.rows⟩ :: bands)
    else
      let fit := fitFirst budget (x + b.width) s bands
      (fit.1, b :: fit.2)

/-- Puts strips one by one where they fit first. Answers the placements and the bands that are open in the end. -/
def firstFit (budget x : Nat) (bands : List OpenBand) : List Strip → List Placement × List OpenBand
  | [] => ([], bands)
  | s :: rest =>
    let fit := fitFirst budget x s bands
    let others := firstFit budget x fit.2 rest
    (fit.1 :: others.1, others.2)

/-- The columns that open bands take side by side. -/
def openColumns (bands : List OpenBand) : Nat := (bands.map OpenBand.width).sum

variable {budget available x width y : Nat} {s : Strip} {strips rest : List Strip} {bands : List OpenBand}
  {ps : List Placement} {shapes : List Shape}

theorem fitFirst_of_fits (h : y + s.rows ≤ budget) :
    fitFirst budget x s (⟨width, y⟩ :: bands) = (⟨s, x, y⟩, ⟨width, y + s.rows⟩ :: bands) := by
  rw [fitFirst, if_pos h]

theorem fitFirst_of_not_fits (h : ¬ y + s.rows ≤ budget) :
    fitFirst budget x s (⟨width, y⟩ :: bands) =
      ((fitFirst budget (x + width) s bands).1, ⟨width, y⟩ :: (fitFirst budget (x + width) s bands).2) := by
  rw [fitFirst, if_neg h]

/-! ### Band by band -/

/-- The first band takes what it is filled with, and the others are left the rest. -/
theorem perm_firstFit_band (hwidth : ∀ s ∈ strips, s.width ≤ width) :
    (firstFit budget x (⟨width, y⟩ :: bands) strips).1.Perm
      ((fillBand budget x width y strips).1 ++
        (firstFit budget (x + width) bands (leftOver budget width y strips)).1) := by
  induction strips generalizing y bands with
  | nil => exact .refl _
  | cons s rest ih =>
    obtain ⟨hs, hrest⟩ := List.forall_mem_cons.mp hwidth
    by_cases h : y + s.rows ≤ budget
    · rw [firstFit, fitFirst_of_fits h, fillBand_of_fits ⟨hs, h⟩, leftOver_of_fits hs h, List.cons_append]
      exact (ih hrest).cons _
    · rw [firstFit, fitFirst_of_not_fits h, fillBand_of_not_fits fun hfits => h hfits.2,
        leftOver_of_not_fits (Nat.lt_of_not_le h), firstFit]
      exact ((ih hrest).cons _).trans List.perm_middle.symm

theorem openColumns_firstFit_band (hwidth : ∀ s ∈ strips, s.width ≤ width) :
    openColumns (firstFit budget x (⟨width, y⟩ :: bands) strips).2 =
      width + openColumns (firstFit budget (x + width) bands (leftOver budget width y strips)).2 := by
  induction strips generalizing y bands with
  | nil => simp [firstFit, leftOver, fillBand, openColumns]
  | cons s rest ih =>
    obtain ⟨hs, hrest⟩ := List.forall_mem_cons.mp hwidth
    by_cases h : y + s.rows ≤ budget
    · rw [firstFit, fitFirst_of_fits h, leftOver_of_fits hs h]
      exact ih hrest
    · rw [firstFit, fitFirst_of_not_fits h, leftOver_of_not_fits (Nat.lt_of_not_le h), firstFit]
      exact ih hrest

/-- From no band on, the first strip opens one, and no later strip is wider. -/
theorem perm_firstFit_of_fillBands (hwidest : WidestFirst strips) (h : fillBands budget available x strips = some ps) :
    ps.Perm (firstFit budget x [] strips).1 := by
  fun_induction fillBands budget available x strips generalizing ps with
  | case1 =>
    obtain rfl := Option.some.inj h
    exact .refl _
  | case2 x s rest hx band =>
    rename_i ih
    obtain ⟨others, ho, rfl⟩ := Option.map_eq_some_iff.mp h
    obtain ⟨hwidth, hrest⟩ := List.pairwise_cons.mp hwidest
    have hleft : band.2 = leftOver budget s.width (firstRow + s.rows) rest := fillBand_left ..
    rw [hleft] at ih ho
    have hothers := ih (hrest.sublist (leftOver_sublist ..)) ho
    rw [firstFit, fitFirst, List.cons_append]
    exact ((hothers.append_left _).trans (perm_firstFit_band hwidth).symm).cons _
  | case3 => cases h

theorem bandColumns_eq_openColumns (hwidest : WidestFirst strips) (x : Nat) :
    bandColumns budget strips = openColumns (firstFit budget x [] strips).2 := by
  fun_induction bandColumns budget strips generalizing x with
  | case1 => rfl
  | case2 s rest ih =>
    obtain ⟨hwidth, hrest⟩ := List.pairwise_cons.mp hwidest
    rw [firstFit, fitFirst, openColumns_firstFit_band hwidth, ih (hrest.sublist (leftOver_sublist ..)) (x + s.width)]

/-! ### One attempt -/

theorem fillBands_of_attempt {l : Layout} (h : attempt shapes available budget = some l) :
    l.budget = budget ∧ fillBands budget available 0 (ordered shapes budget) = some l.placements :=
  (attempt_eq_some_iff.mp h).2.2

/-- Tables folded for a budget are taken by decreasing width, then increasing height, then name. An attempt places them
    as first-fit does, and fails exactly if one of them is too high or the bands that first-fit opens take too many
    columns. -/
theorem attempt_eq_firstFit (shapes : List Shape) (available budget : Nat) (hbudget : 2 ≤ budget) :
    (ordered shapes budget).Perm (shapes.map (·.fold (budget - 1))) ∧
    (ordered shapes budget).Pairwise (fun s t => t.width < s.width ∨
      s.width = t.width ∧ (s.rows < t.rows ∨ s.rows = t.rows ∧ s.name ≤ t.name)) ∧
    (attempt shapes available budget = none ↔ (∃ s ∈ shapes, budget - 1 < (s.fold (budget - 1)).rows) ∨
      available < openColumns (firstFit budget 0 [] (ordered shapes budget)).2) ∧
    ∀ l, attempt shapes available budget = some l →
      l.budget = budget ∧ l.placements.Perm (firstFit budget 0 [] (ordered shapes budget)).1 := by
  have hwidest := widestFirst_ordered shapes budget
  refine ⟨ordered_perm shapes budget, ordered_sorted shapes budget, ?_, fun l hl => ?_⟩
  · -- An attempt fails for the height of a strip or for the columns of the bands.
    rw [← not_iff_not, ← ne_eq, attempt_ne_none_iff, ← bandColumns_eq_openColumns hwidest, firstRow]
    constructor
    · rintro ⟨-, hrows, hcolumns⟩ (⟨s, hs, hhigh⟩ | hwide)
      · have hlow := hrows s hs
        omega
      · exact Nat.not_lt.mpr hcolumns hwide
    · intro h
      refine ⟨hbudget, fun s hs => ?_, Nat.le_of_not_lt fun hwide => h (Or.inr hwide)⟩
      have hlow : ¬ budget - 1 < (s.fold (budget - 1)).rows := fun hhigh => h (Or.inl ⟨s, hs, hhigh⟩)
      omega
  · -- Bands are filled one by one, first fit goes strip by strip: both place the same.
    obtain ⟨rfl, hbands⟩ := fillBands_of_attempt hl
    exact ⟨rfl, perm_firstFit_of_fillBands hwidest hbands⟩

/-- Under seven rows the lowest table is put below the widest one, after a table of nine rows was folded in two and put
    beside it. The bands take seven columns, so that six are too few. -/
theorem firstFit_of_four_tables :
    let shapes : List Shape := [⟨"d", 1, 2, true⟩, ⟨"c", 1, 9, true⟩, ⟨"b", 2, 6, false⟩, ⟨"a", 3, 4, false⟩]
    let fit : List Placement × List OpenBand := ([⟨⟨"a", 3, 4, 1⟩, 0, 1⟩, ⟨⟨"c", 1, 5, 2⟩, 3, 1⟩, ⟨⟨"b", 2, 6, 1⟩, 5, 1⟩,
      ⟨⟨"d", 1, 2, 1⟩, 0, 5⟩], [⟨3, 7⟩, ⟨2, 6⟩, ⟨2, 7⟩])
    2 ≤ 7 ∧ firstFit 7 0 [] (ordered shapes 7) = fit ∧ attempt shapes 6 7 = none ∧
      ∃ l, attempt shapes 7 7 = some l ∧ l.placements.Perm fit.1 := by
  intro shapes fit
  have hfit : firstFit 7 0 [] (ordered shapes 7) = fit := by cbv
  refine ⟨by decide, hfit, ?_, ?_⟩
  · refine (attempt_eq_firstFit shapes 6 7 (by decide)).2.2.1.mpr (Or.inr ?_)
    rw [hfit]
    decide
  · obtain ⟨-, -, hnone, hsome⟩ := attempt_eq_firstFit shapes 7 7 (by decide)
    rw [hfit] at hnone hsome
    obtain ⟨l, hl⟩ := Option.ne_none_iff_exists'.mp (mt hnone.mp (by decide))
    exact ⟨l, hl, (hsome l hl).2⟩

end Lookup
end Plonkish
