import Mathlib
import Plonkish.Lookup.Catalogue
import Plonkish.Proofs.Lookup.FirstFit

/-! What other tables lists and other columns make of a layout. The tables in use are sorted by name before anything
    else is done with them, and a sorted list of different names is settled by what is in it (`referenced_perm`), so
    the order in which tables come is lost at once: layout and packings never see it.

    More columns leave every attempt that succeeds as it is, since a band that fits still fits (`attempt_mono`). The
    search visits the same budgets with more columns, only it may be done earlier, under a larger budget
    (`search_mono`). -/

namespace Plonkish
namespace Lookup

variable {reserved : Reserved} {tables tables' : List Table} {shapes : List Shape} {strips : List Strip}
  {available available' budget x : Nat} {ps : List Placement} {l : Layout}

/-! ### The order of tables -/

/-- The tables in use are the same list in whatever order all tables come. -/
theorem referenced_perm (hnames : (tables.map Table.name).Nodup) (hperm : tables.Perm tables') :
    referenced reserved tables' = referenced reserved tables := by
  have hnames' : (tables'.map Table.name).Nodup := (hperm.map _).nodup_iff.mp hnames
  have hused : (referenced reserved tables').Perm (referenced reserved tables) :=
    (List.mergeSort_perm ..).trans ((hperm.symm.filter _).trans (List.mergeSort_perm ..).symm)
  have hascending : (referenced reserved tables).Pairwise (·.name < ·.name) :=
    List.pairwise_map.mp (ascending_referenced (nodup_referenced hnames))
  have hascending' : (referenced reserved tables').Pairwise (·.name < ·.name) :=
    List.pairwise_map.mp (ascending_referenced (nodup_referenced hnames'))
  exact hused.eq_of_pairwise (fun _ _ _ _ hlt hgt => absurd hlt (lt_asymm hgt)) hascending' hascending

/-- Either packing gives the same answer and the same circuit in whatever order the tables come, and so does the
    layout. -/
theorem pack_perm (hnames : (tables.map Table.name).Nodup) (hperm : tables.Perm tables') :
    (∀ (packing : Packing) c columns usable,
      packing.pack reserved tables' c columns usable = packing.pack reserved tables c columns usable) ∧
    ∀ available budget, layout reserved tables' available budget = layout reserved tables available budget := by
  have hused : referenced reserved tables' = referenced reserved tables := referenced_perm hnames hperm
  have hlayout (available budget : Nat) :
      layout reserved tables' available budget = layout reserved tables available budget := by
    rw [layout, layout, hused]
  refine ⟨fun packing c columns usable => ?_, hlayout⟩
  cases packing with
  | vertical => simp only [Packing.pack, packVertical, hused]
  | horizontal budget => simp only [Packing.pack, packHorizontal, hused, hlayout]

/-- Of two tables the longer one is folded below the wider one, whichever comes first. -/
theorem pack_of_two_orders :
    let all (n : Nat) : SortedMap String Subtable := ⟨[("all", ⟨[0], 0, n, Nat.zero_le n⟩)], by simp⟩
    let long : Table := ⟨"b", 1, all 13, Thunk.mk fun _ => [Array.replicate 14 5]⟩
    let wide : Table := ⟨"a", 2, all 1, Thunk.mk fun _ => [#[1, 2], #[3, 4]]⟩
    let reserved : Reserved := ⟨[("a/all", 1), ("b/all", 2)], by decide⟩
    let l : Layout := ⟨13, [⟨⟨"a", 2, 2, 1⟩, 0, 1⟩, ⟨⟨"b", 1, 7, 2⟩, 0, 3⟩]⟩
    let c : Circuit := ⟨.empty, .blank 0 2 0 2⟩
    ([long, wide].map Table.name).Nodup ∧ [long, wide].Perm [wide, long] ∧
      layout reserved [long, wide] 2 16 = .ok (.ok l) ∧ layout reserved [wide, long] 2 16 = .ok (.ok l) ∧
      ∀ packing : Packing,
        packing.pack reserved [wide, long] c [0, 1] 0 = packing.pack reserved [long, wide] c [0, 1] 0 := by
  intro all long wide reserved l c
  have hnames : ([long, wide].map Table.name).Nodup := by decide
  have hperm : [long, wide].Perm [wide, long] := .swap ..
  have hlayout : layout reserved [long, wide] 2 16 = .ok (.ok l) := by cbv
  obtain ⟨hpack, hsame⟩ := @pack_perm reserved _ _ hnames hperm
  exact ⟨hnames, hperm, hlayout, (hsame 2 16).trans hlayout, fun packing => hpack packing c [0, 1] 0⟩

/-! ### More columns -/

theorem fillBands_mono (hle : available ≤ available') (h : fillBands budget available x strips = some ps) :
    fillBands budget available' x strips = some ps := by
  fun_induction fillBands budget available x strips generalizing ps with
  | case1 =>
    rw [fillBands]
    exact h
  | case2 x s rest hfits band =>
    rename_i ih
    obtain ⟨others, hothers, rfl⟩ := Option.map_eq_some_iff.mp h
    rw [fillBands, if_pos (hfits.trans hle)]
    dsimp only
    rw [ih hothers]
    rfl
  | case3 => cases h

theorem attempt_mono (hle : available ≤ available') (h : attempt shapes available budget = some l) :
    attempt shapes available' budget = some l := by
  obtain ⟨hlow, hrows, hbudget, hps⟩ := attempt_eq_some_iff.mp h
  exact attempt_eq_some_iff.mpr ⟨hlow, hrows, hbudget, fillBands_mono hle hps⟩

theorem search_of_attempt (h : attempt shapes available budget = some l) : search shapes available budget = .ok l := by
  rw [search, h]

theorem search_of_shrink? {next : Nat} (hattempt : attempt shapes available budget = none)
    (hnext : shrink? budget = some next) (hroom : ¬ next ≤ firstRow)
    (hlong : ¬ shapes.any fun s => !s.foldable && next < firstRow + s.rows) :
    search shapes available budget = search shapes available next := by
  rw [search, hattempt]
  dsimp only
  split
  · rename_i next' hnext'
    obtain rfl := Option.some.inj (hnext.symm.trans hnext')
    rw [if_neg hroom, if_neg hlong]
  · rename_i hnone
    cases hnone.symm.trans hnext

/-- With more columns the search is done under the same budget with the same layout, or earlier. -/
theorem search_mono (hle : available ≤ available') (h : search shapes available budget = .ok l) :
    ∃ l', search shapes available' budget = .ok l' ∧ l.budget ≤ l'.budget ∧ l'.budget ≤ budget ∧
      (l'.budget = l.budget → l' = l) := by
  fun_induction search shapes available budget with
  | case1 b l₀ hattempt =>
    obtain rfl := Except.ok.inj h
    have hbudget : l₀.budget = b := (placed_of_attempt hattempt).1
    exact ⟨l₀, search_of_attempt (attempt_mono hle hattempt), Nat.le_refl _, Nat.le_of_eq hbudget, fun _ => rfl⟩
  | case2 | case3 | case5 => cases h
  | case4 b hattempt next hnext hroom hlong ih =>
    have hlt : next < b := shrink?_lt hnext
    obtain ⟨l₁, hsearch, hge, hnext', heq⟩ := ih h
    cases hwide : attempt shapes available' b with
    | none =>
      refine ⟨l₁, ?_, hge, hnext'.trans (Nat.le_of_lt hlt), heq⟩
      rw [search_of_shrink? hwide hnext hroom hlong, hsearch]
    | some l' =>
      have hbudget : l'.budget = b := (placed_of_attempt hwide).1
      exact ⟨l', search_of_attempt hwide, by omega, by omega, fun h => by omega⟩

/-- Whoever is refused for more columns is refused for fewer. -/
theorem Shape.Refused.mono {s : Shape} (hle : available ≤ available') (h : s.Refused available' budget) :
    s.Refused available budget :=
  h.imp_left fun hwide => Nat.lt_of_le_of_lt hle hwide

theorem not_refused_of_layoutShapes (h : layoutShapes shapes available budget = .ok l) :
    ∀ s ∈ shapes, ¬ s.Refused available budget := fun s hs hrefused => by
  rcases exists_refused_iff.mp ⟨s, hs, hrefused⟩ with ⟨_, _, h'⟩ | ⟨_, _, h'⟩ <;> cases h.symm.trans h'

/-- Tables that have a layout have one with more columns, under a budget that is no smaller; under the same budget it
    is the same layout. -/
theorem layout_mono (hle : available ≤ available') (h : layout reserved tables available budget = .ok (.ok l)) :
    ∃ l', layout reserved tables available' budget = .ok (.ok l') ∧ l.budget ≤ l'.budget ∧ l'.budget ≤ budget ∧
      (l'.budget = l.budget → l' = l) := by
  obtain ⟨shapes, hshapes, hlayout⟩ := bind_eq_ok.mp h
  have hlayout : layoutShapes shapes available budget = .ok l := Except.ok.inj hlayout
  have hfits := not_refused_of_layoutShapes hlayout
  rw [layoutShapes_of_not_refused hfits] at hlayout
  obtain ⟨l', hsearch, hwider⟩ := search_mono hle hlayout
  refine ⟨l', bind_eq_ok.mpr ⟨shapes, hshapes, ?_⟩, hwider⟩
  rw [layoutShapes_of_not_refused fun s hs hrefused => hfits s hs (hrefused.mono hle), hsearch]

/-- With two columns the longer table is folded under thirteen rows; with a third one it lies beside the other under
    sixteen. -/
theorem layout_of_third_column :
    let all (n : Nat) : SortedMap String Subtable := ⟨[("all", ⟨[0], 0, n, Nat.zero_le n⟩)], by simp⟩
    let tables : List Table := [⟨"b", 1, all 13, Thunk.mk fun _ => [Array.replicate 14 5]⟩,
      ⟨"a", 2, all 1, Thunk.mk fun _ => [#[1, 2], #[3, 4]]⟩]
    let reserved : Reserved := ⟨[("a/all", 1), ("b/all", 2)], by decide⟩
    let l : Layout := ⟨13, [⟨⟨"a", 2, 2, 1⟩, 0, 1⟩, ⟨⟨"b", 1, 7, 2⟩, 0, 3⟩]⟩
    let l' : Layout := ⟨16, [⟨⟨"a", 2, 2, 1⟩, 0, 1⟩, ⟨⟨"b", 1, 14, 1⟩, 2, 1⟩]⟩
    2 ≤ 3 ∧ layout reserved tables 2 16 = .ok (.ok l) ∧ layout reserved tables 3 16 = .ok (.ok l') ∧
      l.budget ≤ l'.budget ∧ l'.budget ≤ 16 := by
  intro all tables reserved l l'
  have hlayout : layout reserved tables 2 16 = .ok (.ok l) := by cbv
  have hlayout' : layout reserved tables 3 16 = .ok (.ok l') := by cbv
  obtain ⟨_, hwider, hge, hle, -⟩ := @layout_mono _ _ 2 3 _ _ (by decide) hlayout
  obtain rfl := Except.ok.inj (Except.ok.inj (hlayout'.symm.trans hwider))
  exact ⟨by decide, hlayout, hlayout', hge, hle⟩

end Lookup
end Plonkish
