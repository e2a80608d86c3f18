import Mathlib
import Plonkish.Proofs.Lookup.Packed

/-! The geometry of a layout. Every table in use has one placement and no other table has any. A placement lies
    within the columns given and in the rows of the budget below the row that stays zero, its groups hold
    every row of its table, and it is in one group unless every subtable in use spans the table
    (`Placement.Suits`). Two placements have no column in common or no row (`Placement.Apart`). -/

namespace Plonkish
namespace Lookup

/-- The rectangles of two placements have no column in common, or no row. -/
def Placement.Apart (p q : Placement) : Prop :=
  Disjoint (Set.Ico p.x p.right) (Set.Ico q.x q.right) ∨ Disjoint (Set.Ico p.y p.bottom) (Set.Ico q.y q.bottom)

/-- A placement has room for a table with a checked grid, within the columns available and the rows of a budget. -/
structure Placement.Suits (reserved : Reserved) (available budget : Nat) (t : Table) (g : Grid) (p : Placement) :
    Prop where
  grid : t.columns = .ok g
  name : p.strip.name = t.name
  columns : p.strip.columns = t.width
  right : p.x + p.strip.width ≤ available
  top : 1 ≤ p.y
  bottom : p.y + p.strip.rows ≤ budget
  height : g.rows ≤ p.strip.folds * p.strip.rows
  folds : p.strip.folds = 1 ∨ ∀ r ∈ t.references reserved, r.subtable.spans g.rows

variable {reserved : Reserved} {tables : List Table} {available budget : Nat} {l : Layout} {p q : Placement}
  {t : Table} {g : Grid}

theorem Placement.Clears.apart (h : p.Clears q) : p.Apart q := by
  refine h.imp (fun hx => ?_) fun hy => ?_
  · exact Set.disjoint_left.mpr fun i hi hi' => absurd (Nat.lt_of_lt_of_le hi.2 hx) (Nat.not_lt.mpr hi'.1)
  · exact Set.disjoint_left.mpr fun r hr hr' => absurd (Nat.lt_of_lt_of_le hr.2 hy) (Nat.not_lt.mpr hr'.1)

theorem Lays.suits (h : Lays reserved t g p) (hw : p.Within budget available 0) :
    p.Suits reserved available budget t g where
  grid := h.grid
  name := h.name
  columns := h.columns.trans (check_eq_ok h.grid).1
  right := hw.right
  top := hw.top
  bottom := hw.bottom
  height := h.rows ▸ le_mul_ceilDiv h.folds
  folds := (Nat.eq_or_lt_of_le h.folds).imp Eq.symm h.spans

theorem name_mem_referenced (hnames : (tables.map Table.name).Nodup) (ht : t ∈ tables) :
    t.name ∈ (referenced reserved tables).map Table.name ↔ t.references reserved ≠ [] := by
  constructor
  · intro hmem
    obtain ⟨t', ht', hname⟩ := List.mem_map.mp hmem
    obtain ⟨htables, hused⟩ := mem_referenced.mp ht'
    rwa [List.inj_on_of_nodup_map hnames htables ht hname] at hused
  · exact fun hused => List.mem_map_of_mem (mem_referenced.mpr ⟨ht, hused⟩)

/-- A layout places every table in use once and no other table, where it suits, and apart from one another. -/
theorem geometry_of_layout (hnames : (tables.map Table.name).Nodup)
    (h : layout reserved tables available budget = .ok (.ok l)) :
    l.budget ≤ budget ∧
    (∀ t ∈ tables, (l.placements.map (·.strip.name)).count t.name = if t.references reserved = [] then 0 else 1) ∧
    (∀ p ∈ l.placements, ∃ t ∈ tables, t.references reserved ≠ [] ∧ ∃ g, p.Suits reserved available l.budget t g) ∧
    l.placements.Pairwise Placement.Apart := by
  obtain ⟨_, -, hbudget, hplaced⟩ := placed_of_layout h
  obtain ⟨hlays, -⟩ := laysAll_of_layout (nodup_referenced hnames) h
  refine ⟨hbudget, fun t ht => ?_, fun p hp => ?_, hplaced.clear.imp Placement.Clears.apart⟩
  · rw [(names_of_layout h).count_eq]
    split
    · rename_i hunused
      exact List.count_eq_zero.mpr fun hmem => (name_mem_referenced hnames ht).mp hmem hunused
    · rename_i hused
      exact List.count_eq_one_of_mem (nodup_referenced hnames) ((name_mem_referenced hnames ht).mpr hused)
  · obtain ⟨t, g, hfind, hl⟩ := hlays p hp
    obtain ⟨ht, hused⟩ := mem_referenced.mp (List.mem_of_find?_eq_some hfind)
    exact ⟨t, ht, hused, g, hl.suits (hplaced.within p hp)⟩

/-- Under four rows a table of five rows is folded into two groups beside a wider table, and a third is not in use. -/
theorem geometry_of_three_tables :
    let all (n : Nat) : SortedMap String Subtable := ⟨[("all", ⟨[0], 0, n, Nat.zero_le n⟩)], by simp⟩
    let tables : List Table := [⟨"c", 1, all 0, Thunk.mk fun _ => [#[9]]⟩, ⟨"b", 1, all 4, Thunk.mk fun _ => [#[1, 2, 3, 4, 5]]⟩,
      ⟨"a", 3, all 1, Thunk.mk fun _ => [#[1, 2], #[3, 4], #[5, 6]]⟩]
    let reserved : Reserved := ⟨[("a/all", 1), ("b/all", 2)], by decide⟩
    let l : Layout := ⟨4, [⟨⟨"a", 3, 2, 1⟩, 0, 1⟩, ⟨⟨"b", 1, 3, 2⟩, 3, 1⟩]⟩
    layout reserved tables 5 4 = .ok (.ok l) ∧
      (∀ t ∈ tables, (l.placements.map (·.strip.name)).count t.name = if t.references reserved = [] then 0 else 1) ∧
      l.placements.Pairwise Placement.Apart := by
  intro all tables reserved l
  have hlayout : layout reserved tables 5 4 = .ok (.ok l) := by cbv
  obtain ⟨-, hcount, -, hapart⟩ := geometry_of_layout (by decide) hlayout
  exact ⟨hlayout, hcount, hapart⟩

end Lookup
end Plonkish
