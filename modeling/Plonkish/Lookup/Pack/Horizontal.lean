import Plonkish.Lookup.Pack.Basic
import Plonkish.Lookup.Search

/-! Packing tables side by side, as the layout says. A folded table is read through one option for each of
    its groups, and subtables on the same rows share a selector. -/

namespace Plonkish
namespace Lookup

/-- The selectors handed out so far, by the rows that they mark: from the first to before the second. -/
abbrev Ranges := List ((Nat × Nat) × Nat)

/-- The rows that a subtable occupies: its own ones, or every row of a table that is folded. -/
def Placement.rowsOf (p : Placement) (s : Subtable) : Nat × Nat :=
  if 1 < p.strip.folds then (p.y, p.bottom) else (p.y + s.first, p.y + s.last + 1)

/-- The constant columns of each group of a placement. -/
def Placement.places (p : Placement) (columns : List Nat) : List (List Nat) :=
  (List.range p.strip.folds).map fun fold =>
    (columns.drop (p.x + fold * p.strip.columns)).take p.strip.columns

/-- The selector of a range of rows, with the selectors known from then on. A range that is new gets a
    fresh selector, turned on there. -/
def shareSelector (ranges : Ranges) (rows : Nat × Nat) (c : Circuit) :
    Except Fault (Outcome (Nat × Ranges)) :=
  match ranges.lookup rows with
  | some tag => .ok (c, .ok (tag, ranges))
  | none =>
    match allocate c with
    | (c, .error e) => .ok (c, .error e)
    | (c, .ok tag) => do
      let c ← c.enableRange tag rows.1 rows.2
      .ok (c, .ok (tag, (rows, tag) :: ranges))

/-- Marks and registers the subtables in use of one placement. -/
def shareReferences (p : Placement) (places : List (List Nat)) (ranges : Ranges) (c : Circuit) :
    List Reference → Except Fault (Outcome Ranges)
  | [] => .ok (c, .ok ranges)
  | r :: rest => do
    match ← shareSelector ranges (p.rowsOf r.subtable) c with
    | (c, .error e) => .ok (c, .error e)
    | (c, .ok (tag, ranges)) =>
      let c ← register c r tag places
      shareReferences p places ranges c rest

/-- Writes and registers the tables of a list of placements. -/
def place (reserved : Reserved) (tables : List Table) (columns : List Nat) (ranges : Ranges)
    (c : Circuit) : List Placement → Except Fault (Outcome Ranges)
  | [] => .ok (c, .ok ranges)
  | p :: rest =>
    match tables.find? (·.name = p.strip.name) with
    | none => place reserved tables columns ranges c rest
    | some t => do
      let grid ← foldGrid (← t.columns) p.strip.folds
      let c ← writeGrid c p.y (((columns.drop p.x).take p.strip.width).zip grid)
      match ← shareReferences p (p.places columns) ranges c (t.references reserved) with
      | (c, .error e) => .ok (c, .error e)
      | (c, .ok ranges) => place reserved tables columns ranges c rest

/-- Packs the tables in use side by side, within `budget` rows. Answers the number of rows that the
    circuit has to respect: `usable`, or as many as the tables need. -/
def packHorizontal (reserved : Reserved) (tables : List Table) (c : Circuit) (columns : List Nat)
    (usable budget : Nat) : Except Fault (Outcome Nat) := do
  match ← layout reserved tables columns.length budget with
  | .error e => .ok (c, .error e)
  | .ok l =>
    let (c, result) ← place reserved (referenced reserved tables) columns [] c l.placements
    .ok (c, result.map fun _ => max usable l.rows)

end Lookup
end Plonkish
