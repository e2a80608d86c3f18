import Plonkish.Lookup.Budget
import Plonkish.Lookup.Pack.Basic

/-! Packing tables one below the other. Every table lies in the first of the given columns, from the first
    row on, and every subtable in use gets a selector of its own. -/

namespace Plonkish
namespace Lookup

/-- Marks and registers the subtables in use of a table that starts at row `start`. -/
def placeReferences (columns : List Nat) (start : Nat) (c : Circuit) :
    List Reference → Except Fault (Outcome Unit)
  | [] => .ok (c, .ok ())
  | r :: rest =>
    match allocate c with
    | (c, .error e) => .ok (c, .error e)
    | (c, .ok tag) => do
      let c ← c.enableRange tag (start + r.subtable.first) (start + r.subtable.last + 1)
      let c ← register c r tag [columns]
      placeReferences columns start c rest

/-- Places tables from row `start` downwards. Answers the first row below them. -/
def stack (reserved : Reserved) (columns : List Nat) (start : Nat) (c : Circuit) :
    List Table → Except Fault (Outcome Nat)
  | [] => .ok (c, .ok start)
  | t :: rest =>
    if columns.length < t.width then
      .ok (c, .error (.constantColumns t.name t.width columns.length))
    else do
      let grid ← t.columns
      let c ← writeGrid c start (columns.zip grid)
      match ← placeReferences columns start c (t.references reserved) with
      | (c, .error e) => .ok (c, .error e)
      | (c, .ok ()) => stack reserved columns (start + grid.rows) c rest

/-- Packs the tables in use one below the other. Answers the number of rows that the circuit has to
    respect: `usable`, or as many as the tables need. -/
def packVertical (reserved : Reserved) (tables : List Table) (c : Circuit) (columns : List Nat)
    (usable : Nat) : Except Fault (Outcome Nat) :=
  match referenced reserved tables with
  | [] => .ok (c, .ok usable)
  | ts => do
    let (c, result) ← stack reserved columns firstRow c ts
    .ok (c, result.map (max usable))

end Lookup
end Plonkish
