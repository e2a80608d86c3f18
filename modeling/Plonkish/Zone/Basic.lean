import Plonkish.Partition
import Plonkish.System
import Plonkish.Zone.Address

/-! The zones of a window: the classes of cells that constraints tie together. The cells that a gate or a
    lookup gate reads at an active row of the window form a link, and so do the ends of a copy if both have
    addresses. Zones are what remains apart when the cells of every link are merged. -/

namespace Plonkish
namespace Zone

/-- A group of cells tied together by one constraint. -/
abbrev Link (n : Nat) := List (Fin n)

/-- The cells that variables stand for at a row, as far as they have addresses. -/
def cellsAt (sp : Space) (vs : List Variable) (row : Nat) : Except Fault (Link sp.size) := do
  let resolved ← vs.mapM (·.resolve row)
  .ok (resolved.filterMap fun v => v.bind sp.cell?)

/-- One link for each row of the window at which a selector is on. -/
def activeLinks (sp : Space) (t : Assignment) (selector : Nat) (vs : SortedSet Variable) :
    Except Fault (List (Link sp.size)) :=
  (t.activeRows selector sp.start sp.rows).mapM (cellsAt sp vs.toList)

/-- The link of a copy, if both ends have addresses. -/
def copyLink? (sp : Space) (c : Copy) : Option (Link sp.size) :=
  match sp.cell? c.first, sp.cell? c.second with
  | some a, some b => some [a, b]
  | _, _ => none

def links (s : System) (t : Assignment) (sp : Space) : Except Fault (List (Link sp.size)) := do
  let gates ← s.gates.mapM fun g => activeLinks sp t g.selector g.support
  let lookups ← s.lookupGates.mapM fun g => activeLinks sp t g.tag g.support
  .ok (gates.flatten ++ lookups.flatten ++ s.copies.filterMap (copyLink? sp))

/-- Merges the cells of a link with the first of them. -/
def merge {n : Nat} (p : Partition n) : Link n → Partition n
  | [] => p
  | a :: rest => rest.foldl (fun p b => (p.union a b).2) p

end Zone

/-- The zones of the cells around a window. -/
structure Zones where
  space : Zone.Space
  links : List (Zone.Link space.size)
  classes : Partition space.size

namespace Zones

/-- The zones that the links of a space leave. -/
def ofLinks (sp : Zone.Space) (links : List (Zone.Link sp.size)) : Zones :=
  ⟨sp, links, links.foldl Zone.merge (Partition.discrete sp.size)⟩

/-- The zones of `rows` rows of a table from `start` on. -/
def make (s : System) (t : Assignment) (inputs outputs : List Variable) (start rows : Nat) :
    Except Fault Zones := do
  let sp := Zone.Space.ofTable t (inputs ++ outputs) start rows
  let links ← Zone.links s t sp
  .ok (ofLinks sp links)

def size (z : Zones) : Nat := z.space.size

def zone? (z : Zones) (v : Variable) : Option (Fin z.space.size) :=
  (z.space.cell? v).map z.classes.find

def zoneOf (z : Zones) (address : Nat) : Except Fault Nat :=
  (Partition.element? z.space.size address).map fun a => (z.classes.find a).val

def same (z : Zones) (a b : Nat) : Except Fault Bool := do
  let a ← Partition.element? z.space.size a
  let b ← Partition.element? z.space.size b
  .ok (z.classes.same a b)

/-- The cells that some link touches. -/
def touched (z : Zones) : List (Fin z.space.size) := z.links.flatten

def toList (z : Zones) : List Nat :=
  (List.finRange z.space.size).map fun a => (z.classes.find a).val

end Zones
end Plonkish
