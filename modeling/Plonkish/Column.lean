/-! The four kinds of columns that an assignment is made of, in their fixed order. -/

namespace Plonkish

/-- A column holds witnesses, constants, public inputs or the switches of gates. -/
inductive ColumnKind where
  | witness
  | constant
  | publicInput
  | selector
  deriving DecidableEq

namespace ColumnKind

/-- Every kind, in the order in which columns are listed. -/
def all : List ColumnKind := [witness, constant, publicInput, selector]

/-- The place of a kind in that order. -/
def place : ColumnKind → Nat
  | witness => 0
  | constant => 1
  | publicInput => 2
  | selector => 3

theorem place_inj {k l : ColumnKind} (h : k.place = l.place) : k = l := by
  cases k <;> cases l <;> simp_all [place]

theorem mem_all (k : ColumnKind) : k ∈ all := by cases k <;> decide

def name : ColumnKind → String
  | witness => "witness"
  | constant => "constant"
  | publicInput => "public_input"
  | selector => "selector"

/-- The letters that stand for a kind in the text of a variable. -/
def sigil : ColumnKind → String
  | witness => "w"
  | constant => "c"
  | publicInput => "pi"
  | selector => "s"

end ColumnKind
end Plonkish
