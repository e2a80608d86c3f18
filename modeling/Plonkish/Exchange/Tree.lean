/-! The data trees in which values are exchanged: null, truth values, numbers, texts, lists and records. -/

namespace Plonkish
namespace Exchange

/-- A tree of plain data. -/
inductive Tree where
  | null
  | bool (b : Bool)
  | int (n : Int)
  /-- A number that is not written as an integer. -/
  | fraction
  | text (s : String)
  | list (items : List Tree)
  | record (fields : List (String × Tree))
  deriving Inhabited

def Tree.field? (fields : List (String × Tree)) (name : String) : Option Tree :=
  (fields.find? (·.1 = name)).map Prod.snd

end Exchange
end Plonkish
