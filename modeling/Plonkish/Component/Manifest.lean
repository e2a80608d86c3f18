/-! How many columns of each kind a component needs of the table it is placed in. -/

namespace Plonkish

/-- The least number of witness, constant and public input columns. -/
structure Manifest where
  witnesses : Nat
  constants : Nat
  publicInputs : Nat
  deriving DecidableEq

namespace Manifest

def ofWitnesses (n : Nat) : Manifest := ⟨n, 0, 0⟩

/-- The witness columns needed to hold every index of `columns`: one more than the highest. -/
def covering (columns : List Nat) : Manifest :=
  ofWitnesses (columns.foldl (fun n c => max n (c + 1)) 0)

/-- What a circuit made of both components needs. -/
def merge (a b : Manifest) : Manifest :=
  ⟨max a.witnesses b.witnesses, max a.constants b.constants, max a.publicInputs b.publicInputs⟩

def text (m : Manifest) : String :=
  "Manifest \x7b witness_amount: " ++ toString m.witnesses ++ ", constant_required: " ++
    toString m.constants ++ ", public_input_required: " ++ toString m.publicInputs ++ " \x7d"

end Manifest
end Plonkish
