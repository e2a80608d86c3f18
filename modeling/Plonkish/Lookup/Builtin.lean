import Plonkish.Lookup.Table

/-! The tables that come with the library: the exclusive or of two 4-bit numbers, and the numbers of a
    given number of bits. -/

namespace Plonkish
namespace Lookup

/-- The name of the subtable that covers a whole table. -/
def fullName : String := "full"

def xorName : String := "xor_4bit"

/-- Two arguments and their exclusive or, one row for each pair of 4-bit numbers. -/
def xorGrid : Grid :=
  [Array.ofFn fun i : Fin 256 => Scalar.ofNat (i.val / 16),
    Array.ofFn fun i : Fin 256 => Scalar.ofNat (i.val % 16),
    Array.ofFn fun i : Fin 256 => Scalar.ofNat ((i.val / 16) ^^^ (i.val % 16))]

def xorTable : Table where
  name := xorName
  width := 3
  subtables := SortedMap.empty.insert fullName ⟨[0, 1, 2], 0, 255, by decide⟩
  grid := Thunk.mk fun _ => xorGrid

def rangeName (bits : Nat) : String := "range_" ++ toString bits ++ "bit"

/-- The numbers below `2 ^ bits`, in order. -/
def rangeGrid (bits : Nat) : Grid := [Array.ofFn fun i : Fin (1 <<< bits) => Scalar.ofNat i.val]

def halfName (bits : Nat) : String := toString (bits / 2) ++ "bit"

/-- The table of the numbers of some bits. Next to the whole table it has the subtable of the numbers
    with half the bits. -/
def rangeOf (bits : Nat) : Table where
  name := rangeName bits
  width := 1
  subtables := (SortedMap.empty.insert fullName ⟨[0], 0, (1 <<< bits) - 1, Nat.zero_le _⟩).insert
    (halfName bits) ⟨[0], 0, (1 <<< (bits / 2)) - 1, Nat.zero_le _⟩
  grid := Thunk.mk fun _ => rangeGrid bits

/-- The range table of a number of bits; only 2 to 20 bits are supported. -/
def rangeTable (bits : Nat) : Except Fault Table :=
  if 2 ≤ bits ∧ bits ≤ 20 then .ok (rangeOf bits) else .error (.rangeBits bits)

end Lookup
end Plonkish
