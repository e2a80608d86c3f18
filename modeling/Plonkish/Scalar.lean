/-! The values that cells hold: integers modulo a fixed prime, with their decimal text.

    Circuits of this kind are built over any field. This one is fixed: the scalar field of BN254, whose order is
    `modulus`. No result about gates, copies, lookups, layouts or zones rests on the choice. They take values as
    equal or different, and compute with them by the laws of a field. Only the tables of small numbers and the
    texts are about residues.

    Arithmetic is that of `Fin modulus`, so every operation wraps at the modulus and subtraction never
    leaves the range. Differences and opposites are found without a division: `minus_eq_sub` and
    `opposite_eq_neg` say that they are those of `Fin modulus`. A scalar is written in decimal as its least
    non-negative representative. -/

namespace Plonkish

/-- The order of the scalar field of BN254. -/
def modulus : Nat :=
  21888242871839275222246405745257275088548364400416034343698204186575808495617

/-- The value of a cell, between zero and `modulus - 1`. -/
abbrev Scalar := Fin modulus

instance : @NeZero Nat Zero.ofOfNat0 modulus := ⟨by decide⟩

namespace Scalar

/-- The residue of an integer; a negative one counts down from the modulus. -/
def ofInt (i : Int) : Scalar :=
  ⟨(i % modulus).toNat, by
    have h : (modulus : Int) ≠ 0 := by decide
    have hlt := Int.emod_lt_of_pos i (show (0 : Int) < modulus by decide)
    have hnn := Int.emod_nonneg i h
    omega⟩

/-- The residue of a natural number. -/
def ofNat (n : Nat) : Scalar := Fin.ofNat modulus n

/-- The difference of two scalars. The modulus is borrowed only where the second one is larger. -/
def minus (x y : Scalar) : Scalar :=
  if _h : y.val ≤ x.val then ⟨x.val - y.val, Nat.lt_of_le_of_lt (Nat.sub_le ..) x.isLt⟩
  else ⟨modulus - (y.val - x.val), Nat.sub_lt (by decide) (by omega)⟩

/-- What is left of the modulus, and zero for zero. -/
def opposite (x : Scalar) : Scalar := minus 0 x

theorem minus_eq_sub (x y : Scalar) : x.minus y = x - y := by
  have hx := x.isLt
  have hy := y.isLt
  apply Fin.ext
  show (x.minus y).val = (modulus - y.val + x.val) % modulus
  unfold minus
  split
  · rw [show modulus - y.val + x.val = modulus + (x.val - y.val) by omega, Nat.add_mod_left,
      Nat.mod_eq_of_lt (by omega)]
  · rw [Nat.mod_eq_of_lt (by omega)]
    show modulus - (y.val - x.val) = modulus - y.val + x.val
    omega

theorem opposite_eq_neg (x : Scalar) : x.opposite = -x := by
  rw [opposite, minus_eq_sub]
  exact Fin.ext rfl

def decimal (x : Scalar) : String := toString x.val

/-- The text of a scalar as an operand of an expression: zero is left blank. -/
def operand (x : Scalar) : String := if x = 0 then "" else x.decimal

/-- The number that a row of decimal digits spells; there is at least one digit. -/
def digits? (cs : List Char) : Option Nat :=
  if cs ≠ [] ∧ cs.all Char.isDigit then
    some (cs.foldl (fun n c => 10 * n + (c.toNat - '0'.toNat)) 0)
  else
    none

/-- Reads an integer of any length, with an optional minus sign, modulo the field order. -/
def parse? (s : String) : Option Scalar :=
  match s.toList with
  | '-' :: cs => (digits? cs).map fun n => ofInt (-n)
  | cs => (digits? cs).map ofNat

def low64 (x : Scalar) : Nat := x.val % (1 <<< 64)

end Scalar
end Plonkish
