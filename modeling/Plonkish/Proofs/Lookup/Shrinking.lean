import Plonkish.Proofs.Lookup.Search

/-! The budgets that shrinking goes through. Three less than a power of two from eight on has the power below as its
    largest one, so a step drops exactly one power; the last number is `2 ^ 2 - 3`, which is one and has nothing left
    to shrink to (`shrinkings_of_log2`). So the exponents count down from that of the budget to two, and a word of 64
    bits has at most 62 of them. All numbers on the way are positive words, whose exponent is what their leading zeros
    leave of 63 (`inWord_of_lt`). -/

namespace Plonkish
namespace Lookup
variable {b c k x y : Nat}

/-! ### Steps -/

theorem shrinkings_of_none (h : shrink? b = none) : shrinkings b = [] := by
  rw [shrinkings]
  split
  · rename_i hc
    cases h.symm.trans hc
  · rfl

theorem shrinkings_of_some (h : shrink? b = some c) : shrinkings b = c :: shrinkings c := by
  rw [shrinkings]
  split
  · rename_i hc
    rw [Option.some.inj (hc.symm.trans h)]
  · rename_i hc
    cases h.symm.trans hc

/-- The number reached after some steps is that in the list of all steps, and there is none after the last. -/
theorem iterate_shrink? (b i : Nat) : (Option.bind · shrink?)^[i + 1] (some b) = (shrinkings b)[i]? := by
  induction i generalizing b with
  | zero =>
    change shrink? b = _
    cases h : shrink? b with
    | none => simp [shrinkings_of_none h]
    | some c => simp [shrinkings_of_some h]
  | succ i ih =>
    rw [Function.iterate_succ_apply]
    change (Option.bind · shrink?)^[i + 1] (shrink? b) = _
    cases h : shrink? b with
    | none => rw [Function.iterate_fixed rfl, shrinkings_of_none h, List.getElem?_nil]
    | some c => rw [ih, shrinkings_of_some h, List.getElem?_cons_succ]

/-! ### Exponents -/

/-- The numbers from `k` down to two. -/
def exponents : Nat → List Nat
  | 0 | 1 => []
  | k + 2 => (k + 2) :: exponents (k + 1)

theorem length_exponents (k : Nat) : (exponents k).length = k - 1 := by
  fun_induction exponents k with
  | case1 => rfl
  | case2 => rfl
  | case3 k ih =>
    rw [List.length_cons, ih]
    omega

theorem bounds_of_mem_exponents {j : Nat} (h : j ∈ exponents k) : 2 ≤ j ∧ j ≤ k := by
  fun_induction exponents k with
  | case1 => cases h
  | case2 => cases h
  | case3 k ih =>
    rcases List.mem_cons.mp h with rfl | h
    · omega
    · have := ih h
      omega

/-- The step from a number whose largest power of two has the exponent `k`. -/
theorem shrink?_of_log2 (h : b.log2 = k) : shrink? b = if k < 2 then none else some (2 ^ k - 3) := by
  subst h
  have hfour : b < 4 ↔ b.log2 < 2 := by
    rcases Nat.eq_zero_or_pos b with rfl | hb
    · decide
    · exact (Nat.log2_lt (k := 2) (Nat.ne_of_gt hb)).symm
  simp only [shrink?_eq, hfour]

/-- A step drops one power of two, the last one all that are left. -/
theorem shrinkings_of_log2 (h : b.log2 = k) : shrinkings b = (exponents k).map fun j => 2 ^ j - 3 := by
  induction k using exponents.induct generalizing b with
  | case1 => exact shrinkings_of_none (shrink?_of_log2 h)
  | case2 => exact shrinkings_of_none (shrink?_of_log2 h)
  | case3 k ih =>
    have hstep : shrink? b = some (2 ^ (k + 2) - 3) := (shrink?_of_log2 h).trans (if_neg (by omega))
    rw [shrinkings_of_some hstep, exponents, List.map_cons]
    congr 1
    -- Below eight the step leads to one, whose exponent is zero: it drops two powers at once.
    cases k with
    | zero => exact shrinkings_of_none (shrink?_of_log2 rfl)
    | succ k => exact ih (log2_pow_sub_three (by omega))

/-! ### Words -/

/-- A number that is shrunk as a word of 64 bits: its exponent is what the zeros in front of it leave of 63, and one
    that is shifted by the exponent is not shifted out of the word. -/
structure InWord (y : Nat) : Prop where
  zeros : (BitVec.ofNat 64 y).clz.toNat ≤ 63
  log : floorLog2 y = .ok (63 - (BitVec.ofNat 64 y).clz.toNat)
  exponent : y.log2 < 64
  power : (1#64 <<< y.log2).toNat = 1 <<< y.log2

theorem inWord_of_lt (hpos : 0 < y) (hword : y < 2 ^ 64) : InWord y := by
  have hval : (BitVec.ofNat 64 y).toNat = y := by
    rw [BitVec.toNat_ofNat, Nat.mod_eq_of_lt hword]
  have hne : BitVec.ofNat 64 y ≠ 0#64 := by
    intro h
    rw [h, BitVec.toNat_zero] at hval
    omega
  have hlow := BitVec.two_pow_sub_clz_le_toNat_of_ne_zero (by decide) hne
  have hhigh := BitVec.toNat_lt_two_pow_sub_clz (x := BitVec.ofNat 64 y)
  rw [hval] at hlow hhigh
  have hzeros : (BitVec.ofNat 64 y).clz.toNat ≤ 63 := by
    by_contra hlt
    rw [Nat.sub_eq_zero_of_le (by omega)] at hhigh
    omega
  -- The number lies between two powers of two, as many bits down as there are leading zeros.
  have hlog : y.log2 = 63 - (BitVec.ofNat 64 y).clz.toNat := by
    refine (Nat.log2_eq_iff (by omega)).mpr ⟨hlow, ?_⟩
    rwa [show 63 - (BitVec.ofNat 64 y).clz.toNat + 1 = 64 - (BitVec.ofNat 64 y).clz.toNat by omega]
  have hexponent : y.log2 < 64 := by omega
  refine ⟨hzeros, ?_, hexponent, ?_⟩
  · rw [floorLog2, if_neg (by omega), hlog]
  · have hfits : 1 <<< y.log2 < 2 ^ 64 := by
      rw [Nat.one_shiftLeft]
      exact Nat.pow_lt_pow_right (by decide) hexponent
    rw [BitVec.toNat_shiftLeft]
    exact Nat.mod_eq_of_lt hfits

/-- The exponent of a positive word is that of its largest power of two. Below four there is nothing to shrink to; else
    the word shrinks to three less than that power, and on through the exponents down to two, each once, after which
    nothing is left. These are 62 steps at most, and every number on the way is a positive word. -/
theorem shrinkings_of_word (hpos : 1 ≤ x) (hword : x < 2 ^ 64) :
    ∃ k, floorLog2 x = .ok k ∧ 2 ^ k ≤ x ∧ x < 2 ^ (k + 1) ∧
      (shrink? x = none ↔ k < 2) ∧
      (2 ≤ k → shrink? x = some (2 ^ k - 3) ∧ 3 ≤ 2 ^ k ∧ 2 ^ k - 3 < x) ∧
      shrinkings x = (exponents k).map (fun j => 2 ^ j - 3) ∧
      (∀ i, (Option.bind · shrink?)^[i + 1] (some x) = (shrinkings x)[i]?) ∧
      (shrinkings x).length ≤ 62 ∧ ∀ y ∈ x :: shrinkings x, InWord y := by
  have hlow : 2 ^ x.log2 ≤ x := Nat.log2_self_le (by omega)
  have hexponent := (inWord_of_lt hpos hword).exponent
  have hall := shrinkings_of_log2 (b := x) rfl
  have hstep := shrink?_of_log2 (b := x) rfl
  refine ⟨x.log2, if_neg (by omega), hlow, Nat.lt_log2_self, ?_, fun hk => ?_, hall, iterate_shrink? x, ?_, ?_⟩
  · simp only [hstep, ite_eq_left_iff, reduceCtorEq, imp_false, not_not]
  · have hfour : 2 ^ 2 ≤ 2 ^ x.log2 := Nat.pow_le_pow_right (by decide) hk
    exact ⟨hstep.trans (if_neg (by omega)), by omega, by omega⟩
  · rw [hall, List.length_map, length_exponents]
    omega
  · intro y hy
    rcases List.mem_cons.mp hy with rfl | hy
    · exact inWord_of_lt hpos hword
    · rw [hall] at hy
      obtain ⟨j, hj, rfl⟩ := List.mem_map.mp hy
      obtain ⟨hj, hle⟩ := bounds_of_mem_exponents hj
      have hfour : 2 ^ 2 ≤ 2 ^ j := Nat.pow_le_pow_right (by decide) hj
      have hjlow : 2 ^ j ≤ 2 ^ x.log2 := Nat.pow_le_pow_right (by decide) hle
      exact inWord_of_lt (by omega) (by omega)

/-- The largest word is one after 62 steps, and has no further one. -/
theorem shrinkings_of_last_word :
    let x := 2 ^ 64 - 1
    1 ≤ x ∧ x < 2 ^ 64 ∧ floorLog2 x = .ok 63 ∧ (shrinkings x).length = 62 ∧
      (Option.bind · shrink?)^[62] (some x) = some 1 ∧ (Option.bind · shrink?)^[63] (some x) = none := by
  intro x
  have hlog : floorLog2 x = .ok 63 := by decide
  obtain ⟨k, hk, -, -, -, -, hall, hsteps, -, -⟩ := @shrinkings_of_word x (by decide) (by decide)
  obtain rfl : k = 63 := Except.ok.inj (hk.symm.trans hlog)
  rw [hall] at hsteps
  exact ⟨by decide, by decide, hlog, by rw [hall]; decide, hsteps 61, hsteps 62⟩

end Lookup
end Plonkish
