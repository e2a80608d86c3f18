import Mathlib
import Plonkish.Proofs.Partition

/-! Ranks stay small. Only a union of two roots of equal rank raises a rank, and it joins their classes, so a root of
    rank `k` has at least `2 ^ k` elements in its class (`Heavy`): compression moves no element into another class,
    and a union takes none out of the class that it raises the rank of. Along the walk to a root the rank rises at every
    step. Hence both a rank and the length of a walk are at most the logarithm of the number of elements
    (`Heavy.two_pow_rankOf_le`, `Heavy.exists_walk`). -/

namespace Plonkish
namespace Partition
variable {n : Nat} {p q : Partition n}

/-- The elements below a root, itself among them. -/
def members (p : Partition n) (r : Fin n) : Finset (Fin n) := Finset.univ.filter fun i => p.find i = r

/-- Every root has at least as many elements as two to the power of its rank. -/
def Heavy (p : Partition n) : Prop := ∀ r, p.IsRoot r → 2 ^ p.rankOf r ≤ (p.members r).card

theorem mem_members {i r : Fin n} : i ∈ p.members r ↔ p.find i = r := by simp [members]

theorem members_congr (h : ∀ i, q.find i = p.find i) (r : Fin n) : q.members r = p.members r := by
  ext i
  rw [mem_members, mem_members, h]

theorem disjoint_members {r s : Fin n} (hne : r ≠ s) : Disjoint (p.members r) (p.members s) :=
  Finset.disjoint_left.mpr fun _ hr hs => hne ((mem_members.mp hr).symm.trans (mem_members.mp hs))

/-! ### What keeps the weights -/

theorem heavy_discrete (n : Nat) : (discrete n).Heavy := by
  intro r _
  have hrank : (discrete n).rankOf r = 0 := by simp [rankOf, discrete]
  rw [hrank, Nat.pow_zero]
  exact Finset.card_pos.mpr ⟨r, mem_members.mpr (find_discrete r)⟩

theorem Heavy.compress (h : p.Heavy) (i : Fin n) : (p.compress i).Heavy := by
  intro r hr
  rw [rankOf_compress, members_congr (p.find_compress i)]
  exact h r (isRoot_compress.mp hr)

/-- One root was hung below another one, which then has the elements of both. -/
theorem Heavy.of_hung {i r : Fin n} (h : p.Heavy) (hi : p.IsRoot i) (hr : p.IsRoot r) (hne : i ≠ r)
    (hparent : ∀ k, q.parentOf k = if k = i then r else p.parentOf k) (hrank : ∀ k, k ≠ r → q.rankOf k = p.rankOf k)
    (hraise : 2 ^ q.rankOf r ≤ 2 ^ p.rankOf r + 2 ^ p.rankOf i) : q.Heavy := by
  have hfind := find_eq_of_hung hi hr hne hparent
  intro t ht
  by_cases htr : t = r
  · subst htr
    calc 2 ^ q.rankOf t
      _ ≤ 2 ^ p.rankOf t + 2 ^ p.rankOf i := hraise
      _ ≤ (p.members t).card + (p.members i).card := Nat.add_le_add (h t hr) (h i hi)
      _ = (p.members t ∪ p.members i).card := (Finset.card_union_of_disjoint (disjoint_members hne.symm)).symm
      _ ≤ (q.members t).card := Finset.card_le_card fun k hk => by
        rcases Finset.mem_union.mp hk with hk | hk
        · rw [mem_members, hfind, mem_members.mp hk, ite_self]
        · rw [mem_members, hfind, if_pos (mem_members.mp hk)]
  · have hti : t ≠ i := by
      rintro rfl
      have hroot : q.parentOf t = t := ht
      rw [hparent, if_pos rfl] at hroot
      exact hne hroot.symm
    have hroot : p.IsRoot t := by
      have hroot : q.parentOf t = t := ht
      rwa [hparent, if_neg hti] at hroot
    rw [hrank t htr]
    refine (h t hroot).trans (Finset.card_le_card fun k hk => ?_)
    rw [mem_members] at hk ⊢
    rw [hfind, hk, if_neg hti]

theorem rankOf_hangRaise {i r : Fin n} {hr : p.IsRoot r} {h : p.rankOf i = p.rankOf r} {hne : i ≠ r} (k : Fin n) :
    (p.hangRaise i r hr h hne).rankOf k = if k = r then p.rankOf r + 1 else p.rankOf k := by
  simp only [rankOf, hangRaise, Vector.getElem_set, Fin.ext_iff, eq_comm]

theorem Heavy.union (h : p.Heavy) (i j : Fin n) : (p.union i j).2.Heavy := by
  have hp := (h.compress i).compress j
  have hroot : ∀ k, ((p.compress i).compress j).IsRoot (p.find k) := fun k =>
    isRoot_compress.mpr (isRoot_compress.mpr (p.isRoot_find k))
  unfold Partition.union
  simp only [find_compress p]
  split
  · exact hp
  · rename_i hne
    split
    · exact hp.of_hung (hroot i) (hroot j) (Ne.symm hne) (parentOf_set rfl) (fun _ _ => rfl) (Nat.le_add_right ..)
    · split
      · exact hp.of_hung (hroot j) (hroot i) hne (parentOf_set rfl) (fun _ _ => rfl) (Nat.le_add_right ..)
      · rename_i hlow hhigh
        have hranks : ((p.compress i).compress j).rankOf (p.find i) = ((p.compress i).compress j).rankOf (p.find j) := by
          omega
        refine hp.of_hung (hroot j) (hroot i) hne (parentOf_set rfl) (fun k hk => ?_) (Nat.le_of_eq ?_)
        · rw [rankOf_hangRaise, if_neg hk]
        · rw [rankOf_hangRaise, if_pos rfl, Nat.pow_succ, Nat.mul_two, hranks]

/-! ### Ranks and walks -/

theorem Heavy.two_pow_rankOf_le (h : p.Heavy) (i : Fin n) : 2 ^ p.rankOf i ≤ n :=
  calc 2 ^ p.rankOf i
    _ ≤ 2 ^ p.rankOf (p.find i) := Nat.pow_le_pow_right Nat.zero_lt_two (p.rankOf_le_find i)
    _ ≤ (p.members (p.find i)).card := h _ (p.isRoot_find i)
    _ ≤ Fintype.card (Fin n) := Finset.card_le_univ _
    _ = n := Fintype.card_fin n

theorem length_path_le (p : Partition n) (i : Fin n) : (p.path i).length + p.rankOf i ≤ p.rankOf (p.find i) := by
  fun_induction p.path i with
  | case1 i hi =>
    rw [find_of_isRoot hi, List.length_nil, Nat.zero_add]
  | case2 i hi ih =>
    have hlt := rankOf_lt_parentOf hi
    rw [find_parentOf] at ih
    rw [List.length_cons]
    omega

theorem iterate_length_path (p : Partition n) (i : Fin n) : p.parentOf^[(p.path i).length] i = p.find i := by
  fun_induction p.path i with
  | case1 i hi => exact (find_of_isRoot hi).symm
  | case2 i hi ih => rw [List.length_cons, Function.iterate_succ_apply, ih, find_parentOf]

/-- The walk from an element ends at its root, after no more steps than the logarithm of the number of elements. -/
theorem Heavy.exists_walk (h : p.Heavy) (i : Fin n) : ∃ k, 2 ^ k ≤ n ∧ p.parentOf^[k] i = p.find i := by
  have hle := p.length_path_le i
  have hpow : 2 ^ (p.path i).length ≤ 2 ^ p.rankOf (p.find i) := Nat.pow_le_pow_right Nat.zero_lt_two (by omega)
  exact ⟨_, hpow.trans (h.two_pow_rankOf_le _), p.iterate_length_path i⟩

end Partition
end Plonkish
