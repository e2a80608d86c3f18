import Mathlib.Data.List.Induction
import Mathlib.Data.Setoid.Basic
import Plonkish.Partition

/-! The classes of a partition. Compression moves no root, and a union gives the elements of both classes
    the root of one of them and leaves the root of every other element (`find_union`). So after any run of
    unions from single elements, two elements lie in one class exactly when a chain of united pairs joins
    them (`find_unions_discrete_eq_iff`). -/

namespace Plonkish
namespace Partition
variable {n : Nat} {p q : Partition n}

/-! ### Roots -/

theorem find_of_isRoot {i : Fin n} (h : p.IsRoot i) : p.find i = i := by
  rw [find, if_pos h]

theorem find_parentOf (p : Partition n) (i : Fin n) : p.find (p.parentOf i) = p.find i := by
  by_cases h : p.IsRoot i
  · rw [h]
  · exact (by rw [find, if_neg h] : p.find i = p.find (p.parentOf i)).symm

theorem find_find (p : Partition n) (i : Fin n) : p.find (p.find i) = p.find i :=
  find_of_isRoot (p.isRoot_find i)

theorem find_of_mem_path {i j : Fin n} (h : j ∈ p.path i) : p.find j = p.find i := by
  fun_induction p.path i with
  | case1 => simp at h
  | case2 i hi ih =>
    rcases List.mem_cons.mp h with rfl | h
    · rfl
    · rw [ih h, find_parentOf]

theorem find_eq_of_parentOf (h : ∀ i, q.parentOf i = p.parentOf i ∨ q.parentOf i = p.find i) (i : Fin n) :
    q.find i = p.find i := by
  fun_induction q.find i with
  | case1 i hi =>
    have hi : q.parentOf i = i := hi
    rcases h i with h | h
    · exact (find_of_isRoot (h.symm.trans hi)).symm
    · exact hi.symm.trans h
  | case2 i hi ih =>
    rw [ih]
    rcases h i with h | h
    · rw [h, find_parentOf]
    · rw [h, find_find]

theorem find_compress (p : Partition n) (i j : Fin n) : (p.compress i).find j = p.find j := by
  refine find_eq_of_parentOf (fun k => ?_) j
  rcases p.parentOf_compress i k with ⟨hk, hp⟩ | ⟨-, hp⟩
  · exact Or.inr (hp.trans (find_of_mem_path hk).symm)
  · exact Or.inl hp

/-- Hanging one root below another one moves its whole class to the other root. -/
theorem find_eq_of_hung {i r : Fin n} (hi : p.IsRoot i) (hr : p.IsRoot r) (hne : i ≠ r)
    (h : ∀ k, q.parentOf k = if k = i then r else p.parentOf k) (k : Fin n) :
    q.find k = if p.find k = i then r else p.find k := by
  have hqr : q.IsRoot r := by
    show q.parentOf r = r
    rw [h, if_neg fun he => hne he.symm]
    exact hr
  fun_induction q.find k with
  | case1 k hk =>
    -- A root of the new forest is not the hung one, so it was a root before.
    have hk' : k ≠ i := by
      rintro rfl
      have hkr : q.parentOf k = k := hk
      rw [h, if_pos rfl] at hkr
      exact hne hkr.symm
    have hroot : p.IsRoot k := by
      have hkr : q.parentOf k = k := hk
      rw [h, if_neg hk'] at hkr
      exact hkr
    rw [find_of_isRoot hroot, if_neg hk']
  | case2 k hk ih =>
    rw [ih, h]
    by_cases hki : k = i
    · subst hki
      rw [if_pos rfl, find_of_isRoot hr, find_of_isRoot hi, if_pos rfl, if_neg fun he => hne he.symm]
    · rw [if_neg hki, find_parentOf]

theorem parentOf_set {i r : Fin n} (h : q.parent = p.parent.set i.val r i.isLt) (k : Fin n) :
    q.parentOf k = if k = i then r else p.parentOf k := by
  simp only [parentOf, h, Vector.getElem_set, Fin.ext_iff, eq_comm]

/-! ### Unions -/

theorem union_fst (p : Partition n) (i j : Fin n) :
    (p.union i j).1 = p.find i ∨ (p.union i j).1 = p.find j := by
  unfold union
  simp only [find_compress]
  split
  · exact Or.inl rfl
  · split
    · exact Or.inr rfl
    · split <;> exact Or.inl rfl

/-- A union gives two classes one root, and leaves the others as they are. -/
theorem find_union (p : Partition n) (i j k : Fin n) :
    (p.union i j).2.find k =
      if p.find k = p.find i ∨ p.find k = p.find j then (p.union i j).1 else p.find k := by
  -- Compression changes no representative and no root, so only the hanging counts.
  have hfind : ∀ k, ((p.compress i).compress j).find k = p.find k := fun k => by
    rw [find_compress, find_compress]
  have hroot : ∀ k, ((p.compress i).compress j).IsRoot (p.find k) := fun k =>
    isRoot_compress.mpr (isRoot_compress.mpr (p.isRoot_find k))
  unfold union
  simp only [find_compress p]
  split
  · rename_i h
    rw [hfind]
    split
    · rename_i hk
      rcases hk with hk | hk
      · exact hk
      · exact hk.trans h
    · rfl
  · rename_i hne
    split
    · rw [find_eq_of_hung (hroot i) (hroot j) (Ne.symm hne) (parentOf_set rfl), hfind]
      grind
    · split
      · rw [find_eq_of_hung (hroot j) (hroot i) hne (parentOf_set rfl), hfind]
        grind
      · rw [find_eq_of_hung (hroot j) (hroot i) hne (parentOf_set rfl), hfind]
        grind

theorem find_union_eq_iff {i j a b : Fin n} :
    (p.union i j).2.find a = (p.union i j).2.find b ↔ p.find a = p.find b ∨
      (p.find a = p.find i ∨ p.find a = p.find j) ∧ (p.find b = p.find i ∨ p.find b = p.find j) := by
  rw [find_union, find_union]
  have h := p.union_fst i j
  grind

/-! ### Runs of unions -/

def unions (p : Partition n) (pairs : List (Fin n × Fin n)) : Partition n :=
  pairs.foldl (fun p e => (p.union e.1 e.2).2) p

theorem find_discrete (i : Fin n) : (discrete n).find i = i :=
  find_of_isRoot (by simp [IsRoot, parentOf, discrete])

theorem find_union_eq_iff_eqvGen {R : Fin n → Fin n → Prop}
    (h : ∀ a b, p.find a = p.find b ↔ Relation.EqvGen R a b) (i j a b : Fin n) :
    (p.union i j).2.find a = (p.union i j).2.find b ↔
      Relation.EqvGen (fun x y => R x y ∨ x = i ∧ y = j) a b := by
  have old : ∀ {a b}, p.find a = p.find b → Relation.EqvGen (fun x y => R x y ∨ x = i ∧ y = j) a b :=
    fun hab => ((h _ _).mp hab).mono fun _ _ => Or.inl
  have hij : Relation.EqvGen (fun x y => R x y ∨ x = i ∧ y = j) i j := .rel _ _ (Or.inr ⟨rfl, rfl⟩)
  rw [find_union_eq_iff]
  constructor
  · rintro (hab | ⟨ha | ha, hb | hb⟩)
    · exact old hab
    · exact (old ha).trans _ _ _ (old hb).symm
    · exact ((old ha).trans _ _ _ hij).trans _ _ _ (old hb).symm
    · exact ((old ha).trans _ _ _ hij.symm).trans _ _ _ (old hb).symm
    · exact (old ha).trans _ _ _ (old hb).symm
  · intro hab
    rw [← find_union_eq_iff]
    refine Setoid.eqvGen_le (s := .ker (p.union i j).2.find) (fun a b hab => ?_) hab
    rcases hab with hab | ⟨rfl, rfl⟩
    · exact find_union_eq_iff.mpr (Or.inl ((h a b).mpr (.rel _ _ hab)))
    · exact find_union_eq_iff.mpr (Or.inr ⟨Or.inl rfl, Or.inr rfl⟩)

/-- After a run of unions from single elements, the classes are the chains of united pairs. -/
theorem find_unions_discrete_eq_iff (pairs : List (Fin n × Fin n)) (a b : Fin n) :
    (unions (discrete n) pairs).find a = (unions (discrete n) pairs).find b ↔
      Relation.EqvGen (fun x y => (x, y) ∈ pairs) a b := by
  -- From the end of the run, since the last union acts on the classes that the others left.
  induction pairs using List.reverseRecOn generalizing a b with
  | nil =>
    show (discrete n).find a = (discrete n).find b ↔ _
    rw [find_discrete, find_discrete]
    constructor
    · rintro rfl
      exact .refl a
    · exact fun h => Setoid.eqvGen_le (s := .ker id) (fun _ _ h => absurd h List.not_mem_nil) h
  | append_singleton pairs e ih =>
    have hlast : unions (discrete n) (pairs ++ [e]) = ((unions (discrete n) pairs).union e.1 e.2).2 := by
      rw [unions, List.foldl_append]
      rfl
    rw [hlast, find_union_eq_iff_eqvGen ih]
    simp only [List.mem_append, List.mem_singleton, Prod.ext_iff]

end Partition
end Plonkish
