import Plonkish.Fault

/-! Partitions of the numbers below `n` into classes, as a forest with ranks. Every element points at its
    parent, and a root at itself; ranks rise strictly from an element to its parent, so the walk to the root
    ends. `find` reads the root, `compress` points the whole walk at the root, and `union` hangs the root of
    lower rank below the other one. Of two roots with equal rank the second is hung below the first, whose
    rank then grows by one. -/

namespace Plonkish

/-- A forest over the numbers below `n` whose ranks rise towards the roots. -/
structure Partition (n : Nat) where
  parent : Vector (Fin n) n
  rank : Vector Nat n
  rank_lt : ∀ i : Fin n, parent[i.val] ≠ i → rank[i.val] < rank[parent[i.val].val]

namespace Partition
variable {n : Nat}

/-- Every element in a class of its own. -/
def discrete (n : Nat) : Partition n where
  parent := Vector.ofFn id
  rank := Vector.replicate n 0
  rank_lt i h := by simp at h

@[inline] def parentOf (p : Partition n) (i : Fin n) : Fin n := p.parent[i.val]

@[inline] def rankOf (p : Partition n) (i : Fin n) : Nat := p.rank[i.val]

/-- A root is its own parent. -/
def IsRoot (p : Partition n) (i : Fin n) : Prop := p.parentOf i = i

instance (p : Partition n) (i : Fin n) : Decidable (p.IsRoot i) :=
  inferInstanceAs (Decidable (p.parentOf i = i))

theorem rankOf_lt_parentOf {p : Partition n} {i : Fin n} (h : ¬ p.IsRoot i) :
    p.rankOf i < p.rankOf (p.parentOf i) := p.rank_lt i h

/-! ### The walk to the root -/

def height (p : Partition n) : Nat := p.rank.toList.max?.getD 0

theorem rankOf_le_height (p : Partition n) (i : Fin n) : p.rankOf i ≤ p.height :=
  List.le_max?_getD_of_mem (Vector.mem_toList_iff.2 (Vector.getElem_mem i.isLt))

/-- The root above an element. -/
def find (p : Partition n) (i : Fin n) : Fin n :=
  if p.IsRoot i then i else p.find (p.parentOf i)
termination_by p.height - p.rankOf i
decreasing_by
  have hlt := rankOf_lt_parentOf ‹¬ p.IsRoot i›
  have hle := p.rankOf_le_height (p.parentOf i)
  omega

/-- The elements passed on the way to the root, from below, without the root. -/
def path (p : Partition n) (i : Fin n) : List (Fin n) :=
  if p.IsRoot i then [] else i :: p.path (p.parentOf i)
termination_by p.height - p.rankOf i
decreasing_by
  have hlt := rankOf_lt_parentOf ‹¬ p.IsRoot i›
  have hle := p.rankOf_le_height (p.parentOf i)
  omega

theorem isRoot_find (p : Partition n) (i : Fin n) : p.IsRoot (p.find i) := by
  fun_induction p.find i with
  | case1 _ h => exact h
  | case2 _ _ ih => exact ih

theorem rankOf_le_find (p : Partition n) (i : Fin n) : p.rankOf i ≤ p.rankOf (p.find i) := by
  fun_induction p.find i with
  | case1 => exact Nat.le_refl _
  | case2 _ h ih => exact Nat.le_trans (Nat.le_of_lt (rankOf_lt_parentOf h)) ih

theorem rankOf_lt_find_of_mem_path {p : Partition n} {i j : Fin n} (h : j ∈ p.path i) :
    p.rankOf j < p.rankOf (p.find i) := by
  fun_induction p.path i with
  | case1 => simp at h
  | case2 i hi ih =>
    rw [find, if_neg hi]
    rcases List.mem_cons.1 h with rfl | h
    · exact Nat.lt_of_lt_of_le (rankOf_lt_parentOf hi) (p.rankOf_le_find _)
    · exact ih h

theorem not_isRoot_of_mem_path {p : Partition n} {i j : Fin n} (h : j ∈ p.path i) :
    ¬ p.IsRoot j := by
  fun_induction p.path i with
  | case1 => simp at h
  | case2 i hi ih =>
    rcases List.mem_cons.1 h with rfl | h
    · exact hi
    · exact ih h

/-! ### Compression -/

theorem getElem_foldl_set {l : List (Fin n)} {r : Fin n} {v : Vector (Fin n) n} (k : Fin n) :
    k ∈ l ∧ (l.foldl (fun v j => v.set j.val r j.isLt) v)[k.val] = r ∨
      k ∉ l ∧ (l.foldl (fun v j => v.set j.val r j.isLt) v)[k.val] = v[k.val] := by
  induction l generalizing v with
  | nil => exact Or.inr ⟨List.not_mem_nil, rfl⟩
  | cons j l ih =>
    rw [List.foldl_cons]
    rcases ih (v := v.set j.val r j.isLt) with ⟨hk, h⟩ | ⟨hk, h⟩
    · exact Or.inl ⟨List.mem_cons_of_mem _ hk, h⟩
    · by_cases hj : k = j
      · subst hj
        exact Or.inl ⟨List.mem_cons_self, by rw [h, Vector.getElem_set, if_pos rfl]⟩
      · have hval : ¬ j.val = k.val := fun he => hj (Fin.ext he.symm)
        exact Or.inr ⟨by simp [hj, hk], by rw [h, Vector.getElem_set, if_neg hval]⟩

/-- Points every element on the way from `i` to its root at that root. -/
def compress (p : Partition n) (i : Fin n) : Partition n where
  parent := let r := p.find i; (p.path i).foldl (fun v j => v.set j.val r j.isLt) p.parent
  rank := p.rank
  rank_lt j h := by
    rcases getElem_foldl_set (l := p.path i) (r := p.find i) (v := p.parent) j with ⟨hj, hp⟩ | ⟨hj, hp⟩
    · simp only [hp]
      exact rankOf_lt_find_of_mem_path hj
    · simp only [hp] at h ⊢
      exact p.rank_lt j h

/-- Compression points the elements of a path at their root, and leaves the other ones. -/
theorem parentOf_compress (p : Partition n) (i j : Fin n) :
    j ∈ p.path i ∧ (p.compress i).parentOf j = p.find i ∨
      j ∉ p.path i ∧ (p.compress i).parentOf j = p.parentOf j :=
  getElem_foldl_set j

theorem rankOf_compress (p : Partition n) (i j : Fin n) :
    (p.compress i).rankOf j = p.rankOf j := rfl

theorem isRoot_compress {p : Partition n} {i j : Fin n} :
    (p.compress i).IsRoot j ↔ p.IsRoot j := by
  unfold IsRoot
  rcases p.parentOf_compress i j with ⟨h, hp⟩ | ⟨h, hp⟩
  · rw [hp]
    refine ⟨fun hj => ?_, fun hj => absurd hj (not_isRoot_of_mem_path h)⟩
    exact absurd (hj ▸ p.isRoot_find i) (not_isRoot_of_mem_path h)
  · rw [hp]

/-! ### Union -/

/-- Hangs an element below one of higher rank. -/
def hang (p : Partition n) (i r : Fin n) (h : p.rankOf i < p.rankOf r) : Partition n where
  parent := p.parent.set i.val r i.isLt
  rank := p.rank
  rank_lt j hj := by
    simp only [Vector.getElem_set] at hj ⊢
    split
    · rename_i hij
      simp only [← hij]
      exact h
    · rename_i hij
      rw [if_neg hij] at hj
      exact p.rank_lt j hj

/-- Hangs an element below a root of equal rank, and raises the rank of that root. -/
def hangRaise (p : Partition n) (i r : Fin n) (hr : p.IsRoot r) (h : p.rankOf i = p.rankOf r)
    (hne : i ≠ r) : Partition n where
  parent := p.parent.set i.val r i.isLt
  rank := p.rank.set r.val (p.rankOf r + 1) r.isLt
  rank_lt j hj := by
    have hval : r.val ≠ i.val := fun h => hne (Fin.ext h.symm)
    have hroot : p.parent[r.val] = r := hr
    simp only [Vector.getElem_set] at hj ⊢
    by_cases hij : i.val = j.val
    · simp only [← hij, hval, if_true, if_false]
      have : p.rank[i.val] = p.rankOf r := h
      omega
    · simp only [hij, if_false] at hj ⊢
      have hlt := p.rank_lt j hj
      have hrj : r.val ≠ j.val := fun h => hj (by
        have : r = j := Fin.ext h
        rw [← this]
        exact hroot)
      simp only [hrj, if_false]
      split
      · rename_i he
        simp only [← he] at hlt
        exact Nat.lt_succ_of_lt hlt
      · exact hlt

/-- Merges the classes of two elements. Answers the root of the merged class. -/
def union (p : Partition n) (i j : Fin n) : Fin n × Partition n :=
  let r := p.find i
  let p₁ := p.compress i
  let s := p₁.find j
  let p₂ := p₁.compress j
  if hrs : s = r then (r, p₂)
  else if h : p₂.rankOf r < p₂.rankOf s then (s, p₂.hang r s h)
  else if h' : p₂.rankOf s < p₂.rankOf r then (r, p₂.hang s r h')
  else
    (r, p₂.hangRaise s r
      (isRoot_compress.2 (isRoot_compress.2 (p.isRoot_find i))) (by omega) hrs)

def same (p : Partition n) (i j : Fin n) : Bool := p.find i = p.find j

/-- A number as an element; there are `n` of them. -/
def element? (n i : Nat) : Except Fault (Fin n) :=
  if h : i < n then .ok ⟨i, h⟩ else .error .outOfBounds

end Partition
end Plonkish
