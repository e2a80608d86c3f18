import Plonkish.Proofs.Ranks
import Plonkish.Proofs.Steps

/-! Calling a partition, with numbers for elements. A call of elements that there are does not fault (`exists_run`), and
    it does what its kind says and no more (`Effect`). After any run of such calls, begun with single elements, the
    classes are those that the united pairs generate, and each has one root that all its elements are led to
    (`Represents`); ranks and walks are no longer than the logarithm of the number of elements, whatever was called
    before (`callAll_answers`). -/

namespace Plonkish
namespace Partition
variable {n : Nat} {p q : Partition n}

/-! ### Calls -/

/-- What can be asked of a partition. -/
inductive Call where
  | union (i j : Nat)
  /-- Finds a root, and points all elements on the way at it. -/
  | flatten (i : Nat)
  | find (i : Nat)
  | same (i j : Nat)
  deriving DecidableEq

/-- The root of a class, or whether two elements have the same one. -/
inductive Answer (n : Nat) where
  | root (r : Fin n)
  | shared (same : Bool)
  deriving DecidableEq

namespace Call

def elements : Call → List Nat
  | union i j => [i, j]
  | flatten i => [i]
  | find i => [i]
  | same i j => [i, j]

/-- A call is about elements that there are. -/
def Below (n : Nat) (c : Call) : Prop := ∀ i ∈ c.elements, i < n

instance (n : Nat) (c : Call) : Decidable (c.Below n) := inferInstanceAs (Decidable (∀ i ∈ c.elements, i < n))

def run (p : Partition n) : Call → Except Fault (Answer n × Partition n)
  | union i j => do
    let i ← element? n i
    let j ← element? n j
    let merged := p.union i j
    .ok (.root merged.1, merged.2)
  | flatten i => do
    let i ← element? n i
    .ok (.root (p.find i), p.compress i)
  | find i => do
    let i ← element? n i
    .ok (.root (p.find i), p)
  | same i j => do
    let i ← element? n i
    let j ← element? n j
    .ok (.shared (p.same i j), p)

end Call

/-- Calls one after the other. -/
def callAll (p : Partition n) (calls : List Call) : Except Fault (Partition n) :=
  calls.foldlM (fun p c => (c.run p).map Prod.snd) p

/-- Two elements that some call has united. -/
def United (calls : List Call) (i j : Fin n) : Prop := Call.union i j ∈ calls

/-! ### What calls do -/

/-- All elements on the way from `i` to its root point at that root, the others point where they did, and no root is
    another one. -/
structure Flattened (p : Partition n) (i : Fin n) (q : Partition n) : Prop where
  way : ∀ k, q.parentOf (p.parentOf^[k] i) = p.find i
  others : ∀ j, (∀ k, p.parentOf^[k] i ≠ j) → q.parentOf j = p.parentOf j
  find : ∀ j, q.find j = p.find j

/-- The classes of `i` and `j` have become one, whose root `r` is that of one of them; every other element has the root
    that it had. -/
structure Merged (p : Partition n) (i j r : Fin n) (q : Partition n) : Prop where
  root : r = p.find i ∨ r = p.find j
  merged : ∀ k, p.find k = p.find i ∨ p.find k = p.find j → q.find k = r
  others : ∀ k, p.find k ≠ p.find i → p.find k ≠ p.find j → q.find k = p.find k

/-- What a call answers, and the partition that it leaves behind. -/
inductive Effect (p : Partition n) : Call → Answer n → Partition n → Prop where
  | union {i j r : Fin n} {q : Partition n} (h : Merged p i j r q) : Effect p (.union i j) (.root r) q
  | flatten {i : Fin n} {q : Partition n} (h : Flattened p i q) : Effect p (.flatten i) (.root (p.find i)) q
  | find (i : Fin n) : Effect p (.find i) (.root (p.find i)) p
  | same (i j : Fin n) : Effect p (.same i j) (.shared (p.same i j)) p

/-- The classes are those that a relation generates, with a root in each that all its elements are led to. -/
structure Represents (p : Partition n) (R : Fin n → Fin n → Prop) : Prop where
  same : ∀ i j, p.same i j = true ↔ Relation.EqvGen R i j
  fixed : ∀ i, p.find (p.find i) = p.find i
  root : ∀ i, Relation.EqvGen R i (p.find i)
  shared : ∀ i j, Relation.EqvGen R i j → p.find i = p.find j

theorem iterate_mem_path (p : Partition n) (i : Fin n) (k : Nat) :
    p.parentOf^[k] i ∈ p.path i ∨ p.parentOf^[k] i = p.find i := by
  fun_induction p.path i generalizing k with
  | case1 i hi => exact Or.inr ((Function.iterate_fixed hi k).trans (find_of_isRoot hi).symm)
  | case2 i hi ih =>
    cases k with
    | zero => exact Or.inl List.mem_cons_self
    | succ k =>
      rw [Function.iterate_succ_apply, ← find_parentOf]
      exact (ih k).imp_left (List.mem_cons_of_mem i)

theorem exists_iterate_of_mem_path {i j : Fin n} (h : j ∈ p.path i) : ∃ k, p.parentOf^[k] i = j := by
  fun_induction p.path i with
  | case1 => cases h
  | case2 i hi ih =>
    rcases List.mem_cons.mp h with rfl | h
    · exact ⟨0, rfl⟩
    · obtain ⟨k, hk⟩ := ih h
      exact ⟨k + 1, hk⟩

theorem flattened_compress (p : Partition n) (i : Fin n) : Flattened p i (p.compress i) where
  way k := by
    rcases p.parentOf_compress i (p.parentOf^[k] i) with ⟨-, h⟩ | ⟨hnot, h⟩
    · exact h
    · -- The only element on the way that is not pointed anew is the root.
      rw [h, (p.iterate_mem_path i k).resolve_left hnot]
      exact p.isRoot_find i
  others j hj := by
    rcases p.parentOf_compress i j with ⟨hmem, -⟩ | ⟨-, h⟩
    · obtain ⟨k, hk⟩ := exists_iterate_of_mem_path hmem
      exact absurd hk (hj k)
    · exact h
  find := p.find_compress i

theorem merged_union (p : Partition n) (i j : Fin n) : Merged p i j (p.union i j).1 (p.union i j).2 where
  root := p.union_fst i j
  merged k hk := by rw [find_union, if_pos hk]
  others k hi hj := by rw [find_union, if_neg (not_or.mpr ⟨hi, hj⟩)]

theorem represents_of_find_eq_iff {R : Fin n → Fin n → Prop}
    (h : ∀ i j, p.find i = p.find j ↔ Relation.EqvGen R i j) : p.Represents R where
  same i j := by rw [← h, Partition.same, decide_eq_true_eq]
  fixed := p.find_find
  root i := (h _ _).mp (p.find_find i).symm
  shared i j := (h i j).mpr

/-! ### One call -/

theorem element?_eq_ok {i : Nat} {x : Fin n} (h : element? n i = .ok x) : i = x := by
  unfold element? at h
  split at h
  · rw [← Except.ok.inj h]
  · cases h

theorem element?_of_lt {i : Nat} (h : i < n) : element? n i = .ok ⟨i, h⟩ := dif_pos h

variable {c : Call} {a : Answer n} {calls : List Call} {R : Fin n → Fin n → Prop}

theorem exists_run (h : c.Below n) (p : Partition n) : ∃ a q, c.run p = .ok (a, q) := by
  cases c with
  | union i j =>
    obtain ⟨hi, hj⟩ : i < n ∧ j < n := by simpa [Call.Below, Call.elements] using h
    rw [Call.run, element?_of_lt hi, element?_of_lt hj]
    exact ⟨_, _, rfl⟩
  | flatten i =>
    have hi : i < n := by simpa [Call.Below, Call.elements] using h
    rw [Call.run, element?_of_lt hi]
    exact ⟨_, _, rfl⟩
  | find i =>
    have hi : i < n := by simpa [Call.Below, Call.elements] using h
    rw [Call.run, element?_of_lt hi]
    exact ⟨_, _, rfl⟩
  | same i j =>
    obtain ⟨hi, hj⟩ : i < n ∧ j < n := by simpa [Call.Below, Call.elements] using h
    rw [Call.run, element?_of_lt hi, element?_of_lt hj]
    exact ⟨_, _, rfl⟩

theorem run_cases (h : c.run p = .ok (a, q)) :
    (∃ i j : Fin n, c = .union i j ∧ a = .root (p.union i j).1 ∧ q = (p.union i j).2) ∨
    (∃ i : Fin n, c = .flatten i ∧ a = .root (p.find i) ∧ q = p.compress i) ∨
    (∃ i : Fin n, c = .find i ∧ a = .root (p.find i) ∧ q = p) ∨
    ∃ i j : Fin n, c = .same i j ∧ a = .shared (p.same i j) ∧ q = p := by
  cases c with
  | union i j =>
    obtain ⟨x, hx, h⟩ := bind_eq_ok.mp h
    obtain ⟨y, hy, h⟩ := bind_eq_ok.mp h
    cases h
    exact Or.inl ⟨x, y, by rw [element?_eq_ok hx, element?_eq_ok hy], rfl, rfl⟩
  | flatten i =>
    obtain ⟨x, hx, h⟩ := bind_eq_ok.mp h
    cases h
    exact Or.inr (Or.inl ⟨x, by rw [element?_eq_ok hx], rfl, rfl⟩)
  | find i =>
    obtain ⟨x, hx, h⟩ := bind_eq_ok.mp h
    cases h
    exact Or.inr (Or.inr (Or.inl ⟨x, by rw [element?_eq_ok hx], rfl, rfl⟩))
  | same i j =>
    obtain ⟨x, hx, h⟩ := bind_eq_ok.mp h
    obtain ⟨y, hy, h⟩ := bind_eq_ok.mp h
    cases h
    exact Or.inr (Or.inr (Or.inr ⟨x, y, by rw [element?_eq_ok hx, element?_eq_ok hy], rfl, rfl⟩))

theorem effect_run (h : c.run p = .ok (a, q)) : Effect p c a q := by
  obtain ⟨i, j, rfl, rfl, rfl⟩ | ⟨i, rfl, rfl, rfl⟩ | ⟨i, rfl, rfl, rfl⟩ | ⟨i, j, rfl, rfl, rfl⟩ := run_cases h
  · exact .union (p.merged_union i j)
  · exact .flatten (p.flattened_compress i)
  · exact .find i
  · exact .same i j

theorem heavy_run (h : c.run p = .ok (a, q)) (hp : p.Heavy) : q.Heavy := by
  obtain ⟨i, j, -, -, rfl⟩ | ⟨i, -, -, rfl⟩ | ⟨i, -, -, rfl⟩ | ⟨i, j, -, -, rfl⟩ := run_cases h
  · exact hp.union i j
  · exact hp.compress i
  · exact hp
  · exact hp

/-- A call unites a pair, or it leaves the classes as they are. -/
theorem find_run_eq_iff (h : c.run p = .ok (a, q)) (hp : ∀ i j, p.find i = p.find j ↔ Relation.EqvGen R i j)
    (i j : Fin n) : q.find i = q.find j ↔ Relation.EqvGen (fun x y => R x y ∨ Call.union x y = c) i j := by
  obtain ⟨x, y, rfl, -, rfl⟩ | ⟨x, rfl, -, rfl⟩ | ⟨x, rfl, -, rfl⟩ | ⟨x, y, rfl, -, rfl⟩ := run_cases h
  · simpa [Fin.ext_iff] using find_union_eq_iff_eqvGen hp x y i j
  · simpa [find_compress] using hp i j
  · simpa using hp i j
  · simpa using hp i j

/-! ### A run of calls -/

theorem exists_callAll (hbelow : ∀ c ∈ calls, c.Below n) (hheavy : p.Heavy)
    (hp : ∀ i j, p.find i = p.find j ↔ Relation.EqvGen R i j) :
    ∃ q, callAll p calls = .ok q ∧ q.Heavy ∧
      ∀ i j, q.find i = q.find j ↔ Relation.EqvGen (fun x y => R x y ∨ United calls x y) i j := by
  induction calls generalizing p R with
  | nil => exact ⟨p, rfl, hheavy, by simpa [United] using hp⟩
  | cons c calls ih =>
    obtain ⟨hc, hbelow⟩ := List.forall_mem_cons.mp hbelow
    obtain ⟨a, p₁, hrun⟩ := exists_run hc p
    obtain ⟨q, hq, hqheavy, hclasses⟩ := ih hbelow (heavy_run hrun hheavy) (find_run_eq_iff hrun hp)
    refine ⟨q, ?_, hqheavy, fun i j => ?_⟩
    · rw [callAll, List.foldlM_cons, hrun]
      exact hq
    · rw [hclasses]
      simp only [United, List.mem_cons, or_assoc]

/-- After any calls of elements that there are, the classes are those that the united pairs generate. Ranks and walks
    are no longer than the logarithm of the number of elements, and the next call does what it is to do. -/
theorem callAll_answers (n : Nat) (calls : List Call) (hbelow : ∀ c ∈ calls, c.Below n) :
    ∃ p, callAll (discrete n) calls = .ok p ∧ p.Represents (United calls) ∧
      (∀ i, 2 ^ p.rankOf i ≤ n ∧ ∃ k, 2 ^ k ≤ n ∧ p.parentOf^[k] i = p.find i) ∧
      ∀ c : Call, c.Below n → ∃ a q, c.run p = .ok (a, q) ∧ Effect p c a q := by
  have hsingle : ∀ i j, (discrete n).find i = (discrete n).find j ↔ Relation.EqvGen (fun _ _ => False) i j := by
    intro i j
    rw [find_discrete, find_discrete]
    refine ⟨fun h => h ▸ .refl i, fun h => ?_⟩
    exact Setoid.eqvGen_le (s := .ker id) (fun _ _ => False.elim) h
  obtain ⟨p, hp, hheavy, hclasses⟩ := exists_callAll hbelow (heavy_discrete n) hsingle
  simp only [false_or] at hclasses
  refine ⟨p, hp, represents_of_find_eq_iff hclasses, fun i => ⟨hheavy.two_pow_rankOf_le i, hheavy.exists_walk i⟩, ?_⟩
  intro c hc
  obtain ⟨a, q, hrun⟩ := exists_run hc p
  exact ⟨a, q, hrun, effect_run hrun⟩

/-- Four unions of six elements, and a way flattened in between, leave one element single. -/
theorem callAll_of_four_unions :
    let calls : List Call := [.union 1 2, .union 2 3, .flatten 3, .union 5 4, .find 0, .union 4 2]
    (∀ c ∈ calls, c.Below 6) ∧ ∃ p : Partition 6, callAll (discrete 6) calls = .ok p ∧ p.same 5 1 = true ∧
      p.same 0 1 = false := by
  intro calls
  have hbelow : ∀ c ∈ calls, c.Below 6 := by decide
  obtain ⟨p, hp, hrepresents, -⟩ := callAll_answers 6 calls hbelow
  refine ⟨hbelow, p, hp, (hrepresents.same 5 1).mpr ?_, ?_⟩
  · have h₁ : Relation.EqvGen (United calls) (5 : Fin 6) 4 := .rel _ _ (by simp [United, calls])
    have h₂ : Relation.EqvGen (United calls) (4 : Fin 6) 2 := .rel _ _ (by simp [United, calls])
    have h₃ : Relation.EqvGen (United calls) (1 : Fin 6) 2 := .rel _ _ (by simp [United, calls])
    exact (h₁.trans _ _ _ h₂).trans _ _ _ h₃.symm
  · rw [Bool.eq_false_iff, ne_eq, hrepresents.same]
    intro h
    have hunited : ∀ i j : Fin 6, Call.union i j ∈ calls → (i = 0 ↔ j = 0) := by decide
    have hker := Setoid.eqvGen_le (s := .ker fun i : Fin 6 => i = 0) (fun i j hij => propext (hunited i j hij)) h
    exact absurd (cast hker rfl) (by decide)

end Partition
end Plonkish
