import Plonkish.Expr.Basic
import Plonkish.Proofs.Steps

/-! What an expression reads and what it is worth. The leaves of a tree, taken by recursion over its nodes,
    are what the walk over a stack of trees meets (`occurrences_eq_leaves`), and the value of an expression
    depends on the cells of its leaves only (`evaluate_congr`). So the variables collected from a group decide
    about the values of all its expressions (`collect_complete`). Where all leaves can be read, the value is that
    of the polynomial (`evaluate_eq_denote`). -/

namespace Plonkish
namespace Expr
variable {ε : Type}

def leaves : Expr → List Variable
  | constant _ => []
  | var v => [v]
  | add x y => x.leaves ++ y.leaves
  | sub x y => x.leaves ++ y.leaves
  | mul x y => x.leaves ++ y.leaves
  | neg x => x.leaves

theorem walk_eq_flatMap_leaves (stack : List Expr) : walk stack = stack.flatMap leaves := by
  fun_induction walk stack with
  | case1 => rfl
  | case2 c rest ih => simp [ih, leaves]
  | case3 v rest ih => simp [ih, leaves]
  | case4 x y rest ih => simp [ih, leaves]
  | case5 x y rest ih => simp [ih, leaves]
  | case6 x y rest ih => simp [ih, leaves]
  | case7 x rest ih => simp [ih, leaves]

theorem occurrences_eq_leaves (x : Expr) : x.occurrences = x.leaves := by
  rw [occurrences, walk_eq_flatMap_leaves, List.flatMap_singleton]

theorem mem_collect {xs : List Expr} {v : Variable} : v ∈ (collect xs).toList ↔ ∃ x ∈ xs, v ∈ x.leaves := by
  simp only [collect, SortedSet.mem_ofList, List.mem_flatMap, occurrences_eq_leaves]

theorem evaluate_congr {m : Type → Type} [Monad m] {read read' : Variable → m Scalar} {x : Expr}
    (h : ∀ v ∈ x.leaves, read v = read' v) : x.evaluate read = x.evaluate read' := by
  induction x with
  | constant c => rfl
  | var v => exact h v (List.mem_singleton_self v)
  | neg x ih => rw [evaluate, evaluate, ih h]
  | add x y ihx ihy =>
    rw [evaluate, evaluate, ihx fun v hv => h v (List.mem_append_left _ hv),
      ihy fun v hv => h v (List.mem_append_right _ hv)]
  | sub x y ihx ihy =>
    rw [evaluate, evaluate, ihx fun v hv => h v (List.mem_append_left _ hv),
      ihy fun v hv => h v (List.mem_append_right _ hv)]
  | mul x y ihx ihy =>
    rw [evaluate, evaluate, ihx fun v hv => h v (List.mem_append_left _ hv),
      ihy fun v hv => h v (List.mem_append_right _ hv)]

/-! ### Groups -/

/-- The walk meets the leaves of a tree from left to right, each as often as it occurs. The variables collected from a
    group of expressions are the leaves of all of them, in order and without repetitions, and readers that agree on
    them, whatever else they read and however they fail, give every expression of the group the same value. -/
theorem collect_complete (xs : List Expr) :
    (∀ x : Expr, x.occurrences = x.leaves) ∧
    (collect xs).toList.Pairwise (· < ·) ∧ (collect xs).toList.Nodup ∧
    (∀ v, v ∈ (collect xs).toList ↔ ∃ x ∈ xs, v ∈ x.leaves) ∧
    ∀ {m : Type → Type} [Monad m] (read read' : Variable → m Scalar),
      (∀ v ∈ (collect xs).toList, read v = read' v) → ∀ x ∈ xs, x.evaluate read = x.evaluate read' := by
  refine ⟨occurrences_eq_leaves, SortedSet.pairwise_toList _, SortedMap.nodup_keys _, fun v => mem_collect, ?_⟩
  intro m _ read read' hagree x hx
  exact evaluate_congr fun v hv => hagree v (mem_collect.mpr ⟨x, hx, hv⟩)

/-- One variable occurs twice. Two readers differ on a third one, which one of them cannot read. -/
theorem collect_of_repeated_variable :
    let a := Variable.witness 0 0
    let b := Variable.witness 1 (-1)
    let c := Variable.constant 0 0
    let x := sub (add (mul (var a) (var b)) (var a)) (constant 3)
    let read : Variable → Option Scalar := fun v => some (Scalar.ofNat (v.index + 2))
    let read' : Variable → Option Scalar := fun v => if v = c then none else read v
    x.occurrences = [a, b, a] ∧ (collect [x]).toList = [a, b] ∧ (∀ v ∈ (collect [x]).toList, read v = read' v) ∧
      read c ≠ read' c ∧ x.evaluate read = x.evaluate read' := by
  intro a b c x read read'
  obtain ⟨hwalk, -, -, -, hagree⟩ := collect_complete [x]
  have hcollect : (collect [x]).toList = [a, b] := by decide +kernel
  have hread : ∀ v ∈ (collect [x]).toList, read v = read' v := by
    rw [hcollect]
    decide
  exact ⟨hwalk x, hcollect, hread, by decide, hagree read read' hread x (List.mem_singleton_self x)⟩

/-! ### Values -/

/-- The value of an expression as a polynomial. -/
def denote (read : Variable → Scalar) : Expr → Scalar
  | constant c => c
  | var v => read v
  | add x y => x.denote read + y.denote read
  | sub x y => x.denote read - y.denote read
  | mul x y => x.denote read * y.denote read
  | neg x => -x.denote read

theorem denote_congr {read read' : Variable → Scalar} {x : Expr} (h : ∀ v ∈ x.leaves, read v = read' v) :
    x.denote read = x.denote read' := by
  induction x with
  | constant c => rfl
  | var v => exact h v (List.mem_singleton_self v)
  | neg x ih => rw [denote, denote, ih h]
  | add x y ihx ihy =>
    rw [denote, denote, ihx fun v hv => h v (List.mem_append_left _ hv), ihy fun v hv => h v (List.mem_append_right _ hv)]
  | sub x y ihx ihy =>
    rw [denote, denote, ihx fun v hv => h v (List.mem_append_left _ hv), ihy fun v hv => h v (List.mem_append_right _ hv)]
  | mul x y ihx ihy =>
    rw [denote, denote, ihx fun v hv => h v (List.mem_append_left _ hv), ihy fun v hv => h v (List.mem_append_right _ hv)]

theorem evaluate_eq_denote {read : Variable → Except ε Scalar} {f : Variable → Scalar} {x : Expr}
    (h : ∀ v ∈ x.leaves, read v = .ok (f v)) : x.evaluate read = .ok (x.denote f) := by
  induction x with
  | constant c => rfl
  | var v => exact h v (List.mem_singleton_self v)
  | neg x ih => exact bind_eq_ok.mpr ⟨_, ih h, congrArg _ (Scalar.opposite_eq_neg _)⟩
  | add x y ihx ihy =>
    exact bind_eq_ok.mpr ⟨_, ihx fun v hv => h v (List.mem_append_left _ hv),
      bind_eq_ok.mpr ⟨_, ihy fun v hv => h v (List.mem_append_right _ hv), rfl⟩⟩
  | sub x y ihx ihy =>
    exact bind_eq_ok.mpr ⟨_, ihx fun v hv => h v (List.mem_append_left _ hv),
      bind_eq_ok.mpr ⟨_, ihy fun v hv => h v (List.mem_append_right _ hv),
        congrArg _ (Scalar.minus_eq_sub _ _)⟩⟩
  | mul x y ihx ihy =>
    exact bind_eq_ok.mpr ⟨_, ihx fun v hv => h v (List.mem_append_left _ hv),
      bind_eq_ok.mpr ⟨_, ihy fun v hv => h v (List.mem_append_right _ hv), rfl⟩⟩

end Expr
end Plonkish
