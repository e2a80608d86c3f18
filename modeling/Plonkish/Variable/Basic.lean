import Plonkish.Column

/-! References to single cells. A variable names a column and either an absolute row or an offset from
    the row at which a gate is active. Variables are ordered by kind, column, row or offset, and last an
    absolute row before an equal offset; the order is linear (`Variable.lt_trichotomy`). -/

namespace Plonkish

/-- Where in its column a variable points. -/
inductive Position where
  /-- A distance, up or down, from the row of the gate that reads the variable. -/
  | offset (d : Int)
  /-- A fixed row. -/
  | row (r : Nat)
  deriving DecidableEq

/-- A cell, by column kind, column index and position. -/
structure Variable where
  kind : ColumnKind
  index : Nat
  position : Position
  deriving DecidableEq

namespace Variable

def rotation (v : Variable) : Int :=
  match v.position with
  | .offset d => d
  | .row r => r

def relative (v : Variable) : Bool :=
  match v.position with
  | .offset _ => true
  | .row _ => false

/-- A witness cell at an offset from the row of its gate. -/
def witness (column : Nat) (offset : Int) : Variable := ⟨.witness, column, .offset offset⟩

def constant (column : Nat) (offset : Int) : Variable := ⟨.constant, column, .offset offset⟩

/-- The text of a variable: `w0[-1]` or `w0[+0]` for an offset, `c4@7` for a row. -/
def text (v : Variable) : String :=
  let column := v.kind.sigil ++ toString v.index
  match v.position with
  | .offset d => column ++ "[" ++ (if d < 0 then "" else "+") ++ toString d ++ "]"
  | .row r => column ++ "@" ++ toString r

/-! ### Order -/

/-- Lexicographic in kind, column, rotation, and at last absolute before relative. -/
protected def Lt (v w : Variable) : Prop :=
  v.kind.place < w.kind.place ∨ v.kind.place = w.kind.place ∧
    (v.index < w.index ∨ v.index = w.index ∧
      (v.rotation < w.rotation ∨ v.rotation = w.rotation ∧ v.relative.toNat < w.relative.toNat))

instance : LT Variable := ⟨Variable.Lt⟩

instance : LE Variable := ⟨fun v w => ¬ w < v⟩

instance : DecidableLT Variable := fun v w => by
  show Decidable (Variable.Lt v w)
  unfold Variable.Lt
  infer_instance

theorem lt_def {v w : Variable} : v < w ↔
    v.kind.place < w.kind.place ∨ v.kind.place = w.kind.place ∧
      (v.index < w.index ∨ v.index = w.index ∧
        (v.rotation < w.rotation ∨
          v.rotation = w.rotation ∧ v.relative.toNat < w.relative.toNat)) := Iff.rfl

theorem le_def {v w : Variable} : v ≤ w ↔ ¬ w < v := Iff.rfl

/-- The four sort keys tell variables apart. -/
theorem eq_of_keys {v w : Variable} (hk : v.kind.place = w.kind.place) (hi : v.index = w.index)
    (hr : v.rotation = w.rotation) (hrel : v.relative.toNat = w.relative.toNat) : v = w := by
  obtain ⟨k, i, p⟩ := v
  obtain ⟨l, j, q⟩ := w
  have hkl := ColumnKind.place_inj hk
  cases p <;> cases q <;> simp_all only [rotation, relative, Bool.toNat_true, Bool.toNat_false,
    reduceCtorEq, Int.ofNat_inj]

theorem lt_trichotomy (v w : Variable) : v < w ∨ v = w ∨ w < v := by
  by_cases h : v.kind.place = w.kind.place ∧ v.index = w.index ∧ v.rotation = w.rotation ∧
      v.relative.toNat = w.relative.toNat
  · exact Or.inr (Or.inl (eq_of_keys h.1 h.2.1 h.2.2.1 h.2.2.2))
  · simp only [lt_def]
    omega

theorem lt_irrefl (v : Variable) : ¬ v < v := by
  simp only [lt_def]
  omega

theorem lt_trans {u v w : Variable} (h : u < v) (h' : v < w) : u < w := by
  simp only [lt_def] at *
  omega

theorem lt_asymm {v w : Variable} (h : v < w) : ¬ w < v := fun h' => lt_irrefl v (lt_trans h h')

instance : Std.IsLinearOrder Variable where
  le_refl v := lt_irrefl v
  le_trans u v w huv hvw h := by
    rcases lt_trichotomy v w with h' | rfl | h'
    · exact huv (lt_trans h' h)
    · exact huv h
    · exact hvw h'
  le_antisymm v w h h' := by
    rcases lt_trichotomy v w with hlt | heq | hlt
    · exact absurd hlt h'
    · exact heq
    · exact absurd hlt h
  le_total v w := by
    by_cases h : w < v
    · exact Or.inr (lt_asymm h)
    · exact Or.inl h

instance : Std.LawfulOrderLT Variable where
  lt_iff v w := by
    simp only [le_def, Decidable.not_not]
    exact ⟨fun h => ⟨lt_asymm h, h⟩, fun h => h.2⟩

end Variable
end Plonkish
