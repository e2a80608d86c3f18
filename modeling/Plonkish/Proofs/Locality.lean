import Plonkish.Proofs.Edits
import Plonkish.Proofs.Zone.Active
import Plonkish.Proofs.Zone.Independence

/-! Which cells the verdict about an assignment depends on. The search for a violation looks up selectors, and then the
    cells that are read where something is on, the ends of copies, and what the registered tables hold where they are
    marked (`System.Consults`). How long the columns are does not matter, as rows that were never written are off and
    zero. So tables with the same columns that agree on these cells get one answer, violation and fault included, and
    writes to any other cell leave it as it was (`firstViolation_local`). -/

namespace Plonkish
namespace System
open Assignment Zone

/-- A cell that decides about the verdict on a table: a selector, a cell that a gate or a lookup gate reads at a row
    where it is on, an end of a copy, or a cell that an option of a registered table names at a row where the table is
    marked. -/
inductive Consults (s : System) (t : Assignment) : Variable → Prop where
  | selector (column row : Nat) : Consults s t ⟨.selector, column, .row row⟩
  | active {row : Nat} {xs : List Expr} {v : Variable} (h : s.Active t row xs) (hv : Reads xs row v) : Consults s t v
  | copy {c : Copy} {v : Variable} (hc : c ∈ s.copies) (hv : v = c.first ∨ v = c.second) : Consults s t v
  | option {id row : Nat} {target : Target} {option : List Variable} {v w : Variable}
    (htarget : s.targets.get? id = some target) (hon : t.isOn target.tag row) (hoption : option ∈ target.options)
    (hv : v ∈ option) (hw : v.cellAt? row = some w) : Consults s t w

variable {s : System} {t t' : Assignment}

/-! ### Tables that agree on what is consulted -/

section Agreement
variable (hwidth : ∀ kind, t'.width kind = t.width kind) (h : ∀ v, s.Consults t v → t'.Agrees t v)

include h in
theorem isOn_of_agrees (selector row : Nat) : t'.isOn selector row = t.isOn selector row := by
  rw [isOn, isOn, h _ (.selector selector row) row rfl]

include hwidth h

theorem evaluate_of_agrees {row : Nat} {xs : List Expr} {x : Expr} (hactive : s.Active t row xs) (hx : x ∈ xs) :
    x.evaluate (t'.valueAt · row) = x.evaluate (t.valueAt · row) :=
  evaluate_congr_of_reads hwidth (fun v hv => h v (.active hactive hv)) hx

theorem gateViolation_of_agrees {g : Gate} {row : Nat} (hg : g ∈ s.gates) (hon : t.isOn g.selector row) :
    t'.gateViolation g row = t.gateViolation g row := by
  refine findSomeM?_congr fun e he => ?_
  have hmem : e.1 ∈ g.constraints := List.fst_mem_of_mem_zipIdx he
  dsimp only
  rw [evaluate_of_agrees hwidth h (.gate hg hon rfl) hmem]

theorem copyViolation_of_agrees {c : Copy} (hc : c ∈ s.copies) : t'.copyViolation c = t.copyViolation c := by
  rw [copyViolation, copyViolation, value_congr hwidth (h c.first (.copy hc (Or.inl rfl))),
    value_congr hwidth (h c.second (.copy hc (Or.inr rfl)))]

theorem tuples_of_agrees {id : Nat} {target : Target} (htarget : s.targets.get? id = some target) :
    t'.tuples target = t.tuples target := by
  have hentries : t'.entries target = t.entries target :=
    entries_of_isOn (isOn_of_agrees h target.tag) fun option hoption v hv row hon =>
      valueAt_congr hwidth fun w hw => h w (.option htarget hon hoption hv hw)
  rw [tuples, tuples, hentries]

theorem answers_of_agrees : t'.answers s = t.answers s := by
  refine List.map_congr_left fun e he => ?_
  dsimp only
  rw [tuples_of_agrees hwidth h (SortedMap.get?_eq_some_iff.mpr he)]

theorem lookupViolation_of_agrees {g : LookupGate} {row : Nat} (hg : g ∈ s.lookupGates) (hon : t.isOn g.tag row) :
    t'.lookupViolation (t.answers s) g row = t.lookupViolation (t.answers s) g row := by
  refine findSomeM?_congr fun e he => ?_
  have hinput : e.1.input.mapM (·.evaluate (t'.valueAt · row)) = e.1.input.mapM (·.evaluate (t.valueAt · row)) :=
    mapM_congr fun x hx => evaluate_of_agrees hwidth h (.lookup hg hon rfl)
      (List.mem_flatMap.mpr ⟨e.1, List.fst_mem_of_mem_zipIdx he, hx⟩)
  dsimp only
  rw [hinput]

omit hwidth in
/-- A search of gates where they are on goes through the same rows in both tables. -/
theorem findSomeM?_of_agrees {γ : Type} {gates : List γ} {selector : γ → Nat}
    {f f' : γ → Nat → Except Fault (Option Violation)}
    (hf : ∀ g ∈ gates, ∀ row, t.isOn (selector g) row → f' g row = f g row) :
    (gates.findSomeM? fun g => (t'.activeRows (selector g) 0 t'.height).findSomeM? (f' g)) =
      gates.findSomeM? fun g => (t.activeRows (selector g) 0 t.height).findSomeM? (f g) := by
  refine findSomeM?_congr fun g hg => ?_
  rw [activeRows_congr (isOn_of_agrees h (selector g))]
  exact findSomeM?_congr fun row hrow => hf g hg row (mem_activeRows_height.mp hrow)

theorem firstViolation_of_agrees : s.firstViolation t' = s.firstViolation t := by
  have hgates : s.firstGateViolation t' = s.firstGateViolation t :=
    findSomeM?_of_agrees h fun g hg row hon => gateViolation_of_agrees hwidth h hg hon
  have hcopies : s.copies.findSomeM? t'.copyViolation = s.copies.findSomeM? t.copyViolation :=
    findSomeM?_congr fun c hc => copyViolation_of_agrees hwidth h hc
  have hlookups : s.firstLookupViolation t' = s.firstLookupViolation t := by
    rw [firstLookupViolation, firstLookupViolation, answers_of_agrees hwidth h]
    exact findSomeM?_of_agrees h fun g hg row hon => lookupViolation_of_agrees hwidth h hg hon
  rw [firstViolation, firstViolation, hgates, hcopies, hlookups]

end Agreement

/-! ### Writes that nobody notices -/

/-- The verdict on a table is that on every table with the same columns that agrees with it on the cells that are
    consulted. In particular it stays through any writes of values that are there already, such as zeros below the end
    of a column, and of any values to cells that are not consulted. -/
theorem firstViolation_local (s : System) (t : Assignment) :
    (∀ t' : Assignment, (∀ kind, t'.width kind = t.width kind) → (∀ v, s.Consults t v → t'.Agrees t v) →
      s.firstViolation t' = s.firstViolation t) ∧
    ∀ t', Edits (fun kind column row x => x = t.cell kind column row ∨ ¬ s.Consults t ⟨kind, column, .row row⟩) t t' →
      s.firstViolation t' = s.firstViolation t := by
  refine ⟨fun t' => firstViolation_of_agrees, fun t' h => firstViolation_of_agrees h.width ?_⟩
  rintro ⟨kind, column, position⟩ hv row rfl
  rcases h.cell kind column row with hkept | hkept | hunread
  · exact hkept
  · exact hkept
  · exact absurd hv hunread

/-- A gate that asks for equal witnesses is on in the rows 0 and 1, and does not hold in the row 1. It is reported just
    so after a witness was written two rows below, and the other column filled with zeros. -/
theorem firstViolation_of_two_writes :
    let s : System := { System.empty with
      gates := [⟨0, [.sub (.var (.witness 0 0)) (.var (.witness 1 0))]⟩] }
    let t : Assignment := ⟨#[#[5, 6], #[5, 7]], #[], #[], #[#[1, 1]]⟩
    let t' : Assignment := ⟨#[#[5, 6, 0, 9], #[5, 7, 0, 0]], #[], #[], #[#[1, 1]]⟩
    s.Consults t ⟨.witness, 1, .row 1⟩ ∧ ¬ s.Consults t ⟨.witness, 0, .row 3⟩ ∧
      s.firstViolation t = .ok (some (.gate 0 1 0)) ∧ s.firstViolation t' = .ok (some (.gate 0 1 0)) := by
  intro s t t'
  have hactive : s.Active t 1 [.sub (.var (.witness 0 0)) (.var (.witness 1 0))] :=
    .gate List.mem_cons_self (by decide) rfl
  have hread : s.Consults t ⟨.witness, 1, .row 1⟩ :=
    .active hactive ⟨_, List.mem_cons_self, .witness 1 0, by decide, by decide⟩
  have habove : ∀ row < 2, ∀ v ∈ (Expr.sub (.var (.witness 0 0)) (.var (.witness 1 0))).leaves,
      v.cellAt? row ≠ some ⟨.witness, 0, .row 3⟩ := by decide
  have hunread : ¬ s.Consults t ⟨.witness, 0, .row 3⟩ := by
    intro hc
    cases hc with
    | @active row _ _ hactive hv =>
      cases hactive with
      | @gate g hg hon hxs =>
        obtain rfl := List.mem_singleton.mp hg
        obtain ⟨x, hx, v, hv, hcell⟩ := hv
        rw [← hxs] at hx
        obtain rfl := List.mem_singleton.mp hx
        exact habove row (lt_marks_of_isOn hon) v hv hcell
      | lookup hg => cases hg
    | copy hc => cases hc
    | option htarget => cases htarget
  have hviolation : s.firstViolation t = .ok (some (.gate 0 1 0)) := by rfl
  have hfirst : t.set .witness 0 3 9 = .ok ⟨#[#[5, 6, 0, 9], #[5, 7]], #[], #[], #[#[1, 1]]⟩ := by rfl
  have hsecond : Assignment.set ⟨#[#[5, 6, 0, 9], #[5, 7]], #[], #[], #[#[1, 1]]⟩ .witness 1 3 0 = .ok t' := by rfl
  refine ⟨hread, hunread, hviolation, ?_⟩
  rw [(firstViolation_local s t).2 t' (.set (.set .refl (Or.inr hunread) hfirst) (Or.inl (by decide)) hsecond)]
  exact hviolation

end System
end Plonkish
