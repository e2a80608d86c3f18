import Plonkish.Proofs.Edits
import Plonkish.Proofs.Zone.Overrun
import Plonkish.Proofs.Zone.Window

/-! What writes do to the verdict on a window. The selectors say what is on, and the values of all other cells do not
    matter for the zones. But a public input has an address only if some column of public inputs reaches down to its
    row. So while selectors are left alone, writes take no address away, and the cells that get one are public inputs
    below all that were written before (`addressed_iff_of_edits`). Where constraints touch no such cell the verdict
    stays as it was, and everywhere what is wired stays wired (`run_of_edits`). Where they do touch one, the first write
    to a public input may change the verdict (`run_of_written_public_input`). -/

namespace Plonkish
namespace Assignment
variable {t t' : Assignment} {v : Variable}

/-- A table comes out of another one by writes that leave the selectors alone. -/
abbrev Refilled (t t' : Assignment) : Prop := Edits (fun kind _ _ _ => kind ≠ .selector) t t'

theorem Refilled.isOn (h : Refilled t t') (selector row : Nat) : t'.isOn selector row = t.isOn selector row := by
  rcases h.cell .selector selector row with hkept | hmay
  · rw [Assignment.isOn, Assignment.isOn, hkept]
  · exact absurd rfl hmay

/-! ### Rows of public inputs -/

theorem publicRows_le_iff {n : Nat} : t.publicRows ≤ n ↔ ∀ values ∈ t.columns .publicInput, values.size ≤ n := by
  have hsizes : (∀ values ∈ t.columns .publicInput, values.size ≤ n) ↔
      ∀ size ∈ (t.columns .publicInput).toList.map Array.size, size ≤ n := by
    simp
  rw [hsizes, publicRows]
  cases hmax : ((t.columns .publicInput).toList.map Array.size).max? with
  | none => simp [List.max?_eq_none_iff.mp hmax]
  | some m => exact List.max?_le_iff hmax

theorem size_le_writeRow (values : Array Scalar) (row : Nat) (x : Scalar) :
    values.size ≤ (writeRow values row x).size := by
  simp [writeRow]

/-- A column does not get shorter through a write of one of its cells. -/
theorem exists_size_le_of_set {kind k : ColumnKind} {column row : Nat} {x : Scalar} {values : Array Scalar}
    (h : t.set kind column row x = .ok t') (hvalues : values ∈ t.columns k) :
    ∃ values' ∈ t'.columns k, values.size ≤ values'.size := by
  unfold set at h
  split at h
  · obtain rfl := Except.ok.inj h
    rw [columns_modify]
    split
    · obtain ⟨i, hi⟩ := Array.mem_iff_getElem?.mp hvalues
      refine ⟨if column = i then writeRow values row x else values, Array.mem_of_getElem? (i := i) ?_, ?_⟩
      · rw [Array.getElem?_modify, hi]
        split <;> rfl
      · split
        · exact size_le_writeRow values row x
        · exact le_rfl
    · exact ⟨values, hvalues, le_rfl⟩
  · cases h

theorem publicRows_replace {kind : ColumnKind} {column : Nat} {values : Array Scalar}
    (hkind : kind = .constant ∨ kind = .selector) (h : t.replace kind column values = .ok t') :
    t'.publicRows = t.publicRows := by
  unfold replace at h
  split at h
  · obtain rfl := Except.ok.inj h
    rcases hkind with rfl | rfl <;> rfl
  · cases h

theorem Edits.publicRows_le {may : ColumnKind → Nat → Nat → Scalar → Prop} (h : Edits may t t') :
    t.publicRows ≤ t'.publicRows := by
  induction h with
  | refl => exact le_rfl
  | set _ _ hb ih =>
    refine ih.trans (publicRows_le_iff.mpr fun values hvalues => ?_)
    obtain ⟨values', hvalues', hle⟩ := exists_size_le_of_set hb hvalues
    exact hle.trans (publicRows_le_iff.mp le_rfl values' hvalues')
  | replace _ hkind _ hb ih =>
    rw [publicRows_replace hkind hb]
    exact ih

/-- A public input in a row that one table has, and that no column of public inputs of another one reaches. -/
def Gains (t t' : Assignment) (v : Variable) : Prop :=
  v.kind = .publicInput ∧ v.index < t.width .publicInput ∧
    ∃ row, v.position = .row row ∧ t.publicRows ≤ row ∧ row < t'.publicRows

end Assignment

namespace Zone
open Assignment
variable {s : System} {t t' : Assignment} {boundary inputs outputs : List Variable} {start rows row : Nat}
  {xs : List Expr} {v w : Variable}

/-! ### Addresses -/

theorem isLocal_iff_of_edits (h : Refilled t t') :
    IsLocal t' boundary start rows v ↔ IsLocal t boundary start rows v ∨ Gains t t' v := by
  have hle := h.publicRows_le
  obtain ⟨kind, index, d | r⟩ := v
  · simp [IsLocal, Gains]
  · cases kind with
    | witness | constant | selector => simp [IsLocal, Gains, h.width]
    | publicInput =>
      have hrow : r < t'.publicRows ↔ r < t.publicRows ∨ t.publicRows ≤ r ∧ r < t'.publicRows := by omega
      simp [IsLocal, Gains, h.width, or_assoc, ← and_or_left, ← hrow]

/-- Writes take no address away, and public inputs that are reached now are all that get one. -/
theorem addressed_iff_of_edits (h : Refilled t t') : ((Space.ofTable t' boundary start rows).address? v).isSome ↔
    ((Space.ofTable t boundary start rows).address? v).isSome ∨ Gains t t' v := by
  have hgains : Gains t t' v → v.relative = false := by
    rintro ⟨-, -, row, hrow, -⟩
    simp [Variable.relative, hrow]
  rw [addressed_iff, addressed_iff, isLocal_iff_of_edits h, and_or_left, and_iff_right_of_imp hgains]

/-! ### Edges -/

theorem active_iff_of_edits (h : Refilled t t') : s.Active t' row xs ↔ s.Active t row xs := by
  constructor
  · intro hactive
    cases hactive with
    | gate hg hon hxs => exact .gate hg (h.isOn _ _ ▸ hon) hxs
    | lookup hg hon hxs => exact .lookup hg (h.isOn _ _ ▸ hon) hxs
  · intro hactive
    cases hactive with
    | gate hg hon hxs => exact .gate hg ((h.isOn _ _).trans hon) hxs
    | lookup hg hon hxs => exact .lookup hg ((h.isOn _ _).trans hon) hxs

theorem Edge.touched {sp : Space} (h : Edge s t sp v w) : Touched s t sp v ∧ Touched s t sp w := by
  obtain ⟨⟨hva, hwa⟩, ⟨row, xs, hrow, hactive, hv, hw⟩ | hc⟩ := edge_iff.mp h
  · exact ⟨touched_iff.mpr ⟨hva, Or.inl ⟨row, xs, hrow, hactive, hv⟩⟩,
      touched_iff.mpr ⟨hwa, Or.inl ⟨row, xs, hrow, hactive, hw⟩⟩⟩
  · exact ⟨.copy hc (Or.inl rfl) hva hwa, .copy hc (Or.inr rfl) hva hwa⟩

section Growth
variable (h : Refilled t t')
include h

theorem read_iff_of_edits {p : Nat → List Expr → Prop} :
    (∃ row xs, (Space.ofTable t' boundary start rows).inWindow row ∧ s.Active t' row xs ∧ p row xs) ↔
      ∃ row xs, (Space.ofTable t boundary start rows).inWindow row ∧ s.Active t row xs ∧ p row xs := by
  simp only [Space.inWindow_ofTable, active_iff_of_edits h]

theorem edge_of_edits (he : Edge s t (Space.ofTable t boundary start rows) v w) :
    Edge s t' (Space.ofTable t' boundary start rows) v w := by
  obtain ⟨⟨hva, hwa⟩, hread | hc⟩ := edge_iff.mp he
  · exact edge_iff.mpr ⟨⟨(addressed_iff_of_edits h).mpr (Or.inl hva), (addressed_iff_of_edits h).mpr (Or.inl hwa)⟩,
      Or.inl ((read_iff_of_edits h).mpr hread)⟩
  · exact .copy hc ((addressed_iff_of_edits h).mpr (Or.inl hva)) ((addressed_iff_of_edits h).mpr (Or.inl hwa))

/-- What is wired stays wired. -/
theorem reaches_of_edits (hr : Reaches s t (Space.ofTable t boundary start rows) v w) :
    Reaches s t' (Space.ofTable t' boundary start rows) v w :=
  hr.mono fun _ _ => edge_of_edits h

theorem connected_of_edits {c : Check} (hislands : c.islands = false)
    (hc : Connected c s t (Space.ofTable t boundary start rows) inputs outputs) :
    Connected c s t' (Space.ofTable t' boundary start rows) inputs outputs := by
  refine ⟨?_, fun hon => by rw [hislands] at hon; cases hon⟩
  have hwiring := hc.1
  cases hkind : c.wiring with
  | none => trivial
  | weak =>
    rw [hkind] at hwiring
    exact hwiring.imp (fun hout v hv => (hout v hv).imp_right fun ⟨w, hw, hr⟩ => ⟨w, hw, reaches_of_edits h hr⟩)
      fun hin v hv => (hin v hv).imp_right fun ⟨w, hw, hr⟩ => ⟨w, hw, reaches_of_edits h hr⟩
  | strong =>
    rw [hkind] at hwiring
    exact hwiring.imp_right fun ⟨habs, hr⟩ => ⟨habs, fun v hv w hw => reaches_of_edits h (hr v hv w hw)⟩

/-! ### Cells that nothing touches -/

variable (hidle : ∀ v, Gains t t' v → v ∉ boundary → ¬ Touched s t' (Space.ofTable t' boundary start rows) v)
include hidle

theorem addressed_of_touched (ht : Touched s t' (Space.ofTable t' boundary start rows) v) :
    ((Space.ofTable t boundary start rows).address? v).isSome := by
  rcases (addressed_iff_of_edits h).mp ht.addressed with ha | hgains
  · exact ha
  · by_cases hv : v ∈ boundary
    · exact (Space.isSome_address?_iff hv).mpr ((Space.isSome_address?_iff hv).mp ht.addressed)
    · exact absurd ht (hidle v hgains hv)

theorem edge_iff_of_idle : Edge s t' (Space.ofTable t' boundary start rows) v w ↔
    Edge s t (Space.ofTable t boundary start rows) v w := by
  refine ⟨fun he => ?_, edge_of_edits h⟩
  have hva := addressed_of_touched h hidle he.touched.1
  have hwa := addressed_of_touched h hidle he.touched.2
  exact edge_iff.mpr ⟨⟨hva, hwa⟩, (edge_iff.mp he).2.imp_left (read_iff_of_edits h).mp⟩

theorem touched_iff_of_idle : Touched s t' (Space.ofTable t' boundary start rows) v ↔
    Touched s t (Space.ofTable t boundary start rows) v := by
  constructor
  · intro ht
    refine touched_iff.mpr ⟨addressed_of_touched h hidle ht, ht.cases.imp (read_iff_of_edits h).mp ?_⟩
    rintro ⟨c, hc, hv, hfirst, hsecond⟩
    exact ⟨c, hc, hv, addressed_of_touched h hidle (.copy hc (Or.inl rfl) hfirst hsecond),
      addressed_of_touched h hidle (.copy hc (Or.inr rfl) hfirst hsecond)⟩
  · intro ht
    refine touched_iff.mpr ⟨(addressed_iff_of_edits h).mpr (Or.inl ht.addressed),
      ht.cases.imp (read_iff_of_edits h).mpr ?_⟩
    rintro ⟨c, hc, hv, hfirst, hsecond⟩
    exact ⟨c, hc, hv, (addressed_iff_of_edits h).mpr (Or.inl hfirst), (addressed_iff_of_edits h).mpr (Or.inl hsecond)⟩

end Growth
end Zone

namespace Check
open Zone Assignment
variable {s : System} {t t' : Assignment} {inputs outputs : List Variable} {start rows : Nat}

/-! ### The verdict -/

theorem run_eq_error_iff_of_edits (c : Check) (h : Refilled t t') (e : Fault) :
    c.run s t' inputs outputs start rows = .error e ↔ c.run s t inputs outputs start rows = .error e := by
  rw [c.faults_run s t' inputs outputs start rows e, c.faults_run s t inputs outputs start rows e]
  simp only [System.Overruns, active_iff_of_edits h]

/-- A check of a table that was written to faults as it did before. A verdict is kept if the constraints of the window
    touch no public input that has an address only now, inputs and outputs apart. In any case a window that was wired
    as asked for is so after the writes. -/
theorem run_of_edits (c : Check) (s : System) (inputs outputs : List Variable) (start rows : Nat)
    (h : Refilled t t') :
    (∀ e, c.run s t' inputs outputs start rows = .error e ↔ c.run s t inputs outputs start rows = .error e) ∧
      ((∀ v, Gains t t' v → v ∉ inputs ++ outputs →
        ¬ Touched s t' (Space.ofTable t' (inputs ++ outputs) start rows) v) →
          c.run s t' inputs outputs start rows = c.run s t inputs outputs start rows) ∧
      (c.islands = false → c.run s t inputs outputs start rows = .ok true →
        c.run s t' inputs outputs start rows = .ok true) := by
  have herror : ∀ e, c.run s t' inputs outputs start rows = .error e ↔
      c.run s t inputs outputs start rows = .error e := run_eq_error_iff_of_edits c h
  refine ⟨herror, fun hidle => ?_, fun hislands htrue => ?_⟩
  · cases hb : c.run s t inputs outputs start rows with
    | error e => exact (herror e).mpr hb
    | ok b =>
      cases hb' : c.run s t' inputs outputs start rows with
      | error e => cases hb.symm.trans ((herror e).mp hb')
      | ok b' =>
        -- Nothing new is touched, so edges and touched cells are as they were.
        rw [Except.ok.injEq, Bool.eq_iff_iff, run_eq_true_iff hb, run_eq_true_iff hb']
        exact connected_congr (fun _ _ => edge_iff_of_idle h hidle) fun _ => touched_iff_of_idle h hidle
  · -- Chains stay, since writes take no address away.
    cases hb' : c.run s t' inputs outputs start rows with
    | error e => cases htrue.symm.trans ((herror e).mp hb')
    | ok b' => rw [(run_eq_true_iff hb').mpr (connected_of_edits h hislands ((run_eq_true_iff htrue).mp rfl))]

/-- A gate ties two witnesses together, and a copy the second of them to a public input. A public input is written below
    that one, and the first witness gets another value. The copy and the gate touch neither the new public input nor
    its row, and the window stays wired. -/
theorem run_of_two_writes :
    let s : System := { System.empty with
      gates := [⟨0, [.sub (.var (.witness 0 0)) (.var (.witness 1 0))]⟩]
      copies := [⟨⟨.witness, 1, .row 0⟩, ⟨.publicInput, 0, .row 0⟩⟩] }
    let t : Assignment := ⟨#[#[], #[]], #[], #[#[7]], #[#[1]]⟩
    let t' : Assignment := ⟨#[#[5], #[]], #[], #[#[7, 9]], #[#[1]]⟩
    let x : Variable := ⟨.witness, 0, .row 0⟩
    let y : Variable := ⟨.publicInput, 0, .row 0⟩
    let c : Check := ⟨.strong, true⟩
    Refilled t t' ∧ Gains t t' ⟨.publicInput, 0, .row 1⟩ ∧ c.run s t [x] [y] 0 1 = .ok true ∧
      c.run s t' [x] [y] 0 1 = .ok true := by
  intro s t t' x y c
  have hfirst : t.set .publicInput 0 1 9 = .ok ⟨#[#[], #[]], #[], #[#[7, 9]], #[#[1]]⟩ := by rfl
  have hsecond : Assignment.set ⟨#[#[], #[]], #[], #[#[7, 9]], #[#[1]]⟩ .witness 0 0 5 = .ok t' := by rfl
  have hrefilled : Refilled t t' := .set (.set .refl (by decide) hfirst) (by decide) hsecond
  have hreads : ∀ row, ∀ v ∈ (Expr.sub (.var (.witness 0 0)) (.var (.witness 1 0))).leaves, ∀ w,
      v.cellAt? row = some w → w.kind = .witness := by
    intro row v hv w hw
    obtain ⟨r, -, rfl⟩ := Option.map_eq_some_iff.mp hw
    exact (show ∀ v ∈ (Expr.sub (.var (.witness 0 0)) (.var (.witness 1 0))).leaves, v.kind = .witness by decide) v hv
  have hidle : ∀ v, Gains t t' v → v ∉ [x, y] → ¬ Touched s t' (Space.ofTable t' [x, y] 0 1) v := by
    rintro v ⟨hkind, -, row, hrow, hle, -⟩ - htouched
    cases htouched with
    | gate hg hin hon hv =>
      obtain rfl := List.mem_singleton.mp hg
      obtain ⟨e, he, u, hu, hcell⟩ := hv
      obtain rfl := List.mem_singleton.mp he
      cases (hreads _ u hu v hcell).symm.trans hkind
    | lookup hg => cases hg
    | copy hc hv =>
      obtain rfl := List.mem_singleton.mp hc
      rcases hv with rfl | rfl
      · cases hkind
      · obtain rfl := Position.row.inj hrow
        exact absurd hle (by decide)
  have htrue : c.run s t [x] [y] 0 1 = .ok true := by decide +kernel
  have hkept := run_of_edits c s [x] [y] 0 1 hrefilled
  exact ⟨hrefilled, ⟨rfl, by decide, 1, rfl, by decide, by decide⟩, htrue, (hkept.2.1 hidle).trans htrue⟩

/-- Copies tie two witnesses to a public input. Before that is written the witnesses are not wired to each other, and a
    zero written there wires them. Without the second copy and without inputs and outputs there is no island at first,
    and one after the write. -/
theorem run_of_written_public_input :
    let z : Variable := ⟨.publicInput, 0, .row 0⟩
    let x : Variable := ⟨.witness, 0, .row 0⟩
    let y : Variable := ⟨.witness, 1, .row 0⟩
    let two : System := { System.empty with copies := [⟨x, z⟩, ⟨y, z⟩] }
    let one : System := { System.empty with copies := [⟨x, z⟩] }
    let t : Assignment := .blank 2 0 1 0
    one.Built ∧ two.Built ∧ ∃ t', t.set .publicInput 0 0 0 = .ok t' ∧ Refilled t t' ∧
      (⟨.strong, false⟩ : Check).run two t [x] [y] 0 1 = .ok false ∧
      (⟨.strong, false⟩ : Check).run two t' [x] [y] 0 1 = .ok true ∧
      (⟨.none, true⟩ : Check).run one t [] [] 0 1 = .ok true ∧
      (⟨.none, true⟩ : Check).run one t' [] [] 0 1 = .ok false := by
  intro z x y two one t
  have hset : t.set .publicInput 0 0 0 = .ok ⟨#[#[], #[]], #[], #[#[0]], #[]⟩ := by rfl
  have hone : one.Built := .copy .empty (show System.empty.addCopy x z = .ok one from rfl)
  exact ⟨hone, .copy hone (show one.addCopy y z = .ok two from rfl), _, hset, .set .refl (by decide) hset,
    by decide +kernel, by decide +kernel, by decide +kernel, by decide +kernel⟩

end Check
end Plonkish
