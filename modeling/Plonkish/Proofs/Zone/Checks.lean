import Plonkish.Proofs.Zone.Reachability
import Plonkish.Zone.Check

/-! What the checks of a window ask for. Each check looks at the representatives of zones; said over chains
    of edges, the strong check wires all inputs and outputs to one another, the weak one every output to an
    input and every input to an output, and the islands check every touched cell to an input or output
    (`run_iff_connected`). A variable that is not absolute has no zone, so it fails the strong and the
    weak check and wires nothing for the islands. -/

namespace Plonkish
namespace Zone
variable {s : System} {t : Assignment} {sp : Space}

/-! ### What is asked for -/

/-- A chain of edges joins two cells. -/
def Reaches (s : System) (t : Assignment) (sp : Space) : Variable → Variable → Prop :=
  Relation.EqvGen (Edge s t sp)

/-- A cell with an address occurs in a constraint: in a gate or a lookup gate that is on at a row of the
    window, or at an end of a copy whose ends both have addresses. -/
inductive Touched (s : System) (t : Assignment) (sp : Space) (v : Variable) : Prop where
  | gate {g : Gate} {row : Nat} (hg : g ∈ s.gates) (hrow : sp.inWindow row) (hon : t.isOn g.selector row)
    (hv : Reads g.constraints row v) (ha : (sp.address? v).isSome)
  | lookup {g : LookupGate} {row : Nat} (hg : g ∈ s.lookupGates) (hrow : sp.inWindow row)
    (hon : t.isOn g.tag row) (hv : Reads (g.queries.flatMap Query.input) row v) (ha : (sp.address? v).isSome)
  | copy {c : Copy} (hc : c ∈ s.copies) (hv : v = c.first ∨ v = c.second)
    (hfirst : (sp.address? c.first).isSome) (hsecond : (sp.address? c.second).isSome)

/-- There are no inputs and outputs, or all of them are absolute and wired to one another. -/
def StronglyWired (s : System) (t : Assignment) (sp : Space) (inputs outputs : List Variable) : Prop :=
  inputs ++ outputs = [] ∨ (∀ v ∈ inputs ++ outputs, v.relative = false) ∧
    ∀ v ∈ inputs ++ outputs, ∀ w ∈ inputs ++ outputs, Reaches s t sp v w

/-- Every output is absolute and wired to an input, and every input to an output. -/
def WeaklyWired (s : System) (t : Assignment) (sp : Space) (inputs outputs : List Variable) : Prop :=
  (∀ v ∈ outputs, v.relative = false ∧ ∃ w ∈ inputs, Reaches s t sp v w) ∧
    ∀ v ∈ inputs, v.relative = false ∧ ∃ w ∈ outputs, Reaches s t sp v w

/-- Every touched cell is wired to an absolute input or output. -/
def WithoutIslands (s : System) (t : Assignment) (sp : Space) (inputs outputs : List Variable) : Prop :=
  ∀ v, Touched s t sp v → ∃ w ∈ inputs ++ outputs, w.relative = false ∧ Reaches s t sp v w

/-- What a check asks for: the wiring of its kind, and no islands if they are looked for. -/
def Connected (c : Check) (s : System) (t : Assignment) (sp : Space) (inputs outputs : List Variable) : Prop :=
  (match c.wiring with
    | .none => True
    | .weak => WeaklyWired s t sp inputs outputs
    | .strong => StronglyWired s t sp inputs outputs) ∧
  (c.islands = true → WithoutIslands s t sp inputs outputs)

/-- What a check asks for depends on the edges and the touched cells alone. -/
theorem connected_congr {s' : System} {t' : Assignment} {sp' : Space} {c : Check} {inputs outputs : List Variable}
    (hedge : ∀ v w, Edge s' t' sp' v w ↔ Edge s t sp v w) (htouched : ∀ v, Touched s' t' sp' v ↔ Touched s t sp v) :
    Connected c s' t' sp' inputs outputs ↔ Connected c s t sp inputs outputs := by
  have hreaches : ∀ v w, Reaches s' t' sp' v w ↔ Reaches s t sp v w := fun v w => by
    have heq : Edge s' t' sp' = Edge s t sp := funext₂ fun v w => propext (hedge v w)
    rw [Reaches, Reaches, heq]
  simp only [Connected, StronglyWired, WeaklyWired, WithoutIslands, hreaches, htouched]

/-! ### Touched cells -/

theorem Touched.addressed {v : Variable} (h : Touched s t sp v) : (sp.address? v).isSome := by
  cases h with
  | gate _ _ _ _ ha => exact ha
  | lookup _ _ _ _ ha => exact ha
  | copy _ hv hfirst hsecond =>
    rcases hv with rfl | rfl
    · exact hfirst
    · exact hsecond

/-- The addresses in links are those of touched cells. -/
theorem mem_links_iff_touched {ls : List (Link sp.size)} (h : links s t sp = .ok ls) {a : Fin sp.size} :
    a ∈ ls.flatten ↔ ∃ v, Touched s t sp v ∧ sp.address? v = some a.val := by
  have hself : a ∈ ls.flatten ↔ Tied ls a a := by simp [Tied]
  rw [hself]
  constructor
  · intro ha
    rcases (tied_links h).mp ha with ⟨g, hg, l, hl, ha⟩ | ⟨g, hg, l, hl, ha⟩ | ha
    · obtain ⟨row, hrow, hon, ⟨v, hrv, hv⟩, -⟩ := (tied_activeLinks hl).mp ha
      exact ⟨v, .gate hg hrow hon hrv (by simp [hv]), hv⟩
    · obtain ⟨row, hrow, hon, ⟨v, hrv, hv⟩, -⟩ := (tied_activeLinks hl).mp ha
      exact ⟨v, .lookup hg hrow hon hrv (by simp [hv]), hv⟩
    · obtain ⟨c, hc, x, y, hx, hy, ha, -⟩ := tied_copyLinks.mp ha
      rw [Space.cell?_eq_some_iff] at hx hy
      have htouched : ∀ v, v = c.first ∨ v = c.second → Touched s t sp v :=
        fun v hv => .copy hc hv (by simp [hx]) (by simp [hy])
      rcases List.mem_pair.mp ha with rfl | rfl
      · exact ⟨_, htouched _ (Or.inl rfl), hx⟩
      · exact ⟨_, htouched _ (Or.inr rfl), hy⟩
  · rintro ⟨v, htouched, hv⟩
    cases htouched with
    | gate hg hrow hon hrv ha => exact tied_of_edge h hv hv (.gate hg hrow hon hrv hrv ha ha)
    | lookup hg hrow hon hrv ha => exact tied_of_edge h hv hv (.lookup hg hrow hon hrv hrv ha ha)
    | copy hc hend hfirst hsecond =>
      obtain ⟨x, hx⟩ := Option.isSome_iff_exists.mp hfirst
      obtain ⟨y, hy⟩ := Option.isSome_iff_exists.mp hsecond
      -- A copy ties both of its ends, and the cell is one of them.
      obtain ⟨l, hl, hxl, hyl⟩ := tied_of_edge (a := ⟨x, Space.address?_lt hx⟩) (b := ⟨y, Space.address?_lt hy⟩)
        h hx hy (.copy hc hfirst hsecond)
      rcases hend with rfl | rfl
      · obtain rfl := Option.some.inj (hx.symm.trans hv)
        exact ⟨l, hl, hxl, hxl⟩
      · obtain rfl := Option.some.inj (hy.symm.trans hv)
        exact ⟨l, hl, hyl, hyl⟩

end Zone

namespace Zones
open Zone
variable {s : System} {t : Assignment} {inputs outputs : List Variable} {start rows : Nat} {z : Zones}

/-! ### The zone of a variable -/

/-- Two variables have a zone in common. -/
def Meet (z : Zones) (v w : Variable) : Prop := ∃ c, z.zone? v = some c ∧ z.zone? w = some c

theorem zone?_eq_some_iff {v : Variable} {c : Fin z.space.size} :
    z.zone? v = some c ↔ ∃ a : Fin z.space.size, z.space.address? v = some a.val ∧ z.classes.find a = c := by
  simp only [zone?, Option.map_eq_some_iff, Space.cell?_eq_some_iff]

theorem meet_iff (h : make s t inputs outputs start rows = .ok z) {v w : Variable} :
    z.Meet v w ↔ (z.space.address? v).isSome ∧ Reaches s t z.space v w := by
  obtain ⟨ls, hls, rfl⟩ := make_eq_ok h
  simp only [Meet, zone?_eq_some_iff]
  constructor
  · rintro ⟨_, ⟨a, ha, rfl⟩, b, hb, hab⟩
    exact ⟨Option.isSome_of_eq_some ha, (chain_tied_iff hls ha hb).mp (find_merged_eq_iff.mp hab.symm)⟩
  · rintro ⟨hv, hvw⟩
    obtain ⟨a, ha⟩ := Option.isSome_iff_exists.mp hv
    obtain ⟨b, hb⟩ := Option.isSome_iff_exists.mp ((addressed_eq_of_chain hvw).symm.trans hv)
    have hab := (chain_tied_iff (a := ⟨a, Space.address?_lt ha⟩) (b := ⟨b, Space.address?_lt hb⟩) hls ha hb).mpr hvw
    exact ⟨_, ⟨_, ha, rfl⟩, _, hb, (find_merged_eq_iff.mpr hab).symm⟩

/-- A variable of the boundary shares a zone with those that it is wired to, if it is absolute. -/
theorem meet_boundary_iff (h : make s t inputs outputs start rows = .ok z) {v w : Variable}
    (hv : v ∈ inputs ++ outputs) : z.Meet v w ↔ v.relative = false ∧ Reaches s t z.space v w := by
  rw [meet_iff h]
  obtain ⟨ls, -, rfl⟩ := make_eq_ok h
  exact and_congr_left fun _ => Space.isSome_address?_iff hv

/-! ### The checks -/

theorem strong_eq_true_iff : z.strong inputs outputs = true ↔
    inputs ++ outputs = [] ∨ ∃ c, ∀ w ∈ inputs ++ outputs, z.zone? w = some c := by
  unfold strong
  cases inputs ++ outputs with
  | nil => simp
  | cons v rest =>
    cases hv : z.zone? v with
    | none => simp [hv]
    | some c => simp [hv]

theorem strong_iff (h : make s t inputs outputs start rows = .ok z) :
    z.strong inputs outputs = true ↔ StronglyWired s t z.space inputs outputs := by
  rw [strong_eq_true_iff, StronglyWired]
  by_cases hboundary : inputs ++ outputs = []
  · exact iff_of_true (Or.inl hboundary) (Or.inl hboundary)
  obtain ⟨v, hv⟩ := List.exists_mem_of_ne_nil _ hboundary
  refine or_congr_right ⟨?_, ?_⟩
  · rintro ⟨c, hc⟩
    have hmeet : ∀ v ∈ inputs ++ outputs, ∀ w ∈ inputs ++ outputs, z.Meet v w :=
      fun v hv w hw => ⟨c, hc v hv, hc w hw⟩
    exact ⟨fun v hv => ((meet_boundary_iff h hv).mp (hmeet v hv v hv)).1,
      fun v hv w hw => ((meet_boundary_iff h hv).mp (hmeet v hv w hw)).2⟩
  · rintro ⟨habs, hreach⟩
    have hmeet : ∀ w ∈ inputs ++ outputs, z.Meet v w :=
      fun w hw => (meet_boundary_iff h hv).mpr ⟨habs v hv, hreach v hv w hw⟩
    obtain ⟨c, hc, -⟩ := hmeet v hv
    refine ⟨c, fun w hw => ?_⟩
    obtain ⟨c', hc', hw'⟩ := hmeet w hw
    rw [hw', ← hc', hc]

theorem reaches_iff (h : make s t inputs outputs start rows = .ok z) {vs targets : List Variable}
    (hvs : vs ⊆ inputs ++ outputs) : z.reaches vs targets = true ↔
      ∀ v ∈ vs, v.relative = false ∧ ∃ w ∈ targets, Reaches s t z.space v w := by
  have hmeet : ∀ v, (z.zone? v).any (· ∈ targets.filterMap z.zone?) = true ↔ ∃ w ∈ targets, z.Meet v w := by
    intro v
    simp only [Option.any_eq_true, decide_eq_true_eq, List.mem_filterMap, Meet]
    grind
  simp only [reaches, List.all_eq_true, hmeet]
  refine forall₂_congr fun v hv => ?_
  constructor
  · rintro ⟨w, hw, hvw⟩
    obtain ⟨habs, hreach⟩ := (meet_boundary_iff h (hvs hv)).mp hvw
    exact ⟨habs, w, hw, hreach⟩
  · rintro ⟨habs, w, hw, hreach⟩
    exact ⟨w, hw, (meet_boundary_iff h (hvs hv)).mpr ⟨habs, hreach⟩⟩

theorem weak_iff (h : make s t inputs outputs start rows = .ok z) :
    z.weak inputs outputs = true ↔ WeaklyWired s t z.space inputs outputs := by
  rw [weak, Bool.and_eq_true, reaches_iff h (List.subset_append_right _ _),
    reaches_iff h (List.subset_append_left _ _)]
  rfl

theorem noIslands_iff (h : make s t inputs outputs start rows = .ok z) :
    z.noIslands inputs outputs = true ↔ WithoutIslands s t z.space inputs outputs := by
  have htouched : ∀ a, a ∈ z.touched ↔ ∃ v, Touched s t z.space v ∧ z.space.address? v = some a.val := by
    obtain ⟨ls, hls, rfl⟩ := make_eq_ok h
    exact fun a => mem_links_iff_touched hls
  simp only [noIslands, List.all_eq_true, decide_eq_true_eq, List.mem_filterMap, htouched]
  constructor
  · intro hall v hv
    obtain ⟨a, ha⟩ := Option.isSome_iff_exists.mp hv.addressed
    obtain ⟨w, hw, hzone⟩ := hall ⟨a, Space.address?_lt ha⟩ ⟨v, hv, ha⟩
    obtain ⟨habs, hreach⟩ := (meet_boundary_iff h hw).mp ⟨_, hzone, zone?_eq_some_iff.mpr ⟨_, ha, rfl⟩⟩
    exact ⟨w, hw, habs, hreach.symm⟩
  · rintro hall a ⟨v, hv, ha⟩
    obtain ⟨w, hw, habs, hreach⟩ := hall v hv
    obtain ⟨c, hc, hzone⟩ := (meet_boundary_iff h hw).mpr ⟨habs, hreach.symm⟩
    obtain ⟨b, hb, rfl⟩ := zone?_eq_some_iff.mp hzone
    obtain rfl := Fin.ext (Option.some.inj (ha.symm.trans hb))
    exact ⟨w, hw, hc⟩

theorem answer_iff_connected (h : make s t inputs outputs start rows = .ok z) {c : Check} :
    c.answer z inputs outputs = true ↔ Connected c s t z.space inputs outputs := by
  unfold Check.answer Connected
  rw [Bool.and_eq_true, Bool.or_eq_true, Bool.not_eq_true', noIslands_iff h]
  refine and_congr ?_ ?_
  · cases c.wiring with
    | none => exact iff_of_true rfl trivial
    | weak => exact weak_iff h
    | strong => exact strong_iff h
  · cases c.islands <;> simp

end Zones

namespace Check
open Zone
variable {c : Check} {s : System} {t : Assignment} {inputs outputs : List Variable} {start rows : Nat} {b : Bool}

theorem run_eq_true_iff (h : c.run s t inputs outputs start rows = .ok b) :
    b = true ↔ Connected c s t (Space.ofTable t (inputs ++ outputs) start rows) inputs outputs := by
  unfold run at h
  split at h
  · rename_i hnothing
    obtain rfl := Except.ok.inj h
    rw [hnothing]
    exact iff_of_true rfl ⟨trivial, fun hislands => by cases hislands⟩
  · obtain ⟨z, hz, rfl⟩ := map_eq_ok.mp h
    rw [← Zones.space_eq hz]
    exact Zones.answer_iff_connected hz

/-- A check that ends well says whether a window is connected as asked for, and each check of its zones whether
    they are connected in its own way. -/
theorem run_iff_connected (h : c.run s t inputs outputs start rows = .ok b) :
    let sp := Space.ofTable t (inputs ++ outputs) start rows
    (b = true ↔ Connected c s t sp inputs outputs) ∧
      ∀ z, Zones.make s t inputs outputs start rows = .ok z →
        (z.strong inputs outputs = true ↔ StronglyWired s t sp inputs outputs) ∧
        (z.weak inputs outputs = true ↔ WeaklyWired s t sp inputs outputs) ∧
        (z.noIslands inputs outputs = true ↔ WithoutIslands s t sp inputs outputs) := by
  intro sp
  refine ⟨run_eq_true_iff h, fun z hz => ?_⟩
  have hspace : sp = z.space := (Zones.space_eq hz).symm
  rw [hspace]
  exact ⟨Zones.strong_iff hz, Zones.weak_iff hz, Zones.noIslands_iff hz⟩

/-- A gate ties two witnesses together, and a copy the second of them to a public input: the first one is wired to
    the public input, and nothing stands apart. With a relative variable for an output, it is not. -/
theorem connected_of_gate_and_copy :
    let s : System := { System.empty with
      gates := [⟨0, [.sub (.var (.witness 0 0)) (.var (.witness 1 0))]⟩]
      copies := [⟨⟨.witness, 1, .row 0⟩, ⟨.publicInput, 0, .row 0⟩⟩] }
    let t : Assignment := ⟨#[#[], #[]], #[], #[#[7]], #[#[1]]⟩
    let x : Variable := ⟨.witness, 0, .row 0⟩
    let y : Variable := ⟨.publicInput, 0, .row 0⟩
    let c : Check := ⟨.strong, true⟩
    c.run s t [x] [y] 0 2 = .ok true ∧ Connected c s t (Space.ofTable t [x, y] 0 2) [x] [y] ∧
      c.run s t [x] [.witness 1 0] 0 2 = .ok false ∧
      ¬ Connected c s t (Space.ofTable t [x, .witness 1 0] 0 2) [x] [.witness 1 0] := by
  intro s t x y c
  have htrue : c.run s t [x] [y] 0 2 = .ok true := by decide +kernel
  have hfalse : c.run s t [x] [.witness 1 0] 0 2 = .ok false := by decide +kernel
  refine ⟨htrue, (run_iff_connected htrue).1.mp rfl, hfalse, fun h => ?_⟩
  cases (run_iff_connected hfalse).1.mpr h

end Check
end Plonkish
