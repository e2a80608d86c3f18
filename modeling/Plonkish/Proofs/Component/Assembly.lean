import Plonkish.Proofs.Component.Lookups

/-! Circuits assembled from components, one placed and filled after the other. If every component has rows of
    its own and reads only given cells and earlier results, a run never faults, and in the end every result
    is what its component computes and the circuit is satisfied (`assemble_complete`). The invariant of a
    run is `Assembled`: the circuit stands, what it reads are given cells and cells of components that are
    done, and their results have the expected values. -/

namespace Plonkish
open Component Lookup

/-! ### Parts -/

/-- A component with its inputs, to be placed at a row. -/
structure Part where
  component : Component
  input : component.Input
  row : Nat

namespace Part

def inputs (p : Part) : List Variable := p.component.inputs p.input

def result (p : Part) : Variable := p.component.result p.row

def compute (p : Part) (read : Variable → Scalar) : Scalar := p.component.compute read p.input

def Owns (p : Part) (k : ColumnKind) (i r : Nat) : Prop := p.component.Owns p.row k i r

/-- Places a component and fills it. Answers the cells of the result, as placing and as filling names it. -/
def build (p : Part) (d : Circuit) : Except Fault ((Variable × Variable) × Circuit) := do
  let (placed, d) ← p.component.place d p.input p.row
  let (filled, table) ← p.component.assign d.table p.input p.row
  .ok ((placed, filled), { d with table })

end Part

/-- Builds parts one after the other. -/
def Circuit.assemble (d : Circuit) : List Part → Except Fault (List (Variable × Variable) × Circuit)
  | [] => .ok ([], d)
  | p :: rest => do
    let (cells, d) ← p.build d
    let (all, d) ← d.assemble rest
    .ok (cells :: all, d)

/-- The gates of parts, as often as they occur. -/
def gatesOf (parts : List Part) : List (List Expr) := parts.flatMap (·.component.gates)

def lookupsOf (parts : List Part) : List (String × List Expr) := parts.flatMap (·.component.lookups)

/-- The values of the cells when the results of parts are what they are to be. -/
def outcome (read : Variable → Scalar) (parts : List Part) : Variable → Scalar :=
  parts.foldl (fun read p => Function.update read p.result (p.compute read)) read

/-- What a part may read: cells of the table that are given, and results of earlier parts. -/
def Available (t : Assignment) (done : List Part) (v : Variable) : Prop :=
  (v.relative = false ∧ (v.kind = .publicInput ∨ v.kind = .constant) ∧ t.Has v) ∨ ∃ q ∈ done, v = q.result

/-- A part can be built after others: it has distinct columns and rows that exist, apart from theirs, as many inputs
    as it needs, all of them available, and if it is looked up they are in the range of its table. -/
structure Part.Follows (served : Component → Nat → Prop) (t : Assignment) (done : List Part) (p : Part) : Prop where
  distinct : p.component.columns.Nodup
  width : ∀ i ∈ p.component.columns, i < t.width .witness
  rows : p.row + p.component.rows ≤ Variable.rowLimit
  arity : p.component.checkInput p.input = .ok ()
  apart : ∀ q ∈ done, q.row + q.component.rows ≤ p.row ∨ p.row + p.component.rows ≤ q.row
  inputs : ∀ v ∈ p.inputs, Available t done v
  range : p.component.IsArithmetic ∨
    ∃ bound, served p.component bound ∧ ∀ v ∈ p.inputs, (outcome t.read done v).val < bound

variable {served : Component → Nat → Prop} {c d : Circuit} {parts done rest : List Part} {p q : Part}

theorem gates_subset (hp : p ∈ parts) : p.component.gates ⊆ gatesOf parts := fun _ hg =>
  List.mem_flatMap.mpr ⟨p, hp, hg⟩

theorem lookups_subset (hp : p ∈ parts) : p.component.lookups ⊆ lookupsOf parts := fun _ hl =>
  List.mem_flatMap.mpr ⟨p, hp, hl⟩

theorem outcome_concat (read : Variable → Scalar) (done : List Part) (p : Part) :
    outcome read (done ++ [p]) =
      Function.update (outcome read done) p.result (p.compute (outcome read done)) := by
  rw [outcome, List.foldl_append]
  rfl

theorem Available.mono {t : Assignment} {done done' : List Part} {v : Variable} (h : Available t done v)
    (hsub : done ⊆ done') : Available t done' v :=
  h.imp id fun ⟨q, hq, hv⟩ => ⟨q, hsub hq, hv⟩

/-- Parts in rows apart from one another have no cell in common. -/
theorem not_owns_of_apart (h : q.row + q.component.rows ≤ p.row ∨ p.row + p.component.rows ≤ q.row)
    {k : ColumnKind} {i r : Nat} (hq : q.Owns k i r) : ¬ p.Owns k i r := by
  rintro ⟨-, -, hlo, hhi⟩
  obtain ⟨-, -, hlo', hhi'⟩ := hq
  omega

namespace Part.Follows
variable {t : Assignment}

/-- What a part may read lies outside of it. -/
theorem outside_available (h : p.Follows served t done) {v : Variable} (hv : Available t done v) {r : Nat}
    (hr : v.position = .row r) : ¬ p.Owns v.kind v.index r := by
  rcases hv with ⟨-, hkind, -⟩ | ⟨q, hq, rfl⟩
  · rintro ⟨hwitness, -⟩
    rcases hkind with hkind | hkind <;> cases hkind.symm.trans hwitness
  · obtain rfl := Position.row.inj hr
    exact not_owns_of_apart (h.apart q hq) (q.component.owns_result q.row)

theorem kind_available {v : Variable} (hv : Available t done v) : v.kind ≠ .selector := by
  rcases hv with ⟨-, hkind, -⟩ | ⟨q, -, rfl⟩
  · rcases hkind with hkind | hkind <;> exact fun h => nomatch hkind.symm.trans h
  · exact fun h => nomatch h

/-- A part that follows others fits into a table of the same width, if the others fit. -/
theorem fits (h : p.Follows served t done) (hdone : ∀ q ∈ done, ∃ earlier, q.Follows served t earlier)
    {t' : Assignment} (hwidth : ∀ k, t'.width k = t.width k) : p.component.Fits t' p.input p.row where
  distinct := h.distinct
  width i hi := hwidth .witness ▸ h.width i hi
  rows := h.rows
  arity := h.arity
  inputs v hv := by
    rw [Assignment.Has, hwidth]
    refine ⟨?_, kind_available (h.inputs v hv), ?_⟩
    · rcases h.inputs v hv with ⟨habs, -⟩ | ⟨q, -, rfl⟩
      · exact habs
      · rfl
    · rcases h.inputs v hv with ⟨-, -, hhas⟩ | ⟨q, hq, rfl⟩
      · exact hhas
      · obtain ⟨earlier, hq⟩ := hdone q hq
        exact hq.width _ (q.component.owns_result q.row).2.1
  outside v hv r hr := h.outside_available (h.inputs v hv) hr

end Part.Follows

/-! ### Where a run starts -/

/-- A circuit to start from, and the lookup components that it serves: none, or after packing a catalogue those that
    have their tables in it. -/
inductive Prepared : Circuit → (Component → Nat → Prop) → Circuit → Prop where
  | plain (c : Circuit) : Prepared c (fun _ _ => False) c
  | packed {l : Catalogue} {packing : Packing} {c packed : Circuit} {columns : List Nat} {usable n : Nat} (hl : l.Built)
    (hnodup : columns.Nodup) (hpack : l.pack packing c columns usable = .ok (packed, .ok n)) : Prepared c (Served l) packed

/-- The tables of components that are served list their tuples for inputs in range. -/
def Stocked (served : Component → Nat → Prop) (c : Circuit) : Prop :=
  ∀ component bound, served component bound → ∀ lookup ∈ component.lookups, ∃ id target,
    c.system.reserved.get? lookup.1 = some id ∧ c.system.targets.get? id = some target ∧
    (∀ option ∈ target.options, ∀ v ∈ option, v.kind = .constant ∧ c.table.Has v) ∧
    ∀ (input : component.Input) (read : Variable → Scalar), (∀ v ∈ component.inputs input, (read v).val < bound) →
      c.table.Lists target (component.tuple read input)

theorem Prepared.stocked {c₀ : Circuit} (h : Prepared c₀ served c) : Stocked served c := by
  cases h with
  | plain => exact fun _ _ h => h.elim
  | packed hl hnodup hpack =>
    intro component bound hserved lookup hlookup
    obtain ⟨id, target, hid, htarget, hlisted⟩ := listed_of_pack hl hnodup hpack hserved lookup hlookup
    exact ⟨id, target, hid, htarget, hlisted.options, fun input read hread => hlisted.all _ (hserved.admitted hread)⟩

theorem Prepared.bare {c₀ : Circuit} (h : Prepared c₀ served c) (hbare : c₀.system.Bare) : c.system.Bare := by
  cases h with
  | plain => exact hbare
  | packed hl hnodup hpack => exact bare_of_pack hl hbare hnodup hpack

/-! ### The invariant of a run -/

/-- A circuit after some of the parts are built, from a circuit `c` on. -/
structure Assembled (c : Circuit) (parts done : List Part) (d : Circuit) : Prop where
  standing : d.Standing
  counted : d.system.Counted c.system.nextSelector
  adds : c.system.Adds d.system (gatesOf parts) (lookupsOf parts) fun _ => True
  width : ∀ k, d.table.width k = c.table.width k
  constant : ∀ i r, d.table.cell .constant i r = c.table.cell .constant i r
  marked : ∀ selector r, c.table.isOn selector r → d.table.isOn selector r
  reads : ∀ k i r, d.Reads k i r → (k = .publicInput ∨ k = .constant) ∨ ∃ q ∈ done, q.Owns k i r
  values : ∀ v, Available c.table done v → d.table.value v = .ok (outcome c.table.read done v)
  results : ∀ q ∈ done, d.table.value q.result = .ok (q.compute d.table.read)

theorem assembled_nil (hbare : c.system.Bare)
    (hfresh : ∀ selector row, c.system.nextSelector ≤ selector → c.table.cell .selector selector row = 0) :
    Assembled c parts [] c := by
  obtain ⟨hstanding, hnothing⟩ := Circuit.standing_of_bare hbare hfresh
  refine ⟨hstanding, .of_bare hbare, .refl .., fun _ => rfl, fun _ _ => rfl, fun _ _ h => h,
    fun k i r h => absurd h (hnothing k i r), fun v hv => ?_, fun q hq => absurd hq List.not_mem_nil⟩
  rcases hv with ⟨habs, -, hhas⟩ | ⟨q, hq, -⟩
  · have hvalue := Assignment.value_eq_seen hhas habs 0
    rw [hvalue, outcome, List.foldl_nil, Assignment.read_eq hvalue]
  · exact absurd hq List.not_mem_nil

theorem lookups_of_isArithmetic : {component : Component} → component.IsArithmetic → component.lookups = []
  | addition _, _ => rfl
  | multiplication _, _ => rfl
  | runningSum .., _ => rfl

namespace Assembled

/-- A part whose lookups are stocked is answered when its turn comes. -/
theorem answered (h : Assembled c parts done d) (hstocked : Stocked served c) (hp : p.Follows served c.table done) :
    p.component.Answered d p.input := by
  intro lookup hlookup
  rcases hp.range with harith | ⟨bound, hserved, hrange⟩
  · rw [lookups_of_isArithmetic harith] at hlookup
    exact absurd hlookup List.not_mem_nil
  · obtain ⟨id, target, hid, htarget, hconst, hlists⟩ := hstocked _ _ hserved lookup hlookup
    have hread : ∀ v ∈ p.inputs, d.table.read v = outcome c.table.read done v := fun v hv =>
      Assignment.read_eq (h.values v (hp.inputs v hv))
    refine ⟨id, target, h.adds.reserved ▸ hid, h.adds.targets ▸ htarget, fun option ho v hv => ⟨(hconst option ho v hv).1, ?_⟩, ?_⟩
    · rw [Assignment.Has, h.width]
      exact (hconst option ho v hv).2
    · refine (hlists p.input d.table.read fun v hv => hread v hv ▸ hrange v hv).mono
        (fun option ho v hv => (hconst option ho v hv).1) h.constant (h.marked _)

/-- There is a column for every selector that placing the next part hands out. -/
theorem room (h : Assembled c parts done d) (hbare : c.system.Bare) (hp : p ∈ parts)
    (hroom : c.system.nextSelector + (gatesOf parts).dedup.length +
      (lookupsOf parts).dedup.length ≤ c.table.width .selector)
    {selectors : List Nat} {system : System} (hregister : p.component.register d.system = .ok (selectors, system)) :
    system.nextSelector ≤ d.table.width .selector := by
  have hadds := adds_register hregister (gates_subset hp) (lookups_subset hp) h.adds
  have hnext := (counted_register hregister h.counted).next_le hbare hadds
  have hwidth := h.width .selector
  omega

/-! The next part is built: what each field of the invariant becomes when it is placed and filled. -/

section Step
variable {output : Variable} {placed : Circuit} {t' : Assignment} (h : Assembled c parts done d)
  (hp : p.Follows served c.table done) (hplace : p.component.place d p.input p.row = .ok (output, placed))
  (hfilled : Filled p.component placed.table t' p.input p.row)

include h hp in
/-- The part writes no cell that the circuit reads. -/
theorem free {k : ColumnKind} {i r : Nat} (hreads : d.Reads k i r) : k ≠ .selector ∧ ¬ p.Owns k i r := by
  rcases h.reads k i r hreads with hkind | ⟨q, hq, howns⟩
  · rcases hkind with rfl | rfl <;> exact ⟨(fun hk => nomatch hk), fun howns => nomatch howns.1⟩
  · exact ⟨(fun hk => nomatch hk.symm.trans howns.1), not_owns_of_apart (hp.apart q hq) howns⟩

include hp hplace hfilled in
/-- What was available keeps its value. -/
theorem value_available {v : Variable} (hv : Available c.table done v) : t'.value v = d.table.value v :=
  value_assign hplace hfilled (Part.Follows.kind_available hv) fun _ hr => hp.outside_available hv hr

include hp hplace hfilled in
theorem compute_available (hq : ∀ v ∈ q.inputs, Available c.table done v) :
    q.compute t'.read = q.compute d.table.read :=
  compute_congr fun v hv => by rw [Assignment.read, Assignment.read, value_available hp hplace hfilled (hq v hv)]

include h hp hplace hfilled in
theorem reads_build (hfits : p.component.Fits d.table p.input p.row) {k : ColumnKind} {i r : Nat}
    (hreads : Circuit.Reads ⟨placed.system, t'⟩ k i r) :
    (k = .publicInput ∨ k = .constant) ∨ ∃ q ∈ done ++ [p], q.Owns k i r := by
  rcases reads_assign hfits hplace hfilled h.standing hreads with hold | howns | ⟨v, hv, rfl, rfl, hr⟩
  · exact (h.reads k i r hold).imp id fun ⟨q, hq, howns⟩ => ⟨q, List.mem_append_left _ hq, howns⟩
  · exact Or.inr ⟨p, by simp, howns⟩
  · rcases hp.inputs v hv with ⟨-, hkind, -⟩ | ⟨q, hq, rfl⟩
    · exact Or.inl hkind
    · obtain rfl := Option.some.inj hr
      exact Or.inr ⟨q, List.mem_append_left _ hq, q.component.owns_result q.row⟩

include h hp hplace hfilled in
theorem values_build (hresult : t'.value p.result = .ok (p.compute d.table.read)) {v : Variable}
    (hv : Available c.table (done ++ [p]) v) : t'.value v = .ok (outcome c.table.read (done ++ [p]) v) := by
  rw [outcome_concat]
  by_cases hnew : v = p.result
  · have hsame : p.compute d.table.read = p.compute (outcome c.table.read done) := compute_congr fun v hv =>
      Assignment.read_eq (h.values v (hp.inputs v hv))
    rw [hnew, Function.update_self, ← hsame]
    exact hresult
  · have hold : Available c.table done v := by
      refine hv.imp id fun ⟨q, hq, hvq⟩ => ⟨q, (List.mem_append.mp hq).resolve_right fun hq => hnew ?_, hvq⟩
      rw [hvq, List.mem_singleton.mp hq]
    rw [Function.update_of_ne hnew]
    exact (value_available hp hplace hfilled hold).trans (h.values v hold)

include h hp hplace hfilled in
theorem results_build (hdone : ∀ q ∈ done, ∃ earlier ⊆ done, q.Follows served c.table earlier)
    (hresult : t'.value p.result = .ok (p.compute d.table.read)) (hq : q ∈ done ++ [p]) :
    t'.value q.result = .ok (q.compute t'.read) := by
  rcases List.mem_append.mp hq with hq | hq
  · obtain ⟨earlier, hsub, hfollows⟩ := hdone q hq
    rw [compute_available hp hplace hfilled fun v hv => (hfollows.inputs v hv).mono hsub]
    exact (value_available hp hplace hfilled (Or.inr ⟨q, hq, rfl⟩)).trans (h.results q hq)
  · obtain rfl := List.mem_singleton.mp hq
    rw [compute_available hp hplace hfilled hp.inputs]
    exact hresult

include h in
/-- The next part is built, and the invariant is kept. -/
theorem build (hp : p.Follows served c.table done) (hbare : c.system.Bare) (hstocked : Stocked served c)
    (hmem : p ∈ parts) (hdone : ∀ q ∈ done, ∃ earlier ⊆ done, q.Follows served c.table earlier)
    (hroom : c.system.nextSelector + (gatesOf parts).dedup.length +
      (lookupsOf parts).dedup.length ≤ c.table.width .selector) :
    ∃ d', p.build d = .ok ((p.result, p.result), d') ∧ Assembled c parts (done ++ [p]) d' := by
  have hfits : p.component.Fits d.table p.input p.row :=
    hp.fits (fun q hq => (hdone q hq).imp fun _ => And.right) h.width
  have hanswered := h.answered hstocked hp
  obtain ⟨placed, hplace⟩ := exists_place h.standing.tidy hfits.seated
    (fun lookup hl => (hanswered lookup hl).imp fun _ ⟨_, hid, _⟩ => hid)
    (fun selectors system => h.room hbare hmem hroom)
  obtain ⟨t', hassign, hfilled⟩ := exists_assign (hfits.place hplace) (output_eq_ok hfits.rows)
  -- The part computed its result after it was placed, which changed none of its inputs.
  have hresult : t'.value p.result = .ok (p.compute d.table.read) := by
    have houtput := hfilled.output _ (output_eq_ok hfits.rows)
    rwa [compute_congr fun v hv => read_place hplace (hfits.inputs v hv).2.1] at houtput
  have hadds : d.system.Adds placed.system (gatesOf parts) (lookupsOf parts) fun _ => True :=
    (adds_place hplace).mono (gates_subset hmem) (lookups_subset hmem) fun _ _ => trivial
  have hcounted := counted_place hplace h.counted
  have hconstant : ∀ i r, t'.cell .constant i r = d.table.cell .constant i r := fun i r =>
    cell_assign hplace hfilled (fun hk => nomatch hk) fun howns => nomatch howns.1
  refine ⟨⟨placed.system, t'⟩, bind_eq_ok.mpr ⟨_, hplace, bind_eq_ok.mpr ⟨_, hassign, rfl⟩⟩, ?_⟩
  exact {
    standing := standing_assign hfits hplace hfilled h.standing (fun _ _ _ => h.free hp) hanswered
    counted := hcounted
    adds := h.adds.trans hadds
    width k := (width_assign hplace hfilled k).trans (h.width k)
    constant i r := (hconstant i r).trans (h.constant i r)
    marked selector r hon := isOn_assign hfilled selector r ▸ isOn_place hplace (h.marked selector r hon)
    reads _ _ _ := h.reads_build hp hplace hfilled hfits
    values _ := h.values_build hp hplace hfilled hresult
    results _ := h.results_build hp hplace hfilled hdone hresult }

end Step

/-- A run over the rest of the parts. -/
theorem assemble (h : Assembled c parts done d) (hbare : c.system.Bare) (hstocked : Stocked served c)
    (hparts : ∀ done p rest, parts = done ++ p :: rest → p.Follows served c.table done)
    (hroom : c.system.nextSelector + (gatesOf parts).dedup.length + (lookupsOf parts).dedup.length ≤
      c.table.width .selector) (hsplit : parts = done ++ rest) :
    ∃ c', d.assemble rest = .ok (rest.map fun p => (p.result, p.result), c') ∧ Assembled c parts parts c' := by
  induction rest generalizing done d with
  | nil =>
    obtain rfl : parts = done := by simpa using hsplit
    exact ⟨d, rfl, h⟩
  | cons p rest ih =>
    have hdone : ∀ q ∈ done, ∃ earlier ⊆ done, q.Follows served c.table earlier := by
      intro q hq
      obtain ⟨earlier, later, rfl⟩ := List.append_of_mem hq
      exact ⟨earlier, List.subset_append_left .., hparts earlier q (later ++ p :: rest) (by simpa using hsplit)⟩
    obtain ⟨d', hbuild, h'⟩ := h.build (hparts done p rest hsplit) hbare hstocked (hsplit ▸ by simp) hdone hroom
    obtain ⟨c', hrest, hdone'⟩ := ih h' (by simpa using hsplit)
    exact ⟨c', bind_eq_ok.mpr ⟨_, hbuild, bind_eq_ok.mpr ⟨_, hrest, rfl⟩⟩, hdone'⟩

end Assembled

/-! ### Completeness -/

/-- A run over parts each of which follows those before it ends well: placing and filling name the same cell of the
    result, it holds what the component computes from its inputs, and the circuit is satisfied. -/
theorem assemble_complete {c₀ : Circuit} (hbare : c₀.system.Bare) (hprepared : Prepared c₀ served c)
    (hfresh : ∀ selector row, c.system.nextSelector ≤ selector → c.table.cell .selector selector row = 0)
    (hroom : c.system.nextSelector + (gatesOf parts).dedup.length + (lookupsOf parts).dedup.length ≤
      c.table.width .selector)
    (hparts : ∀ done p rest, parts = done ++ p :: rest → p.Follows served c.table done) :
    ∃ c', c.assemble parts = .ok (parts.map fun p => (p.result, p.result), c') ∧
      (∀ p ∈ parts, c'.table.value p.result = .ok (p.compute c'.table.read)) ∧
      c'.system.firstViolation c'.table = .ok none := by
  have hbare' := hprepared.bare hbare
  obtain ⟨c', hrun, h⟩ := (assembled_nil hbare' hfresh).assemble hbare' hprepared.stocked hparts hroom rfl
  exact ⟨c', hrun, h.results, h.standing.firstViolation⟩

/-- What holds of the elements of a list after those before them, element by element. -/
theorem forall_split_cons {α : Type} {P : List α → α → Prop} {a : α} {l : List α} (h : P [] a)
    (hl : ∀ done b rest, l = done ++ b :: rest → P (a :: done) b) :
    ∀ done b rest, a :: l = done ++ b :: rest → P done b := by
  intro done b rest he
  cases done with
  | nil =>
    obtain ⟨rfl, -⟩ := List.cons_eq_cons.mp he
    exact h
  | cons a' done =>
    obtain ⟨rfl, hrest⟩ := List.cons_eq_cons.mp he
    exact hl done b rest hrest

/-- A sum of two public inputs, a check that it is below four, and a running sum that goes on from it. -/
theorem assemble_three_parts :
    let c₀ : Circuit := ⟨.empty, ⟨#[#[], #[], #[]], #[#[]], #[#[1, 2]], #[#[], #[], #[], #[], #[]]⟩⟩
    let x : Variable := ⟨.publicInput, 0, .row 0⟩
    let y : Variable := ⟨.publicInput, 0, .row 1⟩
    let z : Variable := ⟨.witness, 2, .row 0⟩
    let parts : List Part := [⟨.addition ⟨0, 1, 2⟩, (x, y), 0⟩, ⟨.rangeOf 0 2 fullName, z, 1⟩,
      ⟨.runningSum ⟨0, 1, 2⟩ 2 (by decide), [z, x], 2⟩]
    ∃ c c', Catalogue.fours.pack .vertical c₀ [0] 0 = .ok (c, .ok 5) ∧
      c.assemble parts = .ok (parts.map fun p => (p.result, p.result), c') ∧
      (∀ p ∈ parts, c'.table.value p.result = .ok (p.compute c'.table.read)) ∧
      c'.system.firstViolation c'.table = .ok none := by
  intro c₀ x y z parts
  let system : System := { System.empty with
    targets := ⟨[(1, ⟨0, 1, [[.constant 0 0]]⟩)], by decide⟩
    reserved := ⟨[(join (rangeName 2) fullName, 1)], by decide⟩
    nextSelector := 1 }
  let c : Circuit := ⟨system, ⟨#[#[], #[], #[]], #[#[0, 0, 1, 2, 3]], #[#[1, 2]], #[#[0, 1, 1, 1, 1], #[], #[], #[], #[]]⟩⟩
  have hpack : Catalogue.fours.pack .vertical c₀ [0] 0 = .ok (c, .ok 5) := by cbv
  have hfresh : ∀ selector row, 1 ≤ selector → c.table.cell .selector selector row = 0 :=
    fun _ _ => Assignment.cell_of_empty (by decide)
  have hserved : Served .fours (.rangeOf 0 2 fullName) 4 := .full (t := Lookup.rangeOf 2) rfl rfl (by decide)
  have hparts : ∀ done p rest, parts = done ++ p :: rest → p.Follows (Served .fours) c.table done := by
    refine forall_split_cons ?_ (forall_split_cons ?_ (forall_split_cons ?_ fun _ _ _ he => by simp at he))
    · refine ⟨by decide, by decide, by decide, rfl, fun _ h => absurd h List.not_mem_nil, fun v hv => ?_, .inl trivial⟩
      rcases List.mem_pair.mp hv with rfl | rfl <;> exact .inl ⟨rfl, .inl rfl, by decide⟩
    · refine ⟨by decide, by decide, by decide, rfl, fun q hq => ?_, fun v hv => ?_, .inr ⟨4, hserved, fun v hv => ?_⟩⟩
      · obtain rfl := List.mem_singleton.mp hq
        decide
      · obtain rfl := List.mem_singleton.mp hv
        exact .inr ⟨_, List.mem_singleton_self _, rfl⟩
      · obtain rfl := List.mem_singleton.mp hv
        decide
    · refine ⟨by decide, by decide, by decide, rfl, fun q hq => ?_, fun v hv => ?_, .inl trivial⟩
      · rcases List.mem_pair.mp hq with rfl | rfl <;> decide
      · rcases List.mem_pair.mp hv with rfl | rfl
        · exact .inr ⟨_, List.mem_cons_self, rfl⟩
        · exact .inl ⟨rfl, .inl rfl, by decide⟩
  obtain ⟨c', hrun, hresults, hsat⟩ := assemble_complete ⟨rfl, rfl, rfl⟩ (.packed Catalogue.built_fours (by decide) hpack) hfresh
    (by decide) hparts
  exact ⟨c, c', hpack, hrun, hresults, hsat⟩

/-- Packed into a constant column that is given twice, the second half of a table of four numbers overwrites the first
    one, and a check of the number one is refused. And a running sum of one term cannot be built without inputs. -/
theorem unsatisfied_of_repeated_column :
    let c₀ : Circuit := ⟨.empty, ⟨#[#[], #[], #[]], #[#[]], #[#[1]], #[#[], #[]]⟩⟩
    let p : Part := ⟨.rangeOf 0 2 fullName, (⟨.publicInput, 0, .row 0⟩ : Variable), 0⟩
    let sum : Part := ⟨.runningSum ⟨0, 1, 2⟩ 1 (by decide), ([] : List Variable), 0⟩
    c₀.system.Bare ∧ Catalogue.fours.Built ∧
      (∃ c c', Catalogue.fours.pack (.horizontal 3) c₀ [0, 0] 0 = .ok (c, .ok 3) ∧ p.Follows (Served .fours) c.table [] ∧
        (∀ selector row, c.system.nextSelector ≤ selector → c.table.cell .selector selector row = 0) ∧
        c.system.nextSelector + (gatesOf [p]).dedup.length + (lookupsOf [p]).dedup.length ≤ c.table.width .selector ∧
        c.assemble [p] = .ok ([(p.result, p.result)], c') ∧
        ∃ v, c'.system.firstViolation c'.table = .ok (some v)) ∧
      c₀.assemble [sum] = .error (.termsMismatch 1 0) := by
  intro c₀ p sum
  let system : System := { System.empty with
    targets := ⟨[(1, ⟨0, 1, [[.constant 0 0], [.constant 0 0]]⟩)], by decide⟩
    reserved := ⟨[(join (rangeName 2) fullName, 1)], by decide⟩
    nextSelector := 1 }
  let c : Circuit := ⟨system, ⟨#[#[], #[], #[]], #[#[0, 2, 3]], #[#[1]], #[#[0, 1, 1], #[]]⟩⟩
  let system' : System := { system with
    lookupGates := [⟨1, [⟨1, [operand 0]⟩]⟩]
    copies := [⟨⟨.publicInput, 0, .row 0⟩, p.result⟩]
    nextSelector := 2 }
  let c' : Circuit :=
    ⟨system', ⟨#[#[1], #[], #[]], #[#[0, 2, 3]], #[#[1]], #[#[0, 1, 1], #[1]]⟩⟩
  have hpack : Catalogue.fours.pack (.horizontal 3) c₀ [0, 0] 0 = .ok (c, .ok 3) := by cbv
  have hp : p.Follows (Served .fours) c.table [] := by
    refine ⟨by decide, by decide, by decide, rfl, fun _ h => absurd h List.not_mem_nil, fun v hv => ?_,
      .inr ⟨4, .full (t := Lookup.rangeOf 2) rfl rfl (by decide), fun v hv => ?_⟩⟩
    · obtain rfl := List.mem_singleton.mp hv
      exact .inl ⟨rfl, .inl rfl, by decide⟩
    · obtain rfl := List.mem_singleton.mp hv
      decide
  have hfresh : ∀ selector row, 1 ≤ selector → c.table.cell .selector selector row = 0 :=
    fun _ _ => Assignment.cell_of_empty (by decide)
  have hrun : c.assemble [p] = .ok ([(p.result, p.result)], c') := by cbv
  have htidy : c'.system.Tidy := ⟨by decide, by decide, by decide⟩
  have hcovered : c'.system.Covered c'.table := by
    refine ⟨by decide, by decide, by decide, fun g hg q hq target ht => ?_⟩
    obtain rfl := List.mem_singleton.mp hg
    obtain rfl := List.mem_singleton.mp hq
    obtain rfl := Option.some.inj ht
    decide
  have hmiss : ¬ c'.table.Lists ⟨0, 1, [[.constant 0 0], [.constant 0 0]]⟩ [1] := by
    rintro ⟨row, hon, option, hoption, hx⟩
    obtain rfl : option = [.constant 0 0] := by simpa using hoption
    have hrow : row < 3 := Assignment.lt_marks_of_isOn hon
    obtain rfl | rfl | rfl : row = 0 ∨ row = 1 ∨ row = 2 := by omega
    · exact absurd hon (by decide)
    · exact absurd hx (by decide)
    · exact absurd hx (by decide)
  obtain ⟨o, hviolation, hearliest⟩ := System.earliest_firstViolation htidy hcovered
  have hbreach : c'.system.Breach c'.table [2, 0, 0, 0] (.lookup 1 0 0 1) :=
    .lookup (g := ⟨1, [⟨1, [operand 0]⟩]⟩) (q := ⟨1, [operand 0]⟩) rfl (by decide) rfl rfl hmiss
  have hsum : c₀.assemble [sum] = .error (.termsMismatch 1 0) := by cbv
  refine ⟨⟨rfl, rfl, rfl⟩, Catalogue.built_fours, ⟨c, c', hpack, hp, hfresh, by decide, hrun, ?_⟩, hsum⟩
  cases o with
  | none => exact absurd hbreach (hearliest _ _)
  | some v => exact ⟨v, hviolation⟩

end Plonkish
