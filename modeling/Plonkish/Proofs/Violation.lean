import Mathlib.Data.List.Lex
import Plonkish.Proofs.Expr.Leaves
import Plonkish.Proofs.Satisfaction
import Plonkish.Proofs.System

/-! Which violation is reported. What is wrong with an assignment is listed by place (`System.Breach`): a
    stage of the check, then the index of the gate, copy or lookup gate, then the row and the index of the
    constraint. Places are compared like words in a dictionary, over all rows there are. If every column
    that a system reads exists, the search ends, finds nothing exactly when the system is met, and else
    finds the breach at the earliest place (`firstViolation_reports_earliest`). -/

namespace Plonkish

/-! ### Searching in order -/

section Search
variable {ε α β : Type} {B : List Nat → β → Prop}

/-- What a search along the places answers: the entry at the earliest one, or none if there is no entry. -/
def Earliest (B : List Nat → β → Prop) : Option β → Prop
  | none => ∀ p v, ¬ B p v
  | some v => ∃ p, B p v ∧ ∀ q w, B q w → p ≤ q

theorem earliest_ite {P : Prop} [Decidable P] {b : β} (h : ∀ p v, B p v ↔ p = [] ∧ v = b ∧ ¬ P) :
    Earliest B (if P then none else some b) := by
  by_cases hP : P
  · rw [if_pos hP]
    exact fun p v hB => ((h p v).mp hB).2.2 hP
  · rw [if_neg hP]
    exact ⟨[], (h [] b).mpr ⟨rfl, rfl, hP⟩, fun q _ _ => not_lt.mp (List.not_lt_nil q)⟩

/-- A search through a list goes in the order of places, if these start with ascending keys of the elements. -/
theorem earliest_findSomeM? {f : α → Except ε (Option β)} {k : α → Nat} {l : List α}
    (hl : l.Pairwise (k · < k ·))
    (hf : ∀ a ∈ l, ∃ o, f a = .ok o ∧ Earliest (fun q => B (k a :: q)) o)
    (hB : ∀ p v, B p v → ∃ a ∈ l, ∃ q, p = k a :: q) : ∃ o, l.findSomeM? f = .ok o ∧ Earliest B o := by
  induction l generalizing B with
  | nil =>
    refine ⟨none, rfl, fun p v h => ?_⟩
    obtain ⟨a, ha, -⟩ := hB p v h
    exact absurd ha List.not_mem_nil
  | cons a l ih =>
    obtain ⟨hlt, hl⟩ := List.pairwise_cons.mp hl
    obtain ⟨o, ho, he⟩ := hf a List.mem_cons_self
    simp only [List.findSomeM?_cons, bind_eq_ok]
    cases o with
    | some v =>
      -- What the head finds comes before all that lies under a later key.
      obtain ⟨p, hp, hmin⟩ := he
      refine ⟨some v, ⟨_, ho, rfl⟩, k a :: p, hp, fun q w hq => ?_⟩
      obtain ⟨b, hb, q, rfl⟩ := hB q w hq
      rcases List.mem_cons.mp hb with rfl | hb
      · exact List.cons_le_cons _ (hmin q w hq)
      · exact le_of_lt (List.Lex.rel (hlt b hb))
    | none =>
      obtain ⟨o, hrest, he⟩ := ih hl (fun b hb => hf b (List.mem_cons_of_mem _ hb)) fun p v h => by
        obtain ⟨b, hb, q, rfl⟩ := hB p v h
        rcases List.mem_cons.mp hb with rfl | hb
        · exact absurd h (he q v)
        · exact ⟨b, hb, q, rfl⟩
      exact ⟨o, ⟨none, ho, hrest⟩, he⟩

theorem findSomeM?_fst (f : α → Except ε (Option β)) (l : List α) (n : Nat) :
    (l.zipIdx n).findSomeM? (fun e => f e.1) = l.findSomeM? f := by
  induction l generalizing n with
  | nil => rfl
  | cons a l ih => simp only [List.zipIdx_cons, List.findSomeM?_cons, ih]

theorem pairwise_zipIdx (l : List α) : l.zipIdx.Pairwise (·.2 < ·.2) := by
  rw [← List.pairwise_map (f := Prod.snd) (R := (· < ·)), List.zipIdx_map_snd]
  exact List.pairwise_lt_range'

/-- A search with the index of each element. -/
theorem earliest_zipIdx {f : α × Nat → Except ε (Option β)} {l : List α}
    (hf : ∀ i a, l[i]? = some a → ∃ o, f (a, i) = .ok o ∧ Earliest (fun q => B (i :: q)) o)
    (hB : ∀ p v, B p v → ∃ i q, i < l.length ∧ p = i :: q) :
    ∃ o, l.zipIdx.findSomeM? f = .ok o ∧ Earliest B o := by
  refine earliest_findSomeM? (pairwise_zipIdx l) (fun e he => hf e.2 e.1 (List.mem_zipIdx_iff_getElem?.mp he)) ?_
  intro p v h
  obtain ⟨i, q, hi, rfl⟩ := hB p v h
  exact ⟨(l[i], i), List.mem_zipIdx_iff_getElem?.mpr (List.getElem?_eq_getElem hi), q, rfl⟩

end Search

namespace System
open Assignment
variable {s : System} {t : Assignment}

theorem tuples_eq_ok {target : Target} (h : ∀ option ∈ target.options, ∀ v ∈ option, t.Has v) :
    ∃ known, t.tuples target = .ok known ∧ ∀ x, x ∈ known ↔ t.Lists target x := by
  obtain ⟨entries, hentries, hmem⟩ := entries_eq_ok h
  have hknown : t.tuples target = .ok (.ofList entries) := map_eq_ok.mpr ⟨entries, hentries, rfl⟩
  exact ⟨_, hknown, fun x => (mem_tuples hknown hentries x).trans (hmem x)⟩

/-! ### What is wrong with an assignment -/

/-- Every column that a constraint, a copy, a query or an option of a queried table names is one of the table. -/
structure Covered (s : System) (t : Assignment) : Prop where
  gates : ∀ g ∈ s.gates, ∀ x ∈ g.constraints, ∀ v ∈ x.leaves, t.Has v
  copies : ∀ c ∈ s.copies, t.Has c.first ∧ t.Has c.second
  queries : ∀ g ∈ s.lookupGates, ∀ q ∈ g.queries, ∀ x ∈ q.input, ∀ v ∈ x.leaves, t.Has v
  options : ∀ g ∈ s.lookupGates, ∀ q ∈ g.queries, ∀ target, s.targets.get? q.table = some target →
    ∀ option ∈ target.options, ∀ v ∈ option, t.Has v

/-- An assignment meets a system: at all rows where a gate is on its constraints vanish, copies have equal
    ends, and at all rows where a lookup gate is on its tuples are in tables that are registered. -/
structure Met (s : System) (t : Assignment) : Prop where
  gates : ∀ g ∈ s.gates, ∀ row, t.isOn g.selector row → ∀ x ∈ g.constraints, x.denote (t.seen row) = 0
  copies : ∀ c ∈ s.copies, t.seen 0 c.first = t.seen 0 c.second
  lookups : ∀ g ∈ s.lookupGates, ∀ row, t.isOn g.tag row → ∀ q ∈ g.queries,
    ∃ target, s.targets.get? q.table = some target ∧ t.Lists target (q.input.map (·.denote (t.seen row)))

/-- What is wrong with an assignment, and at which place. -/
inductive Breach (s : System) (t : Assignment) : List Nat → Violation → Prop where
  | gate {i row j : Nat} {g : Gate} {x : Expr} (hg : s.gates[i]? = some g) (hon : t.isOn g.selector row)
    (hx : g.constraints[j]? = some x) (hne : x.denote (t.seen row) ≠ 0) :
    Breach s t [0, i, row, j] (.gate g.selector row j)
  | copy {i : Nat} {c : Copy} (hc : s.copies[i]? = some c) (hne : t.seen 0 c.first ≠ t.seen 0 c.second) :
    Breach s t [1, i] (.copy c.first c.second)
  | unregistered {i row j : Nat} {g : LookupGate} {q : Query} (hg : s.lookupGates[i]? = some g)
    (hon : t.isOn g.tag row) (hq : g.queries[j]? = some q) (hnone : s.targets.get? q.table = none) :
    Breach s t [2, i, row, j] (.unregistered g.tag q.table)
  | lookup {i row j : Nat} {g : LookupGate} {q : Query} {target : Target} (hg : s.lookupGates[i]? = some g)
    (hon : t.isOn g.tag row) (hq : g.queries[j]? = some q) (htarget : s.targets.get? q.table = some target)
    (hmiss : ¬ t.Lists target (q.input.map (·.denote (t.seen row)))) :
    Breach s t [2, i, row, j] (.lookup g.tag row j q.table)

/-- There is one breach at a place. -/
theorem Breach.unique {p : List Nat} {v w : Violation} (hv : s.Breach t p v) (hw : s.Breach t p w) : v = w := by
  cases hv <;> cases hw <;> simp_all

/-- The system is met exactly when nothing is wrong. -/
theorem met_iff_no_breach : s.Met t ↔ ∀ p v, ¬ s.Breach t p v := by
  constructor
  · intro h p v hb
    cases hb with
    | gate hg hon hx hne => exact hne (h.gates _ (List.mem_of_getElem? hg) _ hon _ (List.mem_of_getElem? hx))
    | copy hc hne => exact hne (h.copies _ (List.mem_of_getElem? hc))
    | unregistered hg hon hq hnone =>
      obtain ⟨target, htarget, -⟩ := h.lookups _ (List.mem_of_getElem? hg) _ hon _ (List.mem_of_getElem? hq)
      cases hnone.symm.trans htarget
    | lookup hg hon hq htarget hmiss =>
      obtain ⟨target, htarget', hin⟩ := h.lookups _ (List.mem_of_getElem? hg) _ hon _ (List.mem_of_getElem? hq)
      obtain rfl := Option.some.inj (htarget.symm.trans htarget')
      exact hmiss hin
  · intro h
    refine ⟨fun g hg row hon x hx => ?_, fun c hc => ?_, fun g hg row hon q hq => ?_⟩
    · obtain ⟨i, hg⟩ := List.getElem?_of_mem hg
      obtain ⟨j, hx⟩ := List.getElem?_of_mem hx
      exact not_not.mp fun hne => h _ _ (.gate hg hon hx hne)
    · obtain ⟨i, hc⟩ := List.getElem?_of_mem hc
      exact not_not.mp fun hne => h _ _ (.copy hc hne)
    · obtain ⟨i, hg⟩ := List.getElem?_of_mem hg
      obtain ⟨j, hq⟩ := List.getElem?_of_mem hq
      cases htarget : s.targets.get? q.table with
      | none => exact absurd (.unregistered hg hon hq htarget) (h _ _)
      | some target => exact ⟨target, rfl, not_not.mp fun hmiss => h _ _ (.lookup hg hon hq htarget hmiss)⟩

/-! ### The stages of the search -/

/-- The constraints of gates, or the queries of lookup gates, are searched gate by gate, at each of the rows
    where the gate is on, and there one by one. -/
theorem earliest_active {γ α : Type} {gates : List γ} {selector : γ → Nat} {items : γ → List α}
    {f : γ → Nat → α × Nat → Except Fault (Option Violation)} {B : List Nat → Violation → Prop}
    (hf : ∀ i g row j x, gates[i]? = some g → t.isOn (selector g) row → (items g)[j]? = some x →
      ∃ o, f g row (x, j) = .ok o ∧ Earliest (fun q => B (i :: row :: j :: q)) o)
    (hB : ∀ p v, B p v → ∃ i g row j x q, gates[i]? = some g ∧ t.isOn (selector g) row ∧
      (items g)[j]? = some x ∧ p = i :: row :: j :: q) :
    ∃ o, (gates.findSomeM? fun g => (t.activeRows (selector g) 0 t.height).findSomeM? fun row =>
      (items g).zipIdx.findSomeM? (f g row)) = .ok o ∧ Earliest B o := by
  rw [← findSomeM?_fst _ _ 0]
  refine earliest_zipIdx (fun i g hg => ?_) fun p v h => ?_
  · -- Under the key of one gate the breaches are those of its own rows.
    have hB' : ∀ p v, B (i :: p) v → ∃ row j x q, t.isOn (selector g) row ∧ (items g)[j]? = some x ∧
        p = row :: j :: q := fun p v h => by
      obtain ⟨_, g', row, j, x, q, hg', hon, hx, he⟩ := hB _ v h
      obtain ⟨rfl, rfl⟩ := List.cons_eq_cons.mp he
      obtain rfl := Option.some.inj (hg.symm.trans hg')
      exact ⟨row, j, x, q, hon, hx, rfl⟩
    refine earliest_findSomeM? (k := id) ?_ (fun row hrow => ?_) fun p v h => ?_
    · rw [activeRows_eq]
      exact List.Pairwise.filter _ List.pairwise_lt_range'
    · refine earliest_zipIdx (fun j x hx => hf i g row j x hg (mem_activeRows_height.mp hrow) hx) fun p v h => ?_
      obtain ⟨_, j, x, q, -, hx, he⟩ := hB' _ v h
      exact ⟨j, q, (List.getElem?_eq_some_iff.mp hx).1, (List.cons_eq_cons.mp he).2⟩
    · obtain ⟨row, j, x, q, hon, -, rfl⟩ := hB' _ v h
      exact ⟨row, mem_activeRows_height.mpr hon, _, rfl⟩
  · obtain ⟨i, g, row, j, x, q, hg, -, -, rfl⟩ := hB p v h
    exact ⟨i, _, (List.getElem?_eq_some_iff.mp hg).1, rfl⟩

theorem earliest_firstGateViolation (hc : s.Covered t) :
    ∃ o, s.firstGateViolation t = .ok o ∧ Earliest (fun q => s.Breach t (0 :: q)) o := by
  refine earliest_active (fun i g row j x hg hon hx => ?_) fun p v h => ?_
  · have hhas := hc.gates g (List.mem_of_getElem? hg) x (List.mem_of_getElem? hx)
    refine ⟨_, bind_eq_ok.mpr ⟨_, Expr.evaluate_eq_denote fun v hv => valueAt_eq_seen (hhas v hv) row, rfl⟩,
      earliest_ite fun p v => ⟨fun h => ?_, fun ⟨hp, hv, hne⟩ => hp ▸ hv ▸ .gate hg hon hx hne⟩⟩
    cases h with
    | gate hg' _ hx' hne =>
      obtain rfl := Option.some.inj (hg.symm.trans hg')
      obtain rfl := Option.some.inj (hx.symm.trans hx')
      exact ⟨rfl, rfl, hne⟩
  · cases h with
    | gate hg hon hx _ => exact ⟨_, _, _, _, _, _, hg, hon, hx, rfl⟩

theorem earliest_copyViolations (hs : s.Tidy) (hc : s.Covered t) :
    ∃ o, s.copies.findSomeM? t.copyViolation = .ok o ∧ Earliest (fun q => s.Breach t (1 :: q)) o := by
  rw [← findSomeM?_fst _ _ 0]
  refine earliest_zipIdx (fun i c hi => ?_) fun p v h => ?_
  · obtain ⟨hfirst, hsecond⟩ := hc.copies c (List.mem_of_getElem? hi)
    obtain ⟨habs, habs'⟩ := hs.ends c (List.mem_of_getElem? hi)
    refine ⟨_, bind_eq_ok.mpr ⟨_, value_eq_seen hfirst habs 0,
        bind_eq_ok.mpr ⟨_, value_eq_seen hsecond habs' 0, rfl⟩⟩,
      earliest_ite fun p v => ⟨fun h => ?_, fun ⟨hp, hv, hne⟩ => hp ▸ hv ▸ .copy hi hne⟩⟩
    cases h with
    | copy hi' hne =>
      obtain rfl := Option.some.inj (hi.symm.trans hi')
      exact ⟨rfl, rfl, hne⟩
  · cases h with
    | copy hi _ => exact ⟨_, _, (List.getElem?_eq_some_iff.mp hi).1, rfl⟩

theorem earliest_firstLookupViolation (hc : s.Covered t) :
    ∃ o, s.firstLookupViolation t = .ok o ∧ Earliest (fun q => s.Breach t (2 :: q)) o := by
  refine earliest_active (fun i g row j q hg hon hq => ?_) fun p v h => ?_
  · dsimp only
    rw [lookup_answers]
    cases htarget : s.targets.get? q.table with
    | none =>
      -- A table that is not registered is the breach, and nothing comes before it.
      refine ⟨_, rfl, [], .unregistered hg hon hq htarget, fun q _ _ => not_lt.mp (List.not_lt_nil q)⟩
    | some target =>
      obtain ⟨known, hknown, hmem⟩ := tuples_eq_ok
        (hc.options g (List.mem_of_getElem? hg) q (List.mem_of_getElem? hq) target htarget)
      have hhas := hc.queries g (List.mem_of_getElem? hg) q (List.mem_of_getElem? hq)
      have hinput : q.input.mapM (·.evaluate (t.valueAt · row)) = .ok (q.input.map (·.denote (t.seen row))) := by
        rw [mapM_eq_ok, List.map_map]
        exact List.map_congr_left fun x hx =>
          Expr.evaluate_eq_denote fun v hv => valueAt_eq_seen (hhas x hx v hv) row
      refine ⟨_, bind_eq_ok.mpr ⟨known, hknown, bind_eq_ok.mpr ⟨_, hinput, rfl⟩⟩,
        earliest_ite fun p v => ⟨fun h => ?_, fun ⟨hp, hv, hmiss⟩ =>
          hp ▸ hv ▸ .lookup hg hon hq htarget fun hin => hmiss ((hmem _).mpr hin)⟩⟩
      -- At this place there is no other gate, query or table, so the breach is the tuple that is missing.
      cases h with
      | unregistered hg' _ hq' hnone =>
        obtain rfl := Option.some.inj (hg.symm.trans hg')
        obtain rfl := Option.some.inj (hq.symm.trans hq')
        cases hnone.symm.trans htarget
      | lookup hg' _ hq' htarget' hmiss =>
        obtain rfl := Option.some.inj (hg.symm.trans hg')
        obtain rfl := Option.some.inj (hq.symm.trans hq')
        obtain rfl := Option.some.inj (htarget.symm.trans htarget')
        exact ⟨rfl, rfl, fun hin => hmiss ((hmem _).mp hin)⟩
  · cases h with
    | unregistered hg hon hq _ => exact ⟨_, _, _, _, _, _, hg, hon, hq, rfl⟩
    | lookup hg hon hq _ _ => exact ⟨_, _, _, _, _, _, hg, hon, hq, rfl⟩

/-- The search is through three stages, one after the other. -/
theorem firstViolation_eq (s : System) (t : Assignment) : s.firstViolation t =
    [s.firstGateViolation t, s.copies.findSomeM? t.copyViolation, s.firstLookupViolation t].findSomeM? id := by
  unfold firstViolation
  simp only [List.findSomeM?_cons, List.findSomeM?_nil, id_eq]
  refine bind_congr fun v => ?_
  cases v with
  | some v => rfl
  | none =>
    refine bind_congr fun w => ?_
    cases w with
    | some w => rfl
    | none =>
      cases s.firstLookupViolation t with
      | error e => rfl
      | ok o => cases o <;> rfl

theorem earliest_firstViolation (hs : s.Tidy) (hc : s.Covered t) :
    ∃ o, s.firstViolation t = .ok o ∧ Earliest (s.Breach t) o := by
  rw [firstViolation_eq, ← findSomeM?_fst _ _ 0]
  refine earliest_zipIdx (fun i stage hi => ?_) fun p v h => ?_
  · match i, hi with
    | 0, rfl => exact earliest_firstGateViolation hc
    | 1, rfl => exact earliest_copyViolations hs hc
    | 2, rfl => exact earliest_firstLookupViolation hc
  · cases h <;> exact ⟨_, _, by simp, rfl⟩

/-! ### The report -/

theorem firstViolation_eq_none_iff_met (hs : s.Tidy) (hc : s.Covered t) :
    s.firstViolation t = .ok none ↔ s.Met t := by
  obtain ⟨o, ho, he⟩ := earliest_firstViolation hs hc
  rw [met_iff_no_breach, ho]
  cases o with
  | none => exact ⟨fun _ => he, fun _ => rfl⟩
  | some v =>
    obtain ⟨p, hp, -⟩ := he
    refine ⟨fun h => ?_, fun h => absurd hp (h p v)⟩
    cases h

/-- Where all columns that a system reads exist, the check of an assignment ends. It finds nothing exactly when
    the system is met, and a violation exactly when that is what is wrong at the earliest place. -/
theorem firstViolation_reports_earliest (hs : s.Built) (hc : s.Covered t) :
    (∃ o, s.firstViolation t = .ok o) ∧ (s.firstViolation t = .ok none ↔ s.Met t) ∧
      ∀ v, s.firstViolation t = .ok (some v) ↔ ∃ p, s.Breach t p v ∧ ∀ q w, s.Breach t q w → p ≤ q := by
  obtain ⟨o, ho, he⟩ := earliest_firstViolation hs.tidy hc
  refine ⟨⟨o, ho⟩, firstViolation_eq_none_iff_met hs.tidy hc, fun v => ?_⟩
  rw [ho]
  constructor
  · intro h
    obtain rfl := Except.ok.inj h
    exact he
  · rintro ⟨p, hp, hmin⟩
    cases o with
    | none => exact absurd hp (he p v)
    | some w =>
      obtain ⟨q, hq, hmin'⟩ := he
      obtain rfl := le_antisymm (hmin' p v hp) (hmin q w hq)
      rw [hq.unique hp]

/-- A product that is wrong at the rows one and three, a copy between unequal cells, and a query of a table that
    was not registered: the gate is reported, at the row one. -/
theorem firstViolation_of_three_breaches :
    let cell (column : Nat) : Expr := .var (.witness column 0)
    let product : List Expr := [.sub (.mul (cell 0) (cell 1)) (cell 2)]
    let first : Variable := ⟨.witness, 0, .row 0⟩
    let second : Variable := ⟨.witness, 1, .row 0⟩
    let gates : System := { System.empty with gates := [⟨0, product⟩], nextSelector := 1 }
    let lookups : System := { gates with lookupGates := [⟨1, [⟨7, [cell 2]⟩]⟩], nextSelector := 2 }
    let s : System := { lookups with copies := [⟨first, second⟩] }
    let t : Assignment := ⟨#[#[2, 3, 1, 1], #[5, 4, 1, 1], #[10, 11, 1]], #[], #[], #[#[1, 1, 0, 1], #[1]]⟩
    s.Built ∧ s.Covered t ∧ s.firstViolation t = .ok (some (.gate 0 1 0)) ∧
      s.Breach t [1, 0] (.copy first second) ∧ s.Breach t [2, 0, 0, 0] (.unregistered 1 7) ∧
      ∃ p, s.Breach t p (.gate 0 1 0) ∧ ∀ q w, s.Breach t q w → p ≤ q := by
  intro cell product first second gates lookups s t
  have hgates : System.empty.addGate product = .ok (0, gates) := by cbv
  have hlookups : gates.addLookupGate [⟨7, [cell 2]⟩] = .ok (1, lookups) := by cbv
  have hcopies : lookups.addCopy first second = .ok s := by rfl
  have hbuilt : s.Built := .copy (.lookup (.gate .empty hgates) hlookups) hcopies
  have hcovered : s.Covered t := by
    refine ⟨by decide, by decide, by decide, fun _ _ _ _ _ h => ?_⟩
    cases h
  have hviolation : s.firstViolation t = .ok (some (.gate 0 1 0)) := by rfl
  have hcopy : s.Breach t [1, 0] (.copy first second) := .copy (c := ⟨first, second⟩) rfl (by decide)
  have hquery : s.Breach t [2, 0, 0, 0] (.unregistered 1 7) :=
    .unregistered (g := ⟨1, [⟨7, [cell 2]⟩]⟩) (q := ⟨7, [cell 2]⟩) rfl (by decide) rfl rfl
  exact ⟨hbuilt, hcovered, hviolation, hcopy, hquery,
    ((firstViolation_reports_earliest hbuilt hcovered).2.2 _).mp hviolation⟩

end System
end Plonkish
