import Plonkish.Proofs.Sharing

/-! Who owns which selector. A gate, a lookup gate or a caller that asks for a selector gets the next one of a single
    counter, and nobody gives one back. So in every system that changes lead to, the selectors handed out are the
    numbers up to the counter, each of them to one owner. Gates are told apart by their constraints and lookup gates by
    their queries, so asking for a known one again finds its owner and changes nothing. What a gate or a copy may not
    name is refused before it is added, and is found in none. -/

namespace Plonkish
namespace System
variable {s t : System} {ids : List Nat} {constraints : List Expr} {queries : List Query} {selector : Nat}

/-! ### Systems that changes lead to -/

/-- The systems that changes lead to, from the empty one on, with the selectors that were handed out to callers. -/
inductive Reached : List Nat → System → Prop where
  | empty : Reached [] .empty
  | gate {ids : List Nat} {s t : System} {constraints : List Expr} {selector : Nat} (h : Reached ids s)
    (ht : s.addGate constraints = .ok (selector, t)) : Reached ids t
  | lookup {ids : List Nat} {s t : System} {queries : List Query} {tag : Nat} (h : Reached ids s)
    (ht : s.addLookupGate queries = .ok (tag, t)) : Reached ids t
  | allocate {ids : List Nat} {s t : System} {selector : Nat} (h : Reached ids s) (ht : s.allocate = (selector, t)) :
    Reached (ids ++ [selector]) t
  | copy {ids : List Nat} {s t : System} {first second : Variable} (h : Reached ids s)
    (ht : s.addCopy first second = .ok t) : Reached ids t
  | uncopy {ids : List Nat} {s t : System} {index : Nat} {c : Copy} (h : Reached ids s)
    (ht : s.removeCopy index = .ok (c, t)) : Reached ids t
  | target {ids : List Nat} {s t : System} {id : Nat} {target : Target} (h : Reached ids s)
    (ht : s.register id target = .ok t) : Reached ids t
  | reserve {ids : List Nat} {s : System} (h : Reached ids s) (reserved : SortedMap String Nat) :
    Reached ids (s.setReserved reserved)

/-- An end of a copy: an absolute cell that is no selector. -/
def IsEnd (v : Variable) : Prop := v.relative = false ∧ v.kind ≠ .selector

/-- What a system keeps to while it is changed, where `ids` are the selectors of callers. -/
structure Orderly (ids : List Nat) (s : System) : Prop where
  handed : (s.selectors ++ ids).Perm (List.range s.nextSelector)
  gates : (s.gates.map Gate.constraints).Nodup
  lookups : (s.lookupGates.map LookupGate.queries).Nodup
  operands : ∀ selector ask, s.Registers selector ask → ∀ x ∈ ask.exprs, ∀ v ∈ x.leaves, v.kind ≠ .selector
  ends : ∀ c ∈ s.copies, IsEnd c.first ∧ IsEnd c.second

/-! ### One change -/

namespace Orderly

/-- The next selector goes to a gate or to a caller. -/
theorem handed_next (h : s.Orderly ids) {owned : List Nat}
    (howned : owned.Perm (s.nextSelector :: (s.selectors ++ ids))) : owned.Perm (List.range (s.nextSelector + 1)) := by
  rw [List.range_succ]
  exact (howned.trans (h.handed.cons _)).trans (List.perm_append_singleton _ _).symm

theorem of_eq {s t : System} (h : s.Orderly ids) (hgates : t.gates = s.gates) (hlookups : t.lookupGates = s.lookupGates)
    (hnext : t.nextSelector = s.nextSelector) (hcopies : ∀ c ∈ t.copies, IsEnd c.first ∧ IsEnd c.second) :
    t.Orderly ids where
  handed := by
    rw [selectors, hgates, hlookups, hnext]
    exact h.handed
  gates := hgates ▸ h.gates
  lookups := hlookups ▸ h.lookups
  operands selector ask hask := by
    refine h.operands selector ask ?_
    cases ask with
    | gate constraints => rwa [Registers, hgates] at hask
    | lookup queries => rwa [Registers, hlookups] at hask
  ends := hcopies

/-- What a gate reads is looked at before it is registered. -/
theorem operands_enter (h : s.Orderly ids) (ask : Ask) (ht : s.enter ask = .ok (selector, t)) :
    ∀ old other, t.Registers old other → ∀ x ∈ other.exprs, ∀ v ∈ x.leaves, v.kind ≠ .selector := by
  intro old other hother
  obtain ⟨-, -, ⟨rfl, -⟩ | ⟨-, -, -, hregisters⟩⟩ := enter_cases ht
  · exact h.operands old other hother
  · rcases (hregisters old other).mp hother with hold | ⟨-, rfl⟩
    · exact h.operands old other hold
    · exact operands_of_enter ht

theorem addGate (h : s.Orderly ids) (ht : s.addGate constraints = .ok (selector, t)) : t.Orderly ids := by
  have hoperands := h.operands_enter (.gate constraints) ht
  obtain ⟨rfl, -⟩ | ⟨hnew, rfl, rfl⟩ := addGate_cases ht
  · exact h
  · refine ⟨h.handed_next ((perm_selectors_concat_gate ..).append_right ids), ?_, h.lookups, hoperands, h.ends⟩
    rw [List.map_append, List.map_singleton]
    exact List.concat_eq_append ▸ h.gates.concat hnew

theorem addLookupGate (h : s.Orderly ids) (ht : s.addLookupGate queries = .ok (selector, t)) : t.Orderly ids := by
  have hoperands := h.operands_enter (.lookup queries) ht
  obtain ⟨rfl, -⟩ | ⟨hnew, rfl, rfl⟩ := addLookupGate_cases ht
  · exact h
  · refine ⟨h.handed_next ((perm_selectors_concat_lookupGate ..).append_right ids), h.gates, ?_, hoperands, h.ends⟩
    rw [List.map_append, List.map_singleton]
    exact List.concat_eq_append ▸ h.lookups.concat hnew

theorem allocate (h : s.Orderly ids) (ht : s.allocate = (selector, t)) : t.Orderly (ids ++ [selector]) := by
  obtain ⟨rfl, rfl⟩ := Prod.mk.inj ht
  refine ⟨h.handed_next ?_, h.gates, h.lookups, h.operands, h.ends⟩
  rw [← List.append_assoc]
  exact List.perm_append_singleton _ _

theorem addCopy (h : s.Orderly ids) {first second : Variable} (ht : s.addCopy first second = .ok t) : t.Orderly ids := by
  have hends := exists_addCopy_iff.mp ⟨t, ht⟩
  obtain ⟨-, -, rfl⟩ := addCopy_cases ht
  refine h.of_eq rfl rfl rfl fun c hc => ?_
  rcases List.mem_append.mp hc with hc | hc
  · exact h.ends c hc
  · obtain rfl := List.mem_singleton.mp hc
    exact hends

theorem removeCopy (h : s.Orderly ids) {index : Nat} {c : Copy} (ht : s.removeCopy index = .ok (c, t)) :
    t.Orderly ids := by
  unfold System.removeCopy at ht
  split at ht
  · obtain ⟨-, rfl⟩ := Prod.mk.inj (Except.ok.inj ht)
    exact h.of_eq rfl rfl rfl fun c hc => h.ends c (List.mem_of_mem_eraseIdx hc)
  · cases ht

theorem register (h : s.Orderly ids) {id : Nat} {target : Target} (ht : s.register id target = .ok t) :
    t.Orderly ids := by
  unfold System.register at ht
  split at ht
  · cases ht
  · obtain rfl := Except.ok.inj ht
    exact h.of_eq rfl rfl rfl h.ends

/-! ### Asking again -/

theorem addGate_of_mem (h : s.Orderly ids) {g : Gate} (hg : g ∈ s.gates) :
    s.addGate g.constraints = .ok (g.selector, s) := by
  obtain ⟨selector, t, ht⟩ : ∃ selector t, s.addGate g.constraints = .ok (selector, t) :=
    exists_addGate (h.operands g.selector (.gate g.constraints) hg)
  obtain ⟨rfl, hmem⟩ | ⟨hnew, -⟩ := addGate_cases ht
  · have hsame := List.inj_on_of_nodup_map h.gates hmem hg rfl
    rw [ht, ← hsame]
  · exact absurd (List.mem_map_of_mem hg) hnew

theorem addLookupGate_of_mem (h : s.Orderly ids) {g : LookupGate} (hg : g ∈ s.lookupGates) :
    s.addLookupGate g.queries = .ok (g.tag, s) := by
  obtain ⟨tag, t, ht⟩ : ∃ tag t, s.addLookupGate g.queries = .ok (tag, t) :=
    exists_addLookupGate (h.operands g.tag (.lookup g.queries) hg)
  obtain ⟨rfl, hmem⟩ | ⟨hnew, -⟩ := addLookupGate_cases ht
  · have hsame := List.inj_on_of_nodup_map h.lookups hmem hg rfl
    rw [ht, ← hsame]
  · exact absurd (List.mem_map_of_mem hg) hnew

end Orderly

/-! ### A run of changes -/

theorem Reached.orderly (h : Reached ids s) : s.Orderly ids := by
  induction h with
  | empty => exact ⟨.refl _, List.nodup_nil, List.nodup_nil, fun _ _ hask => absurd hask (not_registers rfl rfl), nofun⟩
  | gate _ ht ih => exact ih.addGate ht
  | lookup _ ht ih => exact ih.addLookupGate ht
  | allocate _ ht ih => exact ih.allocate ht
  | copy _ ht ih => exact ih.addCopy ht
  | uncopy _ ht ih => exact ih.removeCopy ht
  | target _ ht ih => exact ih.register ht
  | reserve _ _ ih => exact ih.of_eq rfl rfl rfl ih.ends

/-- The selectors of gates, lookup gates and callers are all that were handed out, each of them once. A gate or lookup
    gate is registered once and is found when it is asked for again; none of them names a selector, and copies are between
    absolute cells that are no selectors. -/
theorem owners_of_reached (h : Reached ids s) :
    (s.gates.map Gate.selector ++ s.lookupGates.map LookupGate.tag ++ ids).Perm (List.range s.nextSelector) ∧
    (s.gates.map Gate.constraints).Nodup ∧ (s.lookupGates.map LookupGate.queries).Nodup ∧
    (∀ g ∈ s.gates, s.addGate g.constraints = .ok (g.selector, s)) ∧
    (∀ g ∈ s.lookupGates, s.addLookupGate g.queries = .ok (g.tag, s)) ∧
    (∀ g ∈ s.gates, ∀ x ∈ g.constraints, ∀ v ∈ x.leaves, v.kind ≠ .selector) ∧
    (∀ g ∈ s.lookupGates, ∀ q ∈ g.queries, ∀ x ∈ q.input, ∀ v ∈ x.leaves, v.kind ≠ .selector) ∧
    ∀ c ∈ s.copies, ∀ v ∈ [c.first, c.second], v.relative = false ∧ v.kind ≠ .selector := by
  have ho := h.orderly
  refine ⟨ho.handed, ho.gates, ho.lookups, fun g => ho.addGate_of_mem, fun g => ho.addLookupGate_of_mem,
    fun g hg => ho.operands g.selector (.gate g.constraints) hg, fun g hg q hq x hx => ?_, fun c hc => ?_⟩
  · exact ho.operands g.tag (.lookup g.queries) hg x (List.mem_flatMap.mpr ⟨q, hq, hx⟩)
  · obtain ⟨hfirst, hsecond⟩ := ho.ends c hc
    exact List.forall_mem_cons.mpr ⟨hfirst, List.forall_mem_singleton.mpr hsecond⟩

/-- Ten changes, of which one asks for a gate again and one drops the first of two copies, hand out four selectors. -/
theorem owners_of_ten_changes :
    let w (i : Nat) : Variable := ⟨.witness, i, .offset 0⟩
    let at0 (i : Nat) : Variable := ⟨.witness, i, .row 0⟩
    let sum : List Expr := [.sub (.add (.var (w 0)) (.var (w 1))) (.var (w 2))]
    let listed : List Query := [⟨7, [.var (w 2)]⟩]
    let target : Target := ⟨3, 1, [[⟨.constant, 0, .offset 0⟩]]⟩
    let s : System := ⟨[⟨1, sum⟩], [⟨2, listed⟩], [⟨at0 2, at0 0⟩], SortedMap.empty.insert 7 target, .empty, 4⟩
    Reached [0, 3] s ∧ ([1] ++ [2] ++ [0, 3]).Perm (List.range 4) ∧ s.addGate sum = .ok (1, s) ∧
      s.addLookupGate listed = .ok (2, s) := by
  intro w at0 sum listed target s
  let before (copies : List Copy) : System := { s with copies, targets := .empty }
  have hfirst : Reached [0] { System.empty with nextSelector := 1 } := .allocate .empty rfl
  have hgate : Reached [0] { System.empty with gates := s.gates, nextSelector := 2 } :=
    .gate hfirst (by cbv : System.addGate _ sum = .ok (1, _))
  have hlookup : Reached [0] { before [] with nextSelector := 3 } :=
    .lookup hgate (by cbv : System.addLookupGate _ listed = .ok (2, _))
  have hagain : Reached [0] { before [] with nextSelector := 3 } :=
    .gate hlookup (by cbv : System.addGate _ sum = .ok (1, _))
  have hcallers : Reached [0, 3] (before []) := .allocate hagain rfl
  have hcopies : Reached [0, 3] (before [⟨at0 0, at0 1⟩, ⟨at0 2, at0 0⟩]) :=
    .copy (.copy hcallers (by cbv : System.addCopy _ (at0 0) (at0 1) = .ok (before [⟨at0 0, at0 1⟩])))
      (by cbv : System.addCopy _ (at0 2) (at0 0) = .ok _)
  have hcopy : Reached [0, 3] (before s.copies) :=
    .uncopy hcopies (by cbv : System.removeCopy _ 0 = .ok (⟨at0 0, at0 1⟩, _))
  have hreached : Reached [0, 3] s :=
    .target (.reserve hcopy .empty) (by cbv : System.register _ 7 target = .ok _)
  obtain ⟨hhanded, -, -, hgates, hlookups, -⟩ := owners_of_reached hreached
  exact ⟨hreached, hhanded, hgates _ (List.mem_singleton_self _), hlookups _ (List.mem_singleton_self _)⟩

end System
end Plonkish
