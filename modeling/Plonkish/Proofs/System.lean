import Mathlib.Data.List.Dedup
import Mathlib.Data.List.Perm.Subperm
import Plonkish.Proofs.Steps
import Plonkish.System

/-! What the elementary changes of a system keep. Registering a gate answers the selector of a gate with
    those constraints, known before or new, and no change but the removal of a copy takes anything away
    (`Grows`). In every system made by such changes the gates have selectors of their own, all of them
    handed out, and copies are between absolute cells (`Tidy`, `Built.tidy`). Gates are added under
    selectors that are new (`Adds`), one for each list of constraints (`Counted`). -/

namespace Plonkish

theorem Copy.checkEnd_eq_ok {v : Variable} : Copy.checkEnd v = .ok () ↔ v.relative = false ∧ v.kind ≠ .selector := by
  unfold Copy.checkEnd
  split
  · simp_all
  · split <;> simp_all

namespace System

/-- Every gate, lookup gate and copy of a system is still there, in its order, and the tables are the
    same. -/
structure Grows (s t : System) : Prop where
  gates : s.gates <+: t.gates
  lookupGates : s.lookupGates <+: t.lookupGates
  copies : s.copies <+: t.copies
  targets : t.targets = s.targets
  reserved : t.reserved = s.reserved

namespace Grows
variable {s t u : System}

theorem refl (s : System) : Grows s s :=
  ⟨List.prefix_rfl, List.prefix_rfl, List.prefix_rfl, rfl, rfl⟩

theorem trans (h₁ : Grows s t) (h₂ : Grows t u) : Grows s u where
  gates := h₁.gates.trans h₂.gates
  lookupGates := h₁.lookupGates.trans h₂.lookupGates
  copies := h₁.copies.trans h₂.copies
  targets := h₂.targets.trans h₁.targets
  reserved := h₂.reserved.trans h₁.reserved

theorem mem_gates (h : Grows s t) {g : Gate} (hg : g ∈ s.gates) : g ∈ t.gates := h.gates.subset hg

theorem mem_lookupGates (h : Grows s t) {g : LookupGate} (hg : g ∈ s.lookupGates) : g ∈ t.lookupGates :=
  h.lookupGates.subset hg

theorem mem_copies (h : Grows s t) {c : Copy} (hc : c ∈ s.copies) : c ∈ t.copies := h.copies.subset hc

end Grows

variable {s t : System}

theorem not_mem_map_of_find?_eq_none {α β : Type} [DecidableEq β] {f : α → β} {l : List α} {b : β}
    (h : l.find? (f · = b) = none) : b ∉ l.map f := by
  intro hmem
  obtain ⟨a, ha, he⟩ := List.mem_map.mp hmem
  simpa [he] using List.find?_eq_none.mp h a ha

/-- Registering a gate finds one with these constraints, or adds one under the next selector. -/
theorem addGate_cases {constraints : List Expr} {selector : Nat} (h : s.addGate constraints = .ok (selector, t)) :
    (t = s ∧ ⟨selector, constraints⟩ ∈ s.gates) ∨
      (constraints ∉ s.gates.map Gate.constraints ∧ selector = s.nextSelector ∧
        t = { s with gates := s.gates ++ [⟨selector, constraints⟩], nextSelector := s.nextSelector + 1 }) := by
  obtain ⟨-, -, h⟩ := bind_eq_ok.mp h
  split at h
  · rename_i g hg
    obtain ⟨rfl, rfl⟩ := Prod.mk.inj (Except.ok.inj h)
    have hcs : g.constraints = constraints := by simpa using List.find?_some hg
    exact Or.inl ⟨rfl, hcs ▸ List.mem_of_find?_eq_some hg⟩
  · rename_i hnone
    obtain ⟨rfl, rfl⟩ := Prod.mk.inj (Except.ok.inj h)
    exact Or.inr ⟨not_mem_map_of_find?_eq_none hnone, rfl, rfl⟩

theorem addLookupGate_cases {queries : List Query} {tag : Nat} (h : s.addLookupGate queries = .ok (tag, t)) :
    (t = s ∧ ⟨tag, queries⟩ ∈ s.lookupGates) ∨
      (queries ∉ s.lookupGates.map LookupGate.queries ∧ tag = s.nextSelector ∧
        t = { s with lookupGates := s.lookupGates ++ [⟨tag, queries⟩], nextSelector := s.nextSelector + 1 }) := by
  obtain ⟨-, -, h⟩ := bind_eq_ok.mp h
  split at h
  · rename_i g hg
    obtain ⟨rfl, rfl⟩ := Prod.mk.inj (Except.ok.inj h)
    have hqs : g.queries = queries := by simpa using List.find?_some hg
    exact Or.inl ⟨rfl, hqs ▸ List.mem_of_find?_eq_some hg⟩
  · rename_i hnone
    obtain ⟨rfl, rfl⟩ := Prod.mk.inj (Except.ok.inj h)
    exact Or.inr ⟨not_mem_map_of_find?_eq_none hnone, rfl, rfl⟩

/-- A copy is added between absolute cells only. -/
theorem addCopy_cases {first second : Variable} (h : s.addCopy first second = .ok t) :
    first.relative = false ∧ second.relative = false ∧ t = { s with copies := s.copies ++ [⟨first, second⟩] } := by
  obtain ⟨copy, hcopy, h⟩ := bind_eq_ok.mp h
  obtain ⟨⟨⟩, hfirst, hcopy⟩ := bind_eq_ok.mp hcopy
  obtain ⟨⟨⟩, hsecond, hcopy⟩ := bind_eq_ok.mp hcopy
  obtain rfl := Except.ok.inj hcopy
  exact ⟨(Copy.checkEnd_eq_ok.mp hfirst).1, (Copy.checkEnd_eq_ok.mp hsecond).1, (Except.ok.inj h).symm⟩

theorem addGate_eq_ok {constraints : List Expr} {selector : Nat} (h : s.addGate constraints = .ok (selector, t)) :
    ⟨selector, constraints⟩ ∈ t.gates ∧ Grows s t := by
  obtain ⟨rfl, hmem⟩ | ⟨-, rfl, rfl⟩ := addGate_cases h
  · exact ⟨hmem, Grows.refl _⟩
  · exact ⟨by simp, List.prefix_append .., List.prefix_rfl, List.prefix_rfl, rfl, rfl⟩

theorem addLookupGate_eq_ok {queries : List Query} {tag : Nat} (h : s.addLookupGate queries = .ok (tag, t)) :
    ⟨tag, queries⟩ ∈ t.lookupGates ∧ Grows s t := by
  obtain ⟨rfl, hmem⟩ | ⟨-, rfl, rfl⟩ := addLookupGate_cases h
  · exact ⟨hmem, Grows.refl _⟩
  · exact ⟨by simp, List.prefix_rfl, List.prefix_append .., List.prefix_rfl, rfl, rfl⟩

theorem addCopy_eq_ok {first second : Variable} (h : s.addCopy first second = .ok t) :
    ⟨first, second⟩ ∈ t.copies ∧ Grows s t := by
  obtain ⟨-, -, rfl⟩ := addCopy_cases h
  exact ⟨by simp, List.prefix_rfl, List.prefix_rfl, List.prefix_append .., rfl, rfl⟩

/-! ### Systems made by changes -/

def selectors (s : System) : List Nat := s.gates.map Gate.selector ++ s.lookupGates.map LookupGate.tag

theorem perm_selectors_concat_gate (s : System) (g : Gate) (n : Nat) :
    (selectors { s with gates := s.gates ++ [g], nextSelector := n }).Perm (g.selector :: s.selectors) := by
  simp only [selectors, List.map_append, List.map_singleton, List.append_assoc, List.singleton_append]
  exact List.perm_middle

theorem perm_selectors_concat_lookupGate (s : System) (g : LookupGate) (n : Nat) :
    (selectors { s with lookupGates := s.lookupGates ++ [g], nextSelector := n }).Perm (g.tag :: s.selectors) := by
  simp only [selectors, List.map_append, List.map_singleton, ← List.append_assoc]
  exact List.perm_append_singleton _ _

/-- No two gates share a selector, the counter is past all of them, and copies are between absolute cells. -/
structure Tidy (s : System) : Prop where
  distinct : s.selectors.Nodup
  used : ∀ selector ∈ s.selectors, selector < s.nextSelector
  ends : ∀ c ∈ s.copies, c.first.relative = false ∧ c.second.relative = false

namespace Tidy

theorem mem_selectors {g : Gate} (hg : g ∈ s.gates) : g.selector ∈ s.selectors :=
  List.mem_append_left _ (List.mem_map_of_mem hg)

theorem mem_tags {g : LookupGate} (hg : g ∈ s.lookupGates) : g.tag ∈ s.selectors :=
  List.mem_append_right _ (List.mem_map_of_mem hg)

theorem gate_unique (h : s.Tidy) {g g' : Gate} (hg : g ∈ s.gates) (hg' : g' ∈ s.gates)
    (he : g.selector = g'.selector) : g = g' :=
  List.inj_on_of_nodup_map (List.nodup_append.mp h.distinct).1 hg hg' he

theorem lookup_unique (h : s.Tidy) {g g' : LookupGate} (hg : g ∈ s.lookupGates) (hg' : g' ∈ s.lookupGates)
    (he : g.tag = g'.tag) : g = g' :=
  List.inj_on_of_nodup_map (List.nodup_append.mp h.distinct).2.1 hg hg' he

theorem selector_ne_tag (h : s.Tidy) {g : Gate} {g' : LookupGate} (hg : g ∈ s.gates) (hg' : g' ∈ s.lookupGates) :
    g.selector ≠ g'.tag :=
  (List.nodup_append.mp h.distinct).2.2 _ (List.mem_map_of_mem hg) _ (List.mem_map_of_mem hg')

/-- A gate under the next selector leaves the system tidy. -/
theorem of_perm (h : s.Tidy) (hselectors : t.selectors.Perm (s.nextSelector :: s.selectors))
    (hnext : t.nextSelector = s.nextSelector + 1) (hcopies : t.copies = s.copies) : t.Tidy where
  distinct := hselectors.nodup_iff.mpr
    (List.nodup_cons.mpr ⟨fun hmem => Nat.lt_irrefl _ (h.used _ hmem), h.distinct⟩)
  used selector hs := by
    rcases List.mem_cons.mp (hselectors.subset hs) with rfl | hs
    · omega
    · have := h.used selector hs
      omega
  ends c hc := h.ends c (hcopies ▸ hc)

theorem addGate (h : s.Tidy) {constraints : List Expr} {selector : Nat}
    (ht : s.addGate constraints = .ok (selector, t)) : t.Tidy := by
  obtain ⟨rfl, -⟩ | ⟨-, rfl, rfl⟩ := addGate_cases ht
  · exact h
  · exact h.of_perm (perm_selectors_concat_gate ..) rfl rfl

theorem addLookupGate (h : s.Tidy) {queries : List Query} {tag : Nat}
    (ht : s.addLookupGate queries = .ok (tag, t)) : t.Tidy := by
  obtain ⟨rfl, -⟩ | ⟨-, rfl, rfl⟩ := addLookupGate_cases ht
  · exact h
  · exact h.of_perm (perm_selectors_concat_lookupGate ..) rfl rfl

theorem addCopy (h : s.Tidy) {first second : Variable} (ht : s.addCopy first second = .ok t) : t.Tidy := by
  obtain ⟨hfirst, hsecond, rfl⟩ := addCopy_cases ht
  refine ⟨h.distinct, h.used, fun c hc => ?_⟩
  rcases List.mem_append.mp hc with hc | hc
  · exact h.ends c hc
  · obtain rfl := List.mem_singleton.mp hc
    exact ⟨hfirst, hsecond⟩

end Tidy

/-- A system without gates and copies. -/
structure Bare (s : System) : Prop where
  gates : s.gates = []
  lookupGates : s.lookupGates = []
  copies : s.copies = []

theorem Bare.tidy (h : s.Bare) : s.Tidy where
  distinct := by simp [selectors, h.gates, h.lookupGates]
  used selector hs := by simp [selectors, h.gates, h.lookupGates] at hs
  ends c hc := by simp [h.copies] at hc

/-! ### What is added -/

/-- Gates and lookup gates not there before have new selectors. They are among those to be registered, and the
    copies not there before are among those to be made. -/
structure Adds (s t : System) (gates : List (List Expr)) (lookups : List (String × List Expr)) (ties : Copy → Prop) :
    Prop where
  gates : ∀ g ∈ t.gates, g ∈ s.gates ∨ s.nextSelector ≤ g.selector ∧ g.constraints ∈ gates
  lookups : ∀ g ∈ t.lookupGates, g ∈ s.lookupGates ∨ s.nextSelector ≤ g.tag ∧
    ∃ lookup ∈ lookups, ∃ id, s.reserved.get? lookup.1 = some id ∧ g.queries = [⟨id, lookup.2⟩]
  copies : ∀ c ∈ t.copies, c ∈ s.copies ∨ ties c
  next : s.nextSelector ≤ t.nextSelector
  targets : t.targets = s.targets
  reserved : t.reserved = s.reserved

namespace Adds
variable {u : System} {gates : List (List Expr)} {lookups : List (String × List Expr)} {ties : Copy → Prop}

theorem refl (s : System) (gates : List (List Expr)) (lookups : List (String × List Expr)) (ties : Copy → Prop) :
    Adds s s gates lookups ties :=
  ⟨fun _ => Or.inl, fun _ => Or.inl, fun _ => Or.inl, Nat.le_refl _, rfl, rfl⟩

theorem addGate (h : Adds s t gates lookups ties) {constraints : List Expr} (hc : constraints ∈ gates) {selector : Nat}
    (hu : t.addGate constraints = .ok (selector, u)) : Adds s u gates lookups ties := by
  obtain ⟨rfl, -⟩ | ⟨-, rfl, rfl⟩ := addGate_cases hu
  · exact h
  · refine ⟨fun g hg => ?_, h.lookups, h.copies, Nat.le_succ_of_le h.next, h.targets, h.reserved⟩
    rcases List.mem_append.mp hg with hg | hg
    · exact h.gates g hg
    · obtain rfl := List.mem_singleton.mp hg
      exact Or.inr ⟨h.next, hc⟩

theorem addLookupGate (h : Adds s t gates lookups ties) {lookup : String × List Expr} (hl : lookup ∈ lookups)
    {id tag : Nat} (hid : s.reserved.get? lookup.1 = some id) (hu : t.addLookupGate [⟨id, lookup.2⟩] = .ok (tag, u)) :
    Adds s u gates lookups ties := by
  obtain ⟨rfl, -⟩ | ⟨-, rfl, rfl⟩ := addLookupGate_cases hu
  · exact h
  · refine ⟨h.gates, fun g hg => ?_, h.copies, Nat.le_succ_of_le h.next, h.targets, h.reserved⟩
    rcases List.mem_append.mp hg with hg | hg
    · exact h.lookups g hg
    · obtain rfl := List.mem_singleton.mp hg
      exact Or.inr ⟨h.next, lookup, hl, id, hid, rfl⟩

theorem addCopy (h : Adds s t gates lookups ties) {first second : Variable} (hc : ties ⟨first, second⟩)
    (hu : t.addCopy first second = .ok u) : Adds s u gates lookups ties := by
  obtain ⟨-, -, rfl⟩ := addCopy_cases hu
  refine ⟨h.gates, h.lookups, fun c hmem => ?_, h.next, h.targets, h.reserved⟩
  rcases List.mem_append.mp hmem with hmem | hmem
  · exact h.copies c hmem
  · obtain rfl := List.mem_singleton.mp hmem
    exact Or.inr hc

theorem trans (h : Adds s t gates lookups ties) (h' : Adds t u gates lookups ties) : Adds s u gates lookups ties where
  gates g hg := (h'.gates g hg).elim (h.gates g) fun hnew => Or.inr ⟨Nat.le_trans h.next hnew.1, hnew.2⟩
  lookups g hg := (h'.lookups g hg).elim (h.lookups g) fun ⟨hnew, lookup, hl, id, hid, hqs⟩ =>
    Or.inr ⟨Nat.le_trans h.next hnew, lookup, hl, id, h.reserved ▸ hid, hqs⟩
  copies c hc := (h'.copies c hc).elim (h.copies c) Or.inr
  next := Nat.le_trans h.next h'.next
  targets := h'.targets.trans h.targets
  reserved := h'.reserved.trans h.reserved

theorem mono {gates' : List (List Expr)} {lookups' : List (String × List Expr)} {ties' : Copy → Prop}
    (h : Adds s t gates lookups ties) (hgates : gates ⊆ gates') (hlookups : lookups ⊆ lookups')
    (hties : ∀ c, ties c → ties' c) : Adds s t gates' lookups' ties' where
  gates g hg := (h.gates g hg).imp id fun hnew => ⟨hnew.1, hgates hnew.2⟩
  lookups g hg := (h.lookups g hg).imp id fun ⟨hnew, lookup, hl, hid⟩ => ⟨hnew, lookup, hlookups hl, hid⟩
  copies c hc := (h.copies c hc).imp id (hties c)
  next := h.next
  targets := h.targets
  reserved := h.reserved

end Adds

/-- No two gates have the same constraints, and from a base on each gate has used up one selector. -/
structure Counted (base : Nat) (s : System) : Prop where
  gates : (s.gates.map Gate.constraints).Nodup
  lookups : (s.lookupGates.map LookupGate.queries).Nodup
  next : s.nextSelector = base + s.gates.length + s.lookupGates.length

namespace Counted
variable {base : Nat}

theorem of_bare (h : s.Bare) : s.Counted s.nextSelector where
  gates := by simp [h.gates]
  lookups := by simp [h.lookupGates]
  next := by simp [h.gates, h.lookupGates]

theorem addGate (h : s.Counted base) {constraints : List Expr} {selector : Nat}
    (ht : s.addGate constraints = .ok (selector, t)) : t.Counted base := by
  obtain ⟨rfl, -⟩ | ⟨hnew, rfl, rfl⟩ := addGate_cases ht
  · exact h
  · refine ⟨?_, h.lookups, ?_⟩
    · rw [List.map_append, List.map_singleton]
      exact List.concat_eq_append ▸ h.gates.concat hnew
    · have := h.next
      simp only [List.length_append, List.length_singleton]
      omega

theorem addLookupGate (h : s.Counted base) {queries : List Query} {tag : Nat}
    (ht : s.addLookupGate queries = .ok (tag, t)) : t.Counted base := by
  obtain ⟨rfl, -⟩ | ⟨hnew, rfl, rfl⟩ := addLookupGate_cases ht
  · exact h
  · refine ⟨h.gates, ?_, ?_⟩
    · rw [List.map_append, List.map_singleton]
      exact List.concat_eq_append ▸ h.lookups.concat hnew
    · have := h.next
      simp only [List.length_append, List.length_singleton]
      omega

theorem addCopy (h : s.Counted base) {first second : Variable} (ht : s.addCopy first second = .ok t) :
    t.Counted base := by
  obtain ⟨-, -, rfl⟩ := addCopy_cases ht
  exact ⟨h.gates, h.lookups, h.next⟩

/-- The selectors used up from a bare system on are at most as many as there are different gates to be added. -/
theorem next_le {gates : List (List Expr)} {lookups : List (String × List Expr)} {ties : Copy → Prop}
    (h : t.Counted base) (hbare : s.Bare) (hadds : Adds s t gates lookups ties) :
    t.nextSelector ≤ base + gates.dedup.length + lookups.dedup.length := by
  -- A lookup gate is told by its table and its input, under the ids that were reserved at the start.
  let query (lookup : String × List Expr) : List Query := [⟨(s.reserved.get? lookup.1).getD 0, lookup.2⟩]
  have hgates : t.gates.map Gate.constraints ⊆ gates.dedup := by
    intro constraints hmem
    obtain ⟨g, hg, rfl⟩ := List.mem_map.mp hmem
    rcases hadds.gates g hg with hold | ⟨-, hnew⟩
    · exact absurd (hbare.gates ▸ hold) List.not_mem_nil
    · exact List.mem_dedup.mpr hnew
  have hlookups : t.lookupGates.map LookupGate.queries ⊆ lookups.dedup.map query := by
    intro queries hmem
    obtain ⟨g, hg, rfl⟩ := List.mem_map.mp hmem
    rcases hadds.lookups g hg with hold | ⟨-, lookup, hl, id, hid, hqs⟩
    · exact absurd (hbare.lookupGates ▸ hold) List.not_mem_nil
    · refine List.mem_map.mpr ⟨lookup, List.mem_dedup.mpr hl, ?_⟩
      simp only [query, hid, hqs, Option.getD_some]
  have hcount := (List.subperm_of_subset h.gates hgates).length_le
  have hcount' := (List.subperm_of_subset h.lookups hlookups).length_le
  have hnext := h.next
  rw [List.length_map] at hcount hcount'
  rw [List.length_map] at hcount'
  omega

end Counted

/-! ### Systems made by changes, one after the other -/

/-- The systems that can be made from the empty one by the changes that there are. -/
inductive Built : System → Prop where
  | empty : Built .empty
  | allocate {s : System} (h : Built s) : Built s.allocate.2
  | gate {s t : System} {constraints : List Expr} {selector : Nat} (h : Built s)
    (ht : s.addGate constraints = .ok (selector, t)) : Built t
  | lookup {s t : System} {queries : List Query} {tag : Nat} (h : Built s)
    (ht : s.addLookupGate queries = .ok (tag, t)) : Built t
  | copy {s t : System} {first second : Variable} (h : Built s) (ht : s.addCopy first second = .ok t) : Built t
  | uncopy {s t : System} {index : Nat} {c : Copy} (h : Built s) (ht : s.removeCopy index = .ok (c, t)) : Built t
  | target {s t : System} {id : Nat} {target : Target} (h : Built s) (ht : s.register id target = .ok t) : Built t
  | reserve {s : System} (h : Built s) (reserved : SortedMap String Nat) : Built (s.setReserved reserved)

theorem Built.tidy (h : Built s) : s.Tidy := by
  induction h with
  | empty =>
    exact ⟨List.nodup_nil, fun _ hs => absurd hs List.not_mem_nil, fun _ hc => absurd hc List.not_mem_nil⟩
  | allocate _ ih => exact ⟨ih.distinct, fun selector hs => Nat.lt_succ_of_lt (ih.used selector hs), ih.ends⟩
  | gate _ ht ih => exact ih.addGate ht
  | lookup _ ht ih => exact ih.addLookupGate ht
  | copy _ ht ih => exact ih.addCopy ht
  | uncopy _ ht ih =>
    unfold removeCopy at ht
    split at ht
    · obtain ⟨-, rfl⟩ := Prod.mk.inj (Except.ok.inj ht)
      exact ⟨ih.distinct, ih.used, fun c hc => ih.ends c (List.mem_of_mem_eraseIdx hc)⟩
    · cases ht
  | target _ ht ih =>
    unfold register at ht
    split at ht
    · cases ht
    · obtain rfl := Except.ok.inj ht
      exact ⟨ih.distinct, ih.used, ih.ends⟩
  | reserve _ _ ih => exact ⟨ih.distinct, ih.used, ih.ends⟩

end System
end Plonkish
