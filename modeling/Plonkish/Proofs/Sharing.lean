import Mathlib
import Plonkish.Circuit
import Plonkish.Proofs.Component.Feasible
import Plonkish.Proofs.Obligations

/-! Gates that are asked for more than once. Each request registers a gate or a lookup gate and turns its selector
    on in rows of its own, and equal requests share one selector. Lists of constraints that differ never do
    (`Shared.own`), so a selector is on exactly in the rows of the requests for its own constraints
    (`Shared.on`). In each row the system asks for what was requested there and for nothing else, as it would if
    every request had a gate and a selector of its own (`requestAll_answers`). Each list of requests has a circuit
    with these (`exists_unshared`). -/

namespace Plonkish

/-! ### Requests -/

/-- Rows in which a selector is turned on: a single one, or those from one to before another. -/
inductive Switch where
  | row (row : Nat)
  | range (first stop : Nat)
  deriving DecidableEq

namespace Switch

def covers : Switch → Nat → Bool
  | row r, i => i = r
  | range first stop, i => first ≤ i ∧ i < stop

def turnOn (selector : Nat) (t : Assignment) : Switch → Except Fault Assignment
  | row r => t.enable selector r
  | range first stop => t.enableRange selector first stop

end Switch

/-- A gate or a lookup gate, with the rows in which it is asked for. -/
structure Request where
  ask : Ask
  switches : List Switch

def Request.covers (q : Request) (row : Nat) : Bool := q.switches.any (·.covers row)

/-- Registers what is asked for. Answers its selector. -/
def System.enter (s : System) : Ask → Except Fault (Nat × System)
  | .gate constraints => s.addGate constraints
  | .lookup queries => s.addLookupGate queries

namespace Circuit

/-- Registers what a request asks for, and turns its selector on in the rows of the request. -/
def request (c : Circuit) (q : Request) : Except Fault Circuit := do
  let (selector, system) ← c.system.enter q.ask
  let table ← q.switches.foldlM (Switch.turnOn selector) c.table
  .ok ⟨system, table⟩

def requestAll (c : Circuit) (requests : List Request) : Except Fault Circuit := requests.foldlM request c

end Circuit

variable {s s' : System} {t t' : Assignment} {c c₀ d : Circuit} {q : Request} {requests done : List Request}
  {selector : Nat} {ask : Ask}

/-! ### One request -/

/-- What is asked for is known, or it is registered under the next selector. -/
theorem System.enter_cases (h : s.enter ask = .ok (selector, s')) : s'.copies = s.copies ∧ s'.targets = s.targets ∧
    (s' = s ∧ s.Registers selector ask ∨
      (∀ old, ¬ s.Registers old ask) ∧ selector = s.nextSelector ∧ s'.nextSelector = s.nextSelector + 1 ∧
        ∀ old other, s'.Registers old other ↔ s.Registers old other ∨ old = selector ∧ other = ask) := by
  cases ask with
  | gate constraints =>
    rcases addGate_cases h with ⟨rfl, hmem⟩ | ⟨hnew, rfl, rfl⟩
    · exact ⟨rfl, rfl, Or.inl ⟨rfl, hmem⟩⟩
    · refine ⟨rfl, rfl, Or.inr ⟨fun old hold => hnew (List.mem_map_of_mem hold), rfl, rfl, fun old other => ?_⟩⟩
      cases other <;> simp [Registers]
  | lookup queries =>
    rcases addLookupGate_cases h with ⟨rfl, hmem⟩ | ⟨hnew, rfl, rfl⟩
    · exact ⟨rfl, rfl, Or.inl ⟨rfl, hmem⟩⟩
    · refine ⟨rfl, rfl, Or.inr ⟨fun old hold => hnew (List.mem_map_of_mem hold), rfl, rfl, fun old other => ?_⟩⟩
      cases other <;> simp [Registers]

theorem System.exists_enter (h : ∀ x ∈ ask.exprs, ∀ v ∈ x.leaves, v.kind ≠ .selector) :
    ∃ selector s', s.enter ask = .ok (selector, s') := by
  cases ask with
  | gate constraints => exact exists_addGate h
  | lookup queries => exact exists_addLookupGate h

theorem System.checkOperands_iff {xs : List Expr} :
    checkOperands (Expr.collect xs) = .ok () ↔ ∀ x ∈ xs, ∀ v ∈ x.leaves, v.kind ≠ .selector := by
  refine ⟨fun h x hx v hv => ?_, checkOperands_eq_ok⟩
  unfold checkOperands at h
  split at h
  · cases h
  · rename_i hnone
    simpa using List.find?_eq_none.mp hnone v (Expr.mem_collect.mpr ⟨x, hx, hv⟩)

theorem System.operands_of_enter (h : s.enter ask = .ok (selector, s')) :
    ∀ x ∈ ask.exprs, ∀ v ∈ x.leaves, v.kind ≠ .selector := by
  cases ask with
  | gate constraints =>
    obtain ⟨⟨⟩, hoperands, -⟩ := bind_eq_ok.mp h
    exact checkOperands_iff.mp hoperands
  | lookup queries =>
    obtain ⟨⟨⟩, hoperands, -⟩ := bind_eq_ok.mp h
    exact checkOperands_iff.mp hoperands

theorem Switch.cell_turnOn {w : Switch} (h : w.turnOn selector t = .ok t') (k : ColumnKind) (i r : Nat) :
    t'.cell k i r = if k = .selector ∧ i = selector ∧ w.covers r then 1 else t.cell k i r := by
  cases w with
  | row row => simpa [covers] using Assignment.cell_set h k i r
  | range first stop => simpa [covers] using Assignment.cell_enableRange h k i r

theorem Switch.width_turnOn {w : Switch} (h : w.turnOn selector t = .ok t') (k : ColumnKind) :
    t'.width k = t.width k := by
  cases w with
  | row row => exact Assignment.width_set h k
  | range first stop => exact Assignment.width_enableRange h k

theorem cell_turnAllOn {switches : List Switch} (h : switches.foldlM (Switch.turnOn selector) t = .ok t')
    (k : ColumnKind) (i r : Nat) :
    t'.cell k i r = if k = .selector ∧ i = selector ∧ switches.any (·.covers r) then 1 else t.cell k i r := by
  induction switches generalizing t with
  | nil =>
    obtain rfl := Except.ok.inj h
    simp
  | cons w rest ih =>
    rw [List.foldlM_cons] at h
    obtain ⟨t₁, h₁, h⟩ := bind_eq_ok.mp h
    rw [ih h, Switch.cell_turnOn h₁, List.any_cons]
    grind

theorem width_turnAllOn {switches : List Switch} (h : switches.foldlM (Switch.turnOn selector) t = .ok t')
    (k : ColumnKind) : t'.width k = t.width k := by
  induction switches generalizing t with
  | nil =>
    obtain rfl := Except.ok.inj h
    rfl
  | cons w rest ih =>
    rw [List.foldlM_cons] at h
    obtain ⟨t₁, h₁, h⟩ := bind_eq_ok.mp h
    rw [ih h, Switch.width_turnOn h₁]

theorem exists_turnAllOn (h : selector < t.width .selector) (switches : List Switch) :
    ∃ t', switches.foldlM (Switch.turnOn selector) t = .ok t' := by
  induction switches generalizing t with
  | nil => exact ⟨t, rfl⟩
  | cons w rest ih =>
    obtain ⟨t₁, h₁⟩ : ∃ t₁, w.turnOn selector t = .ok t₁ := by
      cases w with
      | row row => exact ⟨_, if_pos h⟩
      | range first stop => exact Assignment.exists_enableRange h first stop
    obtain ⟨t', h'⟩ := ih (by rwa [Switch.width_turnOn h₁])
    exact ⟨t', by rw [List.foldlM_cons]; exact bind_eq_ok.mpr ⟨t₁, h₁, h'⟩⟩

theorem Circuit.request_eq_ok (h : c.request q = .ok d) : ∃ selector system,
    c.system.enter q.ask = .ok (selector, system) ∧
    q.switches.foldlM (Switch.turnOn selector) c.table = .ok d.table ∧ d.system = system := by
  obtain ⟨⟨selector, system⟩, henter, h⟩ := bind_eq_ok.mp h
  obtain ⟨table, htable, h⟩ := bind_eq_ok.mp h
  obtain rfl := Except.ok.inj h
  exact ⟨selector, system, henter, htable, rfl⟩

/-! ### A run of requests -/

/-- A circuit in which requests were answered, from a circuit `c₀` without gates on. -/
structure Shared (c₀ : Circuit) (done : List Request) (c : Circuit) : Prop where
  /-- A selector is on exactly in the rows of the requests for its constraints. -/
  on : ∀ selector ask, c.system.Registers selector ask → ∀ row,
    c.table.isOn selector row ↔ ∃ q ∈ done, q.ask = ask ∧ q.covers row
  known : ∀ q ∈ done, ∃ selector, c.system.Registers selector q.ask
  operands : ∀ q ∈ done, ∀ x ∈ q.ask.exprs, ∀ v ∈ x.leaves, v.kind ≠ .selector
  asked : ∀ selector ask, c.system.Registers selector ask → ∃ q ∈ done, q.ask = ask
  /-- Different lists never share a selector, and equal ones always do. -/
  own : ∀ selector selector' ask ask', c.system.Registers selector ask → c.system.Registers selector' ask' →
    (selector = selector' ↔ ask = ask')
  used : ∀ selector ask, c.system.Registers selector ask → selector < c.system.nextSelector
  fresh : ∀ selector row, c.system.nextSelector ≤ selector → c.table.cell .selector selector row = 0
  /-- Each different thing that was asked for has used up one selector. -/
  next : c.system.nextSelector = c₀.system.nextSelector + (done.map Request.ask).toFinset.card
  copies : c.system.copies = c₀.system.copies
  targets : c.system.targets = c₀.system.targets
  width (kind : ColumnKind) : c.table.width kind = c₀.table.width kind

namespace Shared

theorem nil (hgates : c.system.gates = []) (hlookups : c.system.lookupGates = [])
    (hfresh : ∀ selector row, c.system.nextSelector ≤ selector → c.table.cell .selector selector row = 0) :
    Shared c [] c := by
  have hnone : ∀ selector ask, ¬ c.system.Registers selector ask := fun _ _ => System.not_registers hgates hlookups
  exact ⟨fun _ _ h => absurd h (hnone _ _), fun _ hq => absurd hq List.not_mem_nil,
    fun _ hq => absurd hq List.not_mem_nil, fun _ _ h => absurd h (hnone _ _),
    fun _ _ _ _ h => absurd h (hnone _ _), fun _ _ h => absurd h (hnone _ _), hfresh, rfl, rfl, rfl, fun _ => rfl⟩

/-- What a system registers after one more thing was asked for under a selector. -/
structure Entered (c₀ c : Circuit) (done : List Request) (ask : Ask) (selector : Nat) (s : System) : Prop where
  registers : ∀ old other, s.Registers old other ↔ c.system.Registers old other ∨ old = selector ∧ other = ask
  same : ∀ other, c.system.Registers selector other → other = ask
  only : ∀ old, c.system.Registers old ask → old = selector
  on : ∀ row, c.table.isOn selector row ↔ ∃ q ∈ done, q.ask = ask ∧ q.covers row
  lt : selector < s.nextSelector
  le : c.system.nextSelector ≤ s.nextSelector
  next : s.nextSelector = c₀.system.nextSelector + (insert ask (done.map Request.ask).toFinset).card

variable (h : Shared c₀ done c)
include h

/-- Known or new, the selector is that of what is asked for and of nothing else. -/
theorem enter (henter : c.system.enter ask = .ok (selector, s)) : Entered c₀ c done ask selector s := by
  have hcount := h.next
  obtain ⟨-, -, ⟨rfl, hmem⟩ | ⟨hnew, rfl, hnext, hregisters⟩⟩ := System.enter_cases henter
  · -- What is known has the selector of an earlier request.
    have hold : ask ∈ (done.map Request.ask).toFinset := by
      obtain ⟨q, hq, rfl⟩ := h.asked _ _ hmem
      exact List.mem_toFinset.mpr (List.mem_map_of_mem hq)
    refine ⟨fun old other => ⟨Or.inl, ?_⟩, fun other hother => (h.own _ _ _ _ hother hmem).mp rfl,
      fun old hold => (h.own _ _ _ _ hold hmem).mpr rfl, h.on _ _ hmem, h.used _ _ hmem, Nat.le_refl _, ?_⟩
    · rintro (hother | ⟨rfl, rfl⟩)
      · exact hother
      · exact hmem
    · rw [Finset.insert_eq_of_mem hold, hcount]
  · -- What is new was asked for by nobody, and its column is untouched.
    have hfirst : ∀ q ∈ done, q.ask ≠ ask := by
      rintro q hq rfl
      obtain ⟨old, hold⟩ := h.known q hq
      exact hnew old hold
    refine ⟨hregisters, fun other hother => absurd (h.used _ _ hother) (Nat.lt_irrefl _),
      fun old hold => absurd hold (hnew old), fun row => ?_, by omega, by omega, ?_⟩
    · refine iff_of_false (by simp [Assignment.isOn, h.fresh]) ?_
      rintro ⟨q, hq, he, -⟩
      exact hfirst q hq he
    · rw [Finset.card_insert_of_notMem (by simpa using hfirst)]
      omega

/-- One more request is answered. -/
theorem request (hrun : c.request q = .ok d) : Shared c₀ (done ++ [q]) d := by
  obtain ⟨selector, system, henter, htable, rfl⟩ := Circuit.request_eq_ok hrun
  obtain ⟨hcopies, htargets, -⟩ := System.enter_cases henter
  have he := h.enter henter
  have hcell := cell_turnAllOn htable
  have hon : ∀ other row, d.table.isOn other row ↔ c.table.isOn other row ∨ other = selector ∧ q.covers row := by
    intro other row
    have hone : (1 : Scalar) ≠ 0 := by decide
    simp only [Assignment.isOn, hcell, Request.covers]
    grind
  have hmem : ∀ {q'}, q' ∈ done ++ [q] ↔ q' ∈ done ∨ q' = q := by simp
  refine {
    on := fun other ask hask row => ?_
    known := fun q' hq' => ?_
    operands := fun q' hq' => ?_
    asked := fun other ask hask => ?_
    own := fun other other' ask ask' hask hask' => ?_
    used := fun other ask hask => ?_
    fresh := fun other row hle => ?_
    next := ?_
    copies := hcopies.trans h.copies
    targets := htargets.trans h.targets
    width := fun kind => (width_turnAllOn htable kind).trans (h.width kind) }
  · -- The selector of these constraints is on in the rows of this request too, any other one where it was on.
    by_cases hq : ask = q.ask
    · subst hq
      obtain rfl : other = selector := ((he.registers _ _).mp hask).elim (he.only other) And.left
      simp [hon, he.on, or_and_right, exists_or]
    · have hold := ((he.registers _ _).mp hask).resolve_right fun hnew => hq hnew.2
      have hne : other ≠ selector := fun hsel => hq (he.same ask (hsel ▸ hold))
      simp [hon, h.on _ _ hold, hne, or_and_right, exists_or, Ne.symm hq]
  · rcases hmem.mp hq' with hq' | rfl
    · exact (h.known q' hq').imp fun old hold => (he.registers _ _).mpr (Or.inl hold)
    · exact ⟨selector, (he.registers _ _).mpr (Or.inr ⟨rfl, rfl⟩)⟩
  · rcases hmem.mp hq' with hq' | rfl
    · exact h.operands q' hq'
    · exact System.operands_of_enter henter
  · rcases (he.registers _ _).mp hask with hold | ⟨-, rfl⟩
    · exact (h.asked _ _ hold).imp fun q' hq' => ⟨hmem.mpr (Or.inl hq'.1), hq'.2⟩
    · exact ⟨q, hmem.mpr (Or.inr rfl), rfl⟩
  · rcases (he.registers _ _).mp hask with hold | ⟨rfl, rfl⟩
    · rcases (he.registers _ _).mp hask' with hold' | ⟨rfl, rfl⟩
      · exact h.own _ _ _ _ hold hold'
      · exact ⟨fun hs => he.same ask (hs ▸ hold), fun ha => he.only other (ha ▸ hold)⟩
    · rcases (he.registers _ _).mp hask' with hold' | ⟨rfl, rfl⟩
      · exact ⟨fun hs => (he.same ask' (hs ▸ hold')).symm, fun ha => (he.only other' (ha ▸ hold')).symm⟩
      · exact iff_of_true rfl rfl
  · rcases (he.registers _ _).mp hask with hold | ⟨rfl, -⟩
    · exact Nat.lt_of_lt_of_le (h.used _ _ hold) he.le
    · exact he.lt
  · have hlt := he.lt
    rw [hcell, if_neg (by omega)]
    exact h.fresh other row (Nat.le_trans he.le hle)
  · have hinsert : ((done ++ [q]).map Request.ask).toFinset = insert q.ask (done.map Request.ask).toFinset := by
      ext ask
      simp
    rw [hinsert, he.next]

theorem requestAll (hrun : c.requestAll requests = .ok d) : Shared c₀ (done ++ requests) d := by
  induction requests generalizing c done with
  | nil =>
    obtain rfl := Except.ok.inj hrun
    rwa [List.append_nil]
  | cons q rest ih =>
    rw [Circuit.requestAll, List.foldlM_cons] at hrun
    obtain ⟨c₁, h₁, hrun⟩ := bind_eq_ok.mp hrun
    have hrest := ih (h.request h₁) hrun
    rwa [List.append_assoc, List.singleton_append] at hrest

/-- A run succeeds if no operand is a selector and there is a column for each different thing that is asked for. -/
theorem exists_requestAll (hopen : ∀ q ∈ requests, ∀ x ∈ q.ask.exprs, ∀ v ∈ x.leaves, v.kind ≠ .selector)
    (hroom : c₀.system.nextSelector + ((done ++ requests).map Request.ask).toFinset.card ≤ c₀.table.width .selector) :
    ∃ d, c.requestAll requests = .ok d := by
  induction requests generalizing c done with
  | nil => exact ⟨c, rfl⟩
  | cons q rest ih =>
    obtain ⟨hq, hopen⟩ := List.forall_mem_cons.mp hopen
    obtain ⟨selector, system, henter⟩ := System.exists_enter (s := c.system) hq
    have he := h.enter henter
    have hsub : insert q.ask (done.map Request.ask).toFinset ⊆ ((done ++ q :: rest).map Request.ask).toFinset := by
      intro ask
      simp only [Finset.mem_insert, List.mem_toFinset, List.mem_map, List.mem_append, List.mem_cons]
      grind
    have hcard := Finset.card_le_card hsub
    have hlt : selector < c.table.width .selector := by
      have := he.lt
      have := he.next
      have := h.width .selector
      omega
    obtain ⟨table, htable⟩ := exists_turnAllOn hlt q.switches
    have h₁ : c.request q = .ok ⟨system, table⟩ := bind_eq_ok.mpr ⟨_, henter, bind_eq_ok.mpr ⟨table, htable, rfl⟩⟩
    obtain ⟨d, hrun⟩ := ih (h.request h₁) hopen (by rwa [List.append_assoc, List.singleton_append])
    exact ⟨d, by rw [Circuit.requestAll, List.foldlM_cons]; exact bind_eq_ok.mpr ⟨_, h₁, hrun⟩⟩

/-- In each row the system asks for what was requested there. -/
theorem obliges_iff {row : Nat} : c.system.Obliges c.table row ask ↔ ∃ q ∈ done, q.ask = ask ∧ q.covers row := by
  constructor
  · rintro ⟨selector, hask, hon⟩
    exact (h.on selector ask hask row).mp hon
  · rintro ⟨q, hq, rfl, hrow⟩
    obtain ⟨selector, hask⟩ := h.known q hq
    exact ⟨selector, hask, (h.on selector _ hask row).mpr ⟨q, hq, rfl, hrow⟩⟩

end Shared

/-! ### A selector for each request -/

/-- A system and a table in which every request has a gate and a selector of its own, on in the rows of the request.
    In all else they are `s` and `t`: copies and registered tables, the cells of these, and all cells that are no
    selectors. -/
structure Unshared (requests : List Request) (s : System) (t : Assignment) (s' : System) (t' : Assignment) : Prop where
  own : ∃ selectors : List Nat, selectors.Nodup ∧ selectors.length = requests.length ∧
    (∀ selector ask, s'.Registers selector ask ↔ ∃ q, (q, selector) ∈ requests.zip selectors ∧ q.ask = ask) ∧
    ∀ q selector, (q, selector) ∈ requests.zip selectors → ∀ row, t'.isOn selector row ↔ q.covers row
  copies : s'.copies = s.copies
  targets : s'.targets = s.targets
  columns : ∀ kind, kind ≠ .selector → t'.columns kind = t.columns kind
  tables : ∀ id target, s.targets.get? id = some target → t'.entries target = t.entries target
  ends : ∀ copy ∈ s.copies, t'.value copy.first = t.value copy.first ∧ t'.value copy.second = t.value copy.second

theorem Unshared.obliges_iff (h : Unshared requests s t s' t') {row : Nat} :
    s'.Obliges t' row ask ↔ ∃ q ∈ requests, q.ask = ask ∧ q.covers row := by
  obtain ⟨selectors, -, hlength, hregisters, hon⟩ := h.own
  constructor
  · rintro ⟨selector, hask, hrow⟩
    obtain ⟨q, hzip, rfl⟩ := (hregisters _ _).mp hask
    exact ⟨q, (List.of_mem_zip hzip).1, rfl, (hon q selector hzip row).mp hrow⟩
  · rintro ⟨q, hq, rfl, hrow⟩
    obtain ⟨i, hi, rfl⟩ := List.mem_iff_getElem.mp hq
    have hzip : (requests[i], selectors[i]) ∈ requests.zip selectors :=
      List.mem_of_getElem? (List.getElem?_zip_eq_some.mpr
        ⟨List.getElem?_eq_getElem hi, List.getElem?_eq_getElem (hlength ▸ hi)⟩)
    exact ⟨selectors[i], (hregisters _ _).mpr ⟨_, hzip, rfl⟩, (hon _ _ hzip row).mpr hrow⟩

/-! ### Every list of requests has such a circuit -/

/-- A table with further selectors, off in every row. -/
def Assignment.widen (t : Assignment) (count : Nat) : Assignment :=
  { t with selectors := t.selectors ++ Array.replicate count #[] }

theorem Assignment.columns_widen {count : Nat} {kind : ColumnKind} (hkind : kind ≠ .selector) :
    (t.widen count).columns kind = t.columns kind := by
  cases kind with
  | selector => exact absurd rfl hkind
  | witness | constant | publicInput => rfl

theorem Assignment.width_widen (t : Assignment) (count : Nat) :
    (t.widen count).width .selector = t.width .selector + count := by
  simp [widen, width, columns]

theorem Assignment.cell_widen (t : Assignment) (count i r : Nat) :
    (t.widen count).cell .selector i r = t.cell .selector i r := by
  simp only [cell, columns, widen, Array.getElem?_append]
  split
  · rfl
  · rename_i hi
    rw [Array.getElem?_replicate, Array.getElem?_eq_none (Nat.le_of_not_lt hi)]
    split <;> rfl

theorem Switch.columns_turnOn {w : Switch} (h : w.turnOn selector t = .ok t') {kind : ColumnKind}
    (hkind : kind ≠ .selector) : t'.columns kind = t.columns kind := by
  cases w with
  | row row =>
    change (if _ then _ else _) = _ at h
    split at h
    · obtain rfl := Except.ok.inj h
      rw [Assignment.columns_modify, if_neg hkind]
    · cases h
  | range first stop =>
    change (if _ then _ else _) = _ at h
    split at h
    · obtain rfl := Except.ok.inj h
      rfl
    · split at h
      · obtain rfl := Except.ok.inj h
        rw [Assignment.columns_modify, if_neg hkind]
      · cases h

theorem columns_turnAllOn {switches : List Switch} (h : switches.foldlM (Switch.turnOn selector) t = .ok t')
    {kind : ColumnKind} (hkind : kind ≠ .selector) : t'.columns kind = t.columns kind := by
  induction switches generalizing t with
  | nil =>
    obtain rfl := Except.ok.inj h
    rfl
  | cons w rest ih =>
    rw [List.foldlM_cons] at h
    obtain ⟨t₁, h₁, h⟩ := bind_eq_ok.mp h
    rw [ih h, Switch.columns_turnOn h₁ hkind]

/-- Each request turns a selector on in its rows, if there are columns for these. -/
theorem exists_turnEachOn {pairs : List (Request × Nat)} (h : ∀ e ∈ pairs, e.2 < t.width .selector) :
    ∃ t' : Assignment, (∀ kind, kind ≠ .selector → t'.columns kind = t.columns kind) ∧
      t'.width .selector = t.width .selector ∧
      ∀ i r, t'.cell .selector i r =
        if ∃ e ∈ pairs, e.2 = i ∧ e.1.covers r then 1 else t.cell .selector i r := by
  induction pairs generalizing t with
  | nil => exact ⟨t, fun _ _ => rfl, rfl, fun _ _ => by simp⟩
  | cons e rest ih =>
    obtain ⟨he, hrest⟩ := List.forall_mem_cons.mp h
    obtain ⟨t₁, h₁⟩ := exists_turnAllOn he e.1.switches
    have hwidth := width_turnAllOn h₁ .selector
    obtain ⟨t', hcolumns', hwidth', hcell'⟩ := ih (hwidth ▸ hrest)
    refine ⟨t', fun kind hkind => (hcolumns' kind hkind).trans (columns_turnAllOn h₁ hkind),
      hwidth'.trans hwidth, fun i r => ?_⟩
    rw [hcell', cell_turnAllOn h₁]
    simp only [List.exists_mem_cons_iff, Request.covers, eq_comm (a := i), true_and]
    split_ifs <;> grind

/-- The system that registers each request under a selector of its own, those of a list from one on. -/
def System.registerEach (s : System) (first : Nat) (requests : List Request) : System :=
  { s with
    gates := (requests.zipIdx first).filterMap fun (q, selector) =>
      match q.ask with
      | .gate constraints => some ⟨selector, constraints⟩
      | .lookup _ => none
    lookupGates := (requests.zipIdx first).filterMap fun (q, selector) =>
      match q.ask with
      | .gate _ => none
      | .lookup queries => some ⟨selector, queries⟩
    nextSelector := first + requests.length }

theorem System.registers_registerEach {first : Nat} : (s.registerEach first requests).Registers selector ask ↔
    ∃ q, (q, selector) ∈ requests.zipIdx first ∧ q.ask = ask := by
  cases ask with
  | gate constraints =>
    simp only [Registers, registerEach, List.mem_filterMap, Prod.exists]
    constructor
    · rintro ⟨q, i, hmem, hq⟩
      split at hq
      · rename_i hask
        obtain ⟨rfl, rfl⟩ := Gate.mk.inj (Option.some.inj hq)
        exact ⟨q, hmem, hask⟩
      · cases hq
    · rintro ⟨q, hmem, hask⟩
      exact ⟨q, selector, hmem, by rw [hask]⟩
  | lookup queries =>
    simp only [Registers, registerEach, List.mem_filterMap, Prod.exists]
    constructor
    · rintro ⟨q, i, hmem, hq⟩
      split at hq
      · cases hq
      · rename_i hask
        obtain ⟨rfl, rfl⟩ := LookupGate.mk.inj (Option.some.inj hq)
        exact ⟨q, hmem, hask⟩
    · rintro ⟨q, hmem, hask⟩
      exact ⟨q, selector, hmem, by rw [hask]⟩

/-- The requests have columns of their own from any number on that is past the columns there are. -/
theorem exists_spread {first : Nat} (hwidth : t.width .selector ≤ first) (requests : List Request) :
    ∃ t' : Assignment, (∀ kind, kind ≠ .selector → t'.columns kind = t.columns kind) ∧
      t.width .selector ≤ t'.width .selector ∧
      (∀ i r, i < first → t'.cell .selector i r = t.cell .selector i r) ∧
      ∀ q selector, (q, selector) ∈ requests.zipIdx first → ∀ row, t'.isOn selector row ↔ q.covers row := by
  have hpair : ∀ {q selector}, (q, selector) ∈ requests.zipIdx first ↔
      first ≤ selector ∧ requests[selector - first]? = some q := List.mk_mem_zipIdx_iff_le_and_getElem?_sub
  have hroom : ∀ e ∈ requests.zipIdx first,
      e.2 < (t.widen (first + requests.length - t.width .selector)).width .selector := by
    rintro ⟨q, selector⟩ hq
    obtain ⟨hle, hq⟩ := hpair.mp hq
    have hlt := (List.getElem?_eq_some_iff.mp hq).1
    rw [Assignment.width_widen]
    dsimp only
    omega
  obtain ⟨t', hcolumns, hwidth', hcell⟩ := exists_turnEachOn hroom
  rw [Assignment.width_widen] at hwidth'
  simp only [Assignment.cell_widen] at hcell
  refine ⟨t', fun kind hkind => (hcolumns kind hkind).trans (Assignment.columns_widen hkind), by omega,
    fun i r hi => ?_, fun q selector hq row => ?_⟩
  · rw [hcell, if_neg]
    rintro ⟨⟨q, _⟩, hq, rfl, -⟩
    exact Nat.not_lt.mpr (hpair.mp hq).1 hi
  · have hown : (∃ e ∈ requests.zipIdx first, e.2 = selector ∧ e.1.covers row) ↔ q.covers row := by
      constructor
      · rintro ⟨⟨q', _⟩, hq', rfl, hrow⟩
        obtain rfl := Option.some.inj ((hpair.mp hq).2.symm.trans (hpair.mp hq').2)
        exact hrow
      · exact fun hrow => ⟨(q, selector), hq, rfl, hrow⟩
    have hzero : t.cell .selector selector row = 0 := Assignment.cell_of_width_le (hwidth.trans (hpair.mp hq).1)
    have hone : (1 : Scalar) ≠ 0 := by decide
    rw [Assignment.isOn, hcell, hzero, if_congr hown rfl rfl, decide_eq_true_eq]
    simp [hone]

/-- There is a number past all columns of selectors and past the marks of all registered tables. -/
theorem System.exists_past (s : System) (t : Assignment) : ∃ first, t.width .selector ≤ first ∧
    ∀ id target, s.targets.get? id = some target → target.tag < first := by
  let tags := s.targets.entries.map (·.2.tag)
  refine ⟨max (t.width .selector) (tags.max?.getD 0 + 1), Nat.le_max_left .., fun id target htarget => ?_⟩
  have hmem : target.tag ∈ tags := List.mem_map_of_mem (SortedMap.get?_eq_some_iff.mp htarget)
  have hle : target.tag ≤ tags.max?.getD 0 := List.le_max?_getD_of_mem hmem
  omega

/-- Every list of requests has a circuit with a gate and a selector for each of them, as long as no registered table
    and no copy reads a selector that has no column: it might be given one. -/
theorem exists_unshared (requests : List Request)
    (htables : ∀ id target, s.targets.get? id = some target →
      ∀ option ∈ target.options, ∀ v ∈ option, v.kind = .selector → t.Has v)
    (hends : ∀ copy ∈ s.copies, ∀ v ∈ [copy.first, copy.second], v.kind = .selector → t.Has v) :
    ∃ s' t', Unshared requests s t s' t' := by
  obtain ⟨first, hwidth, htags⟩ := s.exists_past t
  obtain ⟨t', hcolumns, hwidth', hold, hon⟩ := exists_spread hwidth requests
  have hget : ∀ v : Variable, (v.kind = .selector → t.Has v) →
      t'.get? v.kind v.index = t.get? v.kind v.index := by
    intro v hv
    by_cases hkind : v.kind = .selector
    · have hlt : v.index < t.width .selector := hkind ▸ hv hkind
      funext r
      rw [hkind, Assignment.get?, Assignment.get?, if_pos hlt, if_pos (hlt.trans_le hwidth'),
        hold _ _ (hlt.trans_le hwidth)]
    · exact Assignment.get?_of_columns (hcolumns _ hkind)
  have hvalue : ∀ copy ∈ s.copies, ∀ v ∈ [copy.first, copy.second], t'.value v = t.value v :=
    fun copy hcopy v hv => by rw [Assignment.value, Assignment.value, hget v (hends copy hcopy v hv)]
  have hzip := List.zipIdx_eq_zip_range' (l := requests) (i := first)
  refine ⟨s.registerEach first requests, t', ⟨⟨List.range' first requests.length, List.nodup_range',
    List.length_range', fun selector ask => hzip ▸ System.registers_registerEach, hzip ▸ hon⟩,
    rfl, rfl, hcolumns, fun id target htarget => ?_, fun copy hcopy =>
      ⟨hvalue copy hcopy _ (by simp), hvalue copy hcopy _ (by simp)⟩⟩⟩
  refine Assignment.entries_of_isOn (fun row => ?_) fun option hoption v hv row _ => ?_
  · rw [Assignment.isOn, Assignment.isOn, hold _ _ (htags id target htarget)]
  · simp only [Assignment.valueAt, hget v (htables id target htarget option hoption v hv)]

/-! ### What a run amounts to -/

/-- Requests from a system without gates on are answered if there are columns for their selectors. Then every gate is
    on exactly in the rows in which its constraints were requested, and for all contents of the other columns the
    circuit is satisfied exactly if each request is met in each of its rows and the copies agree, and so exactly if
    it is satisfied with a gate and a selector for each request. -/
theorem Circuit.requestAll_answers (hgates : c.system.gates = []) (hlookups : c.system.lookupGates = [])
    (hfresh : ∀ selector row, c.system.nextSelector ≤ selector → c.table.cell .selector selector row = 0)
    (requests : List Request) :
    ((∀ q ∈ requests, ∀ x ∈ q.ask.exprs, ∀ v ∈ x.leaves, v.kind ≠ .selector) →
      c.system.nextSelector + (requests.map Request.ask).dedup.length ≤ c.table.width .selector →
        ∃ d, c.requestAll requests = .ok d) ∧
    ∀ d, c.requestAll requests = .ok d →
      (∀ q ∈ requests, ∃ selector, d.system.Registers selector q.ask) ∧
      (∀ selector ask, d.system.Registers selector ask → ∀ row,
        d.table.isOn selector row ↔ ∃ q ∈ requests, q.ask = ask ∧ q.covers row) ∧
      ∀ witnesses constants publicInputs, let t : Assignment := { d.table with witnesses, constants, publicInputs }
        (d.system.firstViolation t = .ok none ↔
          (∀ q ∈ requests, ∀ row, q.covers row → q.ask.Met c.system.targets t row) ∧
            ∀ copy ∈ c.system.copies, ∃ x, t.value copy.first = .ok x ∧ t.value copy.second = .ok x) ∧
        ∀ s' t', Unshared requests d.system t s' t' →
          (s'.firstViolation t' = .ok none ↔ d.system.firstViolation t = .ok none) := by
  have hempty : Shared c [] c := .nil hgates hlookups hfresh
  refine ⟨fun hopen hroom => hempty.exists_requestAll hopen ?_, fun d hrun => ?_⟩
  · rwa [List.nil_append, List.card_toFinset]
  have h := hempty.requestAll hrun
  rw [List.nil_append] at h
  refine ⟨h.known, h.on, fun witnesses constants publicInputs => ?_⟩
  intro t
  have hobliges : ∀ row ask, d.system.Obliges t row ask ↔ ∃ q ∈ requests, q.ask = ask ∧ q.covers row :=
    fun row ask => h.obliges_iff
  refine ⟨?_, fun s' t' hu => ?_⟩
  · -- To satisfy the system is to meet what is asked for in each row.
    rw [System.firstViolation_eq_none_iff, System.holds_iff, h.targets, h.copies]
    refine and_congr_left fun _ => ?_
    simp only [hobliges]
    exact ⟨fun hall q hq row hrow => hall row _ ⟨q, hq, rfl, hrow⟩,
      fun hall row ask ⟨q, hq, he, hrow⟩ => he ▸ hall q hq row hrow⟩
  · -- With a selector for each request the same is asked for in the same rows.
    refine System.firstViolation_congr hu.targets (fun copy => by rw [hu.copies]) (fun row ask => ?_)
      (fun row ask hask x hx v hv => ?_) hu.tables hu.ends
    · rw [hobliges, hu.obliges_iff]
    · obtain ⟨q, hq, rfl, -⟩ := (hobliges row ask).mp hask
      exact Assignment.valueAt_of_columns (hu.columns _ (h.operands q hq x hx v hv)) row

/-- Beside a registered table, an equality is asked for twice, with a constraint and a lookup between. It has one
    selector, and the circuit is satisfied as it is with four. -/
theorem Circuit.requestAll_of_four_requests :
    let equal : Ask := .gate [.sub (.var (.witness 0 0)) (.var (.witness 1 0))]
    let zero : Ask := .gate [.var (.witness 0 0)]
    let listed : Ask := .lookup [⟨1, [.var (.witness 0 0)]⟩]
    let requests : List Request :=
      [⟨equal, [.row 0, .range 2 4]⟩, ⟨zero, [.row 1]⟩, ⟨listed, [.row 0]⟩, ⟨equal, [.row 5]⟩]
    let start : System := { System.empty with
      copies := [⟨⟨.witness, 0, .row 0⟩, ⟨.witness, 1, .row 0⟩⟩]
      targets := ⟨[(1, ⟨0, 1, [[.constant 0 0]]⟩)], by decide⟩
      nextSelector := 1 }
    let t (selectors : Array (Array Scalar)) : Assignment :=
      ⟨#[#[7, 0, 5, 5, 1, 9], #[7, 1, 5, 5, 2, 9]], #[#[7]], #[], selectors⟩
    let c : Circuit := ⟨start, t #[#[1], #[], #[], #[]]⟩
    let s' : System := { start with
      gates := [⟨1, [.sub (.var (.witness 0 0)) (.var (.witness 1 0))]⟩, ⟨2, [.var (.witness 0 0)]⟩,
        ⟨4, [.sub (.var (.witness 0 0)) (.var (.witness 1 0))]⟩]
      lookupGates := [⟨3, [⟨1, [.var (.witness 0 0)]⟩]⟩] }
    let t' : Assignment := t #[#[1], #[1, 0, 1, 1], #[0, 1], #[1], #[0, 0, 0, 0, 0, 1]]
    ∃ d, c.requestAll requests = .ok d ∧ d.system.nextSelector = 4 ∧
      (∀ row, d.table.isOn 1 row ↔ ∃ q ∈ requests, q.ask = equal ∧ q.covers row) ∧
      d.system.firstViolation d.table = .ok none ∧ Unshared requests d.system d.table s' t' ∧
      s'.firstViolation t' = .ok none := by
  intro equal zero listed requests start t c s' t'
  let d : Circuit := ⟨{ start with
      gates := [⟨1, [.sub (.var (.witness 0 0)) (.var (.witness 1 0))]⟩, ⟨2, [.var (.witness 0 0)]⟩]
      lookupGates := [⟨3, [⟨1, [.var (.witness 0 0)]⟩]⟩]
      nextSelector := 4 }, t #[#[1], #[1, 0, 1, 1, 0, 1], #[0, 1], #[1]]⟩
  have hfresh : ∀ selector row, 1 ≤ selector → c.table.cell .selector selector row = 0 :=
    fun _ _ => Assignment.cell_of_empty (by decide)
  have hrun : c.requestAll requests = .ok d := by cbv
  obtain ⟨-, hon, hverdict⟩ := (c.requestAll_answers rfl rfl hfresh requests).2 d hrun
  have hcovered : ∀ q ∈ requests, ∀ row, q.covers row → row < 6 := by
    simp only [requests, List.forall_mem_cons, Request.covers, Switch.covers]
    grind
  have hequal : ∀ row ∈ [0, 2, 3, 5], equal.Met start.targets d.table row := by
    intro row hrow x hx
    obtain rfl := List.mem_singleton.mp hx
    revert hrow row
    decide
  have hmet : ∀ q ∈ requests, ∀ row, q.covers row → q.ask.Met start.targets d.table row := by
    refine List.forall_mem_cons.mpr ⟨fun row hrow => hequal row ?_, List.forall_mem_cons.mpr ⟨fun row hrow => ?_,
      List.forall_mem_cons.mpr ⟨fun row hrow => ?_, List.forall_mem_singleton.mpr fun row hrow => hequal row ?_⟩⟩⟩
    · simp [Request.covers, Switch.covers] at hrow
      grind
    · obtain rfl : row = 1 := by simpa [Request.covers, Switch.covers] using hrow
      rintro x hx
      obtain rfl := List.mem_singleton.mp hx
      rfl
    · obtain rfl : row = 0 := by simpa [Request.covers, Switch.covers] using hrow
      intro x hx
      obtain rfl := List.mem_singleton.mp hx
      exact ⟨_, rfl, [[7]], [7], by decide, rfl, List.mem_singleton_self _⟩
    · simp [Request.covers, Switch.covers] at hrow
      grind
  have hsatisfied : d.system.firstViolation d.table = .ok none :=
    (hverdict _ _ _).1.mpr ⟨hmet, List.forall_mem_singleton.mpr ⟨7, rfl, rfl⟩⟩
  -- The four selectors of the other circuit, each on in the rows of its request.
  have hown : Unshared requests d.system d.table s' t' := by
    refine ⟨⟨[1, 2, 3, 4], by decide, rfl, fun selector ask => ?_, fun q selector hq row => ?_⟩, rfl, rfl, ?_,
      fun id target htarget => ?_, ?_⟩
    · cases ask <;> simp [System.Registers, s', requests, equal, zero, listed] <;> grind
    · have hmarks : ∀ e ∈ requests.zip [1, 2, 3, 4], t'.marks e.2 ≤ 6 := by decide
      have hrows : ∀ e ∈ requests.zip [1, 2, 3, 4], ∀ row ∈ List.range 6, t'.isOn e.2 row = e.1.covers row := by
        decide +kernel
      by_cases hrow : row < 6
      · rw [hrows _ hq row (List.mem_range.mpr hrow)]
      · exact iff_of_false (fun hon => hrow (Nat.lt_of_lt_of_le (Assignment.lt_marks_of_isOn hon) (hmarks _ hq)))
          fun hq' => hrow (hcovered q (List.of_mem_zip hq).1 row hq')
    · rintro (_ | _ | _ | _) hkind
      · rfl
      · rfl
      · rfl
      · exact absurd rfl hkind
    · obtain ⟨rfl, rfl⟩ := Prod.mk.inj (List.mem_singleton.mp (SortedMap.get?_eq_some_iff.mp htarget))
      rfl
    · exact List.forall_mem_singleton.mpr ⟨rfl, rfl⟩
  exact ⟨d, hrun, rfl, hon 1 equal (List.mem_cons_self ..), hsatisfied, hown,
    ((hverdict _ _ _).2 s' t' hown).mpr hsatisfied⟩

end Plonkish
