import Plonkish.Lookup.Pack.Horizontal
import Plonkish.Lookup.Pack.Vertical
import Plonkish.Proofs.Lookup.Writing

/-! What packing changes. It writes grids into constant columns, hands out selectors that it turns on in a
    range of rows, and registers tables; nothing else (`Change`). So what each of these three keeps, a run
    of packing keeps: a selector that was handed out is on exactly in the rows of its range, and every
    selector not handed out is zero everywhere (`Marked`), and what was there before is still there
    (`Extends`, `Kept`). After the subtables of a placement are marked each of them is registered under its
    id with the selector of its rows (`registered_shareReferences`, `registered_placeReferences`). -/

namespace Plonkish
namespace Lookup

/-- The selectors handed out mark their ranges of rows, and the others mark nothing. -/
structure Marked (c : Circuit) (ranges : Ranges) : Prop where
  on : ∀ e ∈ ranges, ∀ row, c.table.isOn e.2 row ↔ e.1.1 ≤ row ∧ row < e.1.2
  used : ∀ e ∈ ranges, e.2 < c.system.nextSelector
  fresh : ∀ selector row, c.system.nextSelector ≤ selector → c.table.cell .selector selector row = 0

/-- Ranges and tables are added to those that there are. -/
structure Extends (c : Circuit) (ranges : Ranges) (c' : Circuit) (ranges' : Ranges) : Prop where
  ranges : ∀ e ∈ ranges, e ∈ ranges'
  targets : ∀ id target, c.system.targets.get? id = some target → c'.system.targets.get? id = some target
  width : ∀ kind, c'.table.width kind = c.table.width kind

/-- The constraints stay as they are, and selectors are only handed out. -/
structure Kept (c c' : Circuit) : Prop where
  gates : c'.system.gates = c.system.gates
  lookupGates : c'.system.lookupGates = c.system.lookupGates
  copies : c'.system.copies = c.system.copies
  reserved : c'.system.reserved = c.system.reserved
  next : c.system.nextSelector ≤ c'.system.nextSelector

/-- The selectors handed out, none of them below `base`, are on in their ranges of rows. -/
structure Lit (base : Nat) (c : Circuit) (ranges : Ranges) : Prop where
  on : ∀ e ∈ ranges, ∀ row, e.1.1 ≤ row → row < e.1.2 → c.table.isOn e.2 row
  handed : ∀ e ∈ ranges, base ≤ e.2 ∧ e.2 < c.system.nextSelector
  next : base ≤ c.system.nextSelector

variable {c c' c'' : Circuit} {ranges ranges' ranges'' : Ranges} {rows : Nat × Nat} {tag : Nat}

theorem lit_nil (c : Circuit) : Lit c.system.nextSelector c [] :=
  ⟨fun _ he => absurd he List.not_mem_nil, fun _ he => absurd he List.not_mem_nil, Nat.le_refl _⟩

theorem marked_nil
    (hzero : ∀ selector row, c.system.nextSelector ≤ selector → c.table.cell .selector selector row = 0) :
    Marked c [] :=
  ⟨fun _ he => absurd he List.not_mem_nil, fun _ he => absurd he List.not_mem_nil, hzero⟩

theorem Extends.refl (c : Circuit) (ranges : Ranges) : Extends c ranges c ranges :=
  ⟨fun _ h => h, fun _ _ h => h, fun _ => rfl⟩

theorem Extends.trans (h : Extends c ranges c' ranges') (h' : Extends c' ranges' c'' ranges'') :
    Extends c ranges c'' ranges'' where
  ranges e he := h'.ranges e (h.ranges e he)
  targets id target ht := h'.targets id target (h.targets id target ht)
  width kind := (h'.width kind).trans (h.width kind)

theorem Kept.refl (c : Circuit) : Kept c c := ⟨rfl, rfl, rfl, rfl, Nat.le_refl _⟩

theorem Kept.trans (h : Kept c c') (h' : Kept c' c'') : Kept c c'' where
  gates := h'.gates.trans h.gates
  lookupGates := h'.lookupGates.trans h.lookupGates
  copies := h'.copies.trans h.copies
  reserved := h'.reserved.trans h.reserved
  next := Nat.le_trans h.next h'.next

/-! ### Changes -/

/-- One change. A grid is written into constant cells `W` only. -/
inductive Change (W : Nat → Nat → Prop) : Circuit → Ranges → Circuit → Ranges → Prop where
  | grid {c c' : Circuit} {ranges : Ranges} {row : Nat} {cells : List (Nat × Array Scalar)}
    (h : writeGrid c row cells = .ok c')
    (hW : ∀ e ∈ cells, ∀ r, row ≤ r → r < row + e.2.size → W e.1 r) : Change W c ranges c' ranges
  | mark {c : Circuit} {ranges : Ranges} {rows : Nat × Nat} {t : Assignment}
    (h : c.table.enableRange c.system.nextSelector rows.1 rows.2 = .ok t) :
    Change W c ranges ⟨{ c.system with nextSelector := c.system.nextSelector + 1 }, t⟩
      ((rows, c.system.nextSelector) :: ranges)
  | table {c : Circuit} {ranges : Ranges} {id : Nat} {rows : Nat × Nat} (target : Target)
    (h : c.system.targets.get? id = none) (hmarked : (rows, target.tag) ∈ ranges)
    (hoptions : ∀ option ∈ target.options, ∀ v ∈ option, v.kind = .constant) :
    Change W c ranges { c with system := { c.system with targets := c.system.targets.insert id target } } ranges

/-- Changes one after the other. -/
inductive Changes (W : Nat → Nat → Prop) : Circuit → Ranges → Circuit → Ranges → Prop where
  | refl (c : Circuit) (ranges : Ranges) : Changes W c ranges c ranges
  | step {c c' c'' : Circuit} {ranges ranges' ranges'' : Ranges} (h : Changes W c ranges c' ranges')
    (h' : Change W c' ranges' c'' ranges'') : Changes W c ranges c'' ranges''

variable {W V : Nat → Nat → Prop}

theorem Change.changes (h : Change W c ranges c' ranges') : Changes W c ranges c' ranges' := .step (.refl _ _) h

namespace Changes

theorem trans (h : Changes W c ranges c' ranges') (h' : Changes W c' ranges' c'' ranges'') :
    Changes W c ranges c'' ranges'' := by
  induction h' with
  | refl => exact h
  | step _ hstep ih => exact .step (ih h) hstep

theorem mono (hWV : ∀ column row, W column row → V column row) (h : Changes W c ranges c' ranges') :
    Changes V c ranges c' ranges' := by
  induction h with
  | refl => exact .refl _ _
  | step _ hstep ih =>
    refine .step ih ?_
    cases hstep with
    | grid h hW => exact .grid h fun e he r h₁ h₂ => hWV _ _ (hW e he r h₁ h₂)
    | mark h => exact .mark h
    | table target h hmarked hoptions => exact .table target h hmarked hoptions

/-- What every change keeps, a run of changes keeps. -/
theorem preserves (Q : Circuit → Ranges → Prop)
    (effect : ∀ {c ranges c' ranges'}, Change W c ranges c' ranges' → Q c ranges → Q c' ranges')
    (h : Changes W c ranges c' ranges') (hq : Q c ranges) : Q c' ranges' := by
  induction h with
  | refl => exact hq
  | step _ hstep ih => exact effect hstep (ih hq)

end Changes

/-! ### What changes keep -/

theorem Change.extends (h : Change W c ranges c' ranges') : Extends c ranges c' ranges' := by
  cases h with
  | grid h => exact ⟨fun _ he => he, fun _ _ ht => system_writeGrid h ▸ ht, width_writeGrid h⟩
  | mark h => exact ⟨fun e he => List.mem_cons_of_mem _ he, fun _ _ h => h, Assignment.width_enableRange h⟩
  | @table _ id _ target hnone =>
    refine ⟨fun _ he => he, fun id' old hold => ?_, fun _ => rfl⟩
    have hne : id' ≠ id := by
      rintro rfl
      rw [hnone] at hold
      cases hold
    simpa [hne] using hold

theorem Changes.extends (h : Changes W c ranges c' ranges') : Extends c ranges c' ranges' :=
  h.preserves (Extends c ranges) (fun hstep hq => hq.trans hstep.extends) (.refl c ranges)

theorem Change.kept (h : Change W c ranges c' ranges') : Kept c c' := by
  cases h with
  | grid h =>
    have hsystem := system_writeGrid h
    exact ⟨by rw [hsystem], by rw [hsystem], by rw [hsystem], by rw [hsystem],
      Nat.le_of_eq (by rw [hsystem])⟩
  | mark h => exact ⟨rfl, rfl, rfl, rfl, Nat.le_succ _⟩
  | table => exact ⟨rfl, rfl, rfl, rfl, Nat.le_refl _⟩

theorem Changes.kept (h : Changes W c ranges c' ranges') : Kept c c' :=
  h.preserves (fun c' _ => Kept c c') (fun hstep hq => hq.trans hstep.kept) (.refl c)

/-- Outside the selectors, changes write the constant cells that they may write and no others. -/
theorem Changes.cell_eq (h : Changes W c ranges c' ranges') {k : ColumnKind} {column row : Nat}
    (hk : k ≠ .selector) (hW : k = .constant → ¬ W column row) :
    c'.table.cell k column row = c.table.cell k column row := by
  refine h.preserves (fun c' _ => c'.table.cell k column row = c.table.cell k column row) (fun hstep hq => ?_) rfl
  rw [← hq]
  cases hstep with
  | grid h hin =>
    exact cell_writeGrid_of_forall h fun e he hk hc hr => hW hk (hc ▸ hin e he row hr.1 hr.2)
  | mark h => rw [Assignment.cell_enableRange h, if_neg fun hc => hk hc.1]
  | table => rfl

theorem cell_selector_writeGrid {row : Nat} {cells : List (Nat × Array Scalar)} (h : writeGrid c row cells = .ok c')
    (selector r : Nat) : c'.table.cell .selector selector r = c.table.cell .selector selector r :=
  cell_writeGrid_of_forall h fun _ _ hk => nomatch hk

/-- A fresh selector is on in its range only, since it was zero everywhere. -/
theorem Change.marked (h : Change W c ranges c' ranges') (hm : Marked c ranges) : Marked c' ranges' := by
  cases h with
  | grid h =>
    -- A grid is written into constants, and the marks stay as they are.
    have hcell := cell_selector_writeGrid h
    have hsystem := system_writeGrid h
    refine ⟨fun e he row => ?_, fun e he => hsystem ▸ hm.used e he, fun selector row hs => ?_⟩
    · rw [Assignment.isOn, hcell]
      exact hm.on e he row
    · rw [hcell]
      exact hm.fresh selector row (hsystem ▸ hs)
  | @mark _ rows t ht =>
    refine ⟨fun e he row => ?_, fun e he => ?_, fun selector row hs => ?_⟩
    · dsimp only
      rw [Assignment.isOn, Assignment.cell_enableRange ht]
      rcases List.mem_cons.mp he with rfl | he
      · have hzero := hm.fresh _ row (Nat.le_refl _)
        have hone : (1 : Scalar) ≠ 0 := by decide
        -- The new selector was off everywhere and is on in its rows now.
        by_cases hr : rows.1 ≤ row ∧ row < rows.2
        · simp only [hr, and_self, if_true, ne_eq, hone, not_false_eq_true, decide_true]
        · simp [hr, hzero]
      · -- A selector handed out before is another one, so its column was not written.
        have hne : e.2 ≠ c.system.nextSelector := Nat.ne_of_lt (hm.used e he)
        simpa [Assignment.isOn, hne] using hm.on e he row
    · rcases List.mem_cons.mp he with rfl | he
      · exact Nat.lt_succ_self _
      · exact Nat.lt_succ_of_lt (hm.used e he)
    · dsimp only at hs ⊢
      rw [Assignment.cell_enableRange ht, if_neg (by omega)]
      exact hm.fresh selector row (by omega)
  | table => exact ⟨hm.on, hm.used, hm.fresh⟩

theorem Changes.marked (h : Changes W c ranges c' ranges') (hm : Marked c ranges) : Marked c' ranges' :=
  h.preserves Marked Change.marked hm

theorem Change.isOn (h : Change W c ranges c' ranges') {selector row : Nat} (hon : c.table.isOn selector row) :
    c'.table.isOn selector row := by
  cases h with
  | grid h => rwa [Assignment.isOn, cell_selector_writeGrid h]
  | mark h =>
    rw [Assignment.isOn, Assignment.cell_enableRange h]
    split
    · decide
    · exact hon
  | table => exact hon

theorem Change.lit {base : Nat} (h : Change W c ranges c' ranges') (hl : Lit base c ranges) : Lit base c' ranges' := by
  have hnext := h.kept.next
  have hold : ∀ e ∈ ranges, (∀ row, e.1.1 ≤ row → row < e.1.2 → c'.table.isOn e.2 row) ∧
      base ≤ e.2 ∧ e.2 < c'.system.nextSelector := fun e he =>
    ⟨fun row h₁ h₂ => h.isOn (hl.on e he row h₁ h₂), (hl.handed e he).1, Nat.lt_of_lt_of_le (hl.handed e he).2 hnext⟩
  have hbase := Nat.le_trans hl.next hnext
  cases h with
  | grid h => exact ⟨fun e he => (hold e he).1, fun e he => (hold e he).2, hbase⟩
  | table => exact ⟨fun e he => (hold e he).1, fun e he => (hold e he).2, hbase⟩
  | mark h =>
    refine ⟨List.forall_mem_cons.mpr ⟨fun row h₁ h₂ => ?_, fun e he => (hold e he).1⟩,
      List.forall_mem_cons.mpr ⟨⟨hl.next, Nat.lt_succ_self _⟩, fun e he => (hold e he).2⟩, hbase⟩
    rw [Assignment.isOn, Assignment.cell_enableRange h, if_pos ⟨rfl, rfl, h₁, h₂⟩]
    decide

theorem Changes.lit {base : Nat} (h : Changes W c ranges c' ranges') (hl : Lit base c ranges) : Lit base c' ranges' :=
  h.preserves (Lit base) Change.lit hl

/-! ### Selectors -/

theorem allocate_eq (c : Circuit) : allocate c =
    ({ c with system := { c.system with nextSelector := c.system.nextSelector + 1 } },
      if c.system.nextSelector < c.table.width .selector then .ok c.system.nextSelector
      else .error (.selectorColumns c.system.nextSelector (c.table.width .selector))) :=
  rfl

theorem allocate_eq_ok (h : allocate c = (c', .ok tag)) :
    tag = c.system.nextSelector ∧ c' = { c with system := { c.system with nextSelector := tag + 1 } } := by
  rw [allocate_eq, Prod.mk.injEq] at h
  obtain ⟨rfl, h⟩ := h
  split at h
  · obtain rfl := Except.ok.inj h
    exact ⟨rfl, rfl⟩
  · cases h

theorem lt_of_allocate (h : allocate c = (c', .ok tag)) : tag < c.table.width .selector := by
  rw [allocate_eq, Prod.mk.injEq] at h
  obtain ⟨-, h⟩ := h
  split at h
  · exact Except.ok.inj h ▸ ‹_›
  · cases h

theorem allocate_eq_error {e : Refusal} (h : allocate c = (c', .error e)) :
    c.table.width .selector ≤ c.system.nextSelector ∧
      e = .selectorColumns c.system.nextSelector (c.table.width .selector) := by
  rw [allocate_eq, Prod.mk.injEq] at h
  obtain ⟨-, h⟩ := h
  split at h
  · cases h
  · exact ⟨by omega, (Except.error.inj h).symm⟩

/-- A selector handed out and turned on is a change. -/
theorem change_of_allocate (h : allocate c = (c', .ok tag)) (h' : c'.enableRange tag rows.1 rows.2 = .ok c'') :
    Change W c ranges c'' ((rows, tag) :: ranges) := by
  obtain ⟨rfl, rfl⟩ := allocate_eq_ok h
  obtain ⟨t, ht, h'⟩ := bind_eq_ok.mp h'
  obtain rfl := Except.ok.inj h'
  exact .mark ht

/-- A range that came up before has its selector already. A new one gets the next selector, unless that has no
    column. -/
theorem shareSelector_cases {o : Except Refusal (Nat × Ranges)} (h : shareSelector ranges rows c = .ok (c', o)) :
    (∃ tag, (rows, tag) ∈ ranges ∧ c' = c ∧ o = .ok (tag, ranges)) ∨
      rows ∉ ranges.map Prod.fst ∧ ((∃ e, allocate c = (c', .error e) ∧ o = .error e) ∨
        ∃ c₁ tag, allocate c = (c₁, .ok tag) ∧ c₁.enableRange tag rows.1 rows.2 = .ok c' ∧
          o = .ok (tag, (rows, tag) :: ranges)) := by
  unfold shareSelector at h
  split at h
  · rename_i tag hlookup
    obtain ⟨l₁, l₂, rfl, -⟩ := List.lookup_eq_some_iff.mp hlookup
    cases h
    exact Or.inl ⟨tag, by simp, rfl, rfl⟩
  · rename_i hlookup
    have hnew : rows ∉ ranges.map Prod.fst := fun hmem => by
      obtain ⟨e, he, rfl⟩ := List.mem_map.mp hmem
      simpa using List.lookup_eq_none_iff.mp hlookup e he
    refine Or.inr ⟨hnew, ?_⟩
    split at h
    · rename_i e hallocate
      cases h
      exact Or.inl ⟨e, hallocate, rfl⟩
    · rename_i c₁ tag hallocate
      obtain ⟨c₂, henable, h⟩ := bind_eq_ok.mp h
      cases h
      exact Or.inr ⟨c₁, tag, hallocate, henable, rfl⟩

theorem shareSelector_eq_ok (h : shareSelector ranges rows c = .ok (c', .ok (tag, ranges'))) :
    (rows, tag) ∈ ranges' ∧ Changes W c ranges c' ranges' := by
  obtain ⟨tag', hmem, rfl, ho⟩ | ⟨-, ⟨e, -, ho⟩ | ⟨c₁, tag', hallocate, henable, ho⟩⟩ := shareSelector_cases h
  · cases ho
    exact ⟨hmem, .refl _ _⟩
  · cases ho
  · cases ho
    exact ⟨List.mem_cons_self, (change_of_allocate hallocate henable).changes⟩

/-! ### Tables -/

variable {p : Placement} {columns : List Nat} {references : List Reference} {r : Reference}
  {places : List (List Nat)} {s : Subtable}

theorem foldlM_addOption_eq_ok {places : List (List Nat)} {target target' : Target}
    (h : places.foldlM (fun target columns => do target.addOption (← s.option columns)) target = .ok target') :
    target'.tag = target.tag ∧ ∃ options, places.mapM s.option = .ok options ∧
      target'.options = target.options ++ options := by
  induction places generalizing target with
  | nil =>
    obtain rfl := Except.ok.inj h
    exact ⟨rfl, [], rfl, (List.append_nil _).symm⟩
  | cons place rest ih =>
    obtain ⟨target₁, h₁, h⟩ := bind_eq_ok.mp h
    obtain ⟨option, hoption, h₁⟩ := bind_eq_ok.mp h₁
    unfold Target.addOption at h₁
    split at h₁
    · obtain rfl := Except.ok.inj h₁
      obtain ⟨htag, options, hoptions, happend⟩ := ih h
      refine ⟨htag, option :: options, ?_, by simpa using happend⟩
      rw [mapM_eq_ok, List.map_cons, List.map_cons, hoption, mapM_eq_ok.mp hoptions]
    · cases h₁

theorem target_eq_ok {tag : Nat} {places : List (List Nat)} {target : Target}
    (h : s.target tag places = .ok target) : target.tag = tag ∧ places.mapM s.option = .ok target.options := by
  obtain ⟨htag, options, hoptions, happend⟩ := foldlM_addOption_eq_ok h
  exact ⟨htag, by rw [happend]; exact hoptions⟩

theorem kind_of_target {tag : Nat} {places : List (List Nat)} {target : Target} (h : s.target tag places = .ok target)
    {option : List Variable} (hoption : option ∈ target.options) : ∀ v ∈ option, v.kind = .constant := by
  obtain ⟨place, -, hplace⟩ := (mem_of_mapM_eq_ok (target_eq_ok h).2).mp hoption
  intro v hv
  obtain ⟨i, -, hcolumn⟩ := (mem_of_mapM_eq_ok hplace).mp hv
  split at hcolumn
  · obtain rfl := Except.ok.inj hcolumn
    rfl
  · cases hcolumn

/-- A subtable is registered under its id, with the selector of its rows and one option for each group. -/
def Registered (c : Circuit) (ranges : Ranges) (columns : List Nat) (p : Placement) (r : Reference) : Prop :=
  ∃ tag target, (p.rowsOf r.subtable, tag) ∈ ranges ∧
    r.subtable.target tag (p.places columns) = .ok target ∧ c.system.targets.get? r.id = some target

theorem Registered.extend (h : Registered c ranges columns p r) (he : Extends c ranges c' ranges') :
    Registered c' ranges' columns p r := by
  obtain ⟨tag, target, hmem, htarget, hget⟩ := h
  exact ⟨tag, target, he.ranges _ hmem, htarget, he.targets _ _ hget⟩

theorem register_eq_ok (h : register c r tag places = .ok c') :
    ∃ target, r.subtable.target tag places = .ok target ∧ c.system.targets.get? r.id = none ∧
      c' = { c with system := { c.system with targets := c.system.targets.insert r.id target } } := by
  obtain ⟨target, ht, h⟩ := bind_eq_ok.mp h
  obtain ⟨s, hs, h⟩ := bind_eq_ok.mp h
  unfold System.register at hs
  split at hs
  · cases hs
  · rename_i hnone
    cases hs
    cases h
    exact ⟨target, ht, by simpa [SortedMap.contains] using hnone, rfl⟩

theorem change_of_register (h : register c r tag places = .ok c') (hmarked : (rows, tag) ∈ ranges) :
    Change W c ranges c' ranges := by
  obtain ⟨target, htarget, hnone, rfl⟩ := register_eq_ok h
  exact .table target hnone ((target_eq_ok htarget).1 ▸ hmarked) fun _ => kind_of_target htarget

theorem registered_of_register (hmem : (p.rowsOf r.subtable, tag) ∈ ranges)
    (h : register c r tag (p.places columns) = .ok c') : Registered c' ranges columns p r := by
  obtain ⟨target, htarget, -, rfl⟩ := register_eq_ok h
  exact ⟨tag, target, hmem, htarget, by simp⟩

theorem shareReferences_cons_eq_ok
    (h : shareReferences p places ranges c (r :: references) = .ok (c', .ok ranges')) :
    ∃ c₁ c₂ tag ranges₁, shareSelector ranges (p.rowsOf r.subtable) c = .ok (c₁, .ok (tag, ranges₁)) ∧
      register c₁ r tag places = .ok c₂ ∧ shareReferences p places ranges₁ c₂ references = .ok (c', .ok ranges') := by
  obtain ⟨⟨c₁, o⟩, hshare, h⟩ := bind_eq_ok.mp h
  cases o with
  | error e => cases h
  | ok o =>
    obtain ⟨c₂, hregister, h⟩ := bind_eq_ok.mp h
    exact ⟨c₁, c₂, o.1, o.2, hshare, hregister, h⟩

theorem changes_shareReferences
    (h : shareReferences p places ranges c references = .ok (c', .ok ranges')) : Changes W c ranges c' ranges' := by
  induction references generalizing c ranges with
  | nil =>
    cases h
    exact .refl _ _
  | cons r rest ih =>
    obtain ⟨c₁, c₂, tag, ranges₁, hshare, hregister, h⟩ := shareReferences_cons_eq_ok h
    obtain ⟨hmem, hchanges⟩ := shareSelector_eq_ok hshare
    exact (hchanges.step (change_of_register hregister hmem)).trans (ih h)

/-- Every subtable of a placement is registered with the selector of its rows. -/
theorem registered_shareReferences
    (h : shareReferences p (p.places columns) ranges c references = .ok (c', .ok ranges')) :
    ∀ r ∈ references, Registered c' ranges' columns p r := by
  induction references generalizing c ranges with
  | nil => exact fun r hr => absurd hr List.not_mem_nil
  | cons r rest ih =>
    obtain ⟨c₁, c₂, tag, ranges₁, hshare, hregister, h⟩ := shareReferences_cons_eq_ok h
    have hlater := (changes_shareReferences (W := fun _ _ => False) h).extends
    have hmem := (shareSelector_eq_ok (W := fun _ _ => False) hshare).1
    exact List.forall_mem_cons.mpr ⟨(registered_of_register hmem hregister).extend hlater, ih h⟩

theorem placeReferences_cons_eq_ok {start : Nat}
    (h : placeReferences columns start c (r :: references) = .ok (c', .ok ())) :
    ∃ c₁ c₂ tag, (∀ ranges, Change W c ranges c₁
        (((start + r.subtable.first, start + r.subtable.last + 1), tag) :: ranges)) ∧
      register c₁ r tag [columns] = .ok c₂ ∧ placeReferences columns start c₂ references = .ok (c', .ok ()) := by
  rw [placeReferences] at h
  split at h
  · cases h
  · rename_i c₀ tag hallocate
    obtain ⟨c₁, henable, h⟩ := bind_eq_ok.mp h
    obtain ⟨c₂, hregister, h⟩ := bind_eq_ok.mp h
    exact ⟨c₁, c₂, tag, fun ranges => change_of_allocate hallocate henable, hregister, h⟩

/-- The same for a table that is not folded, where every subtable gets a selector of its own. -/
theorem registered_placeReferences {start : Nat} (hfolds : p.strip.folds = 1) (hstart : p.y = start)
    (hplaces : ∀ r ∈ references, ∀ tag, r.subtable.target tag [columns] = r.subtable.target tag (p.places columns))
    (h : placeReferences columns start c references = .ok (c', .ok ())) (ranges : Ranges) :
    ∃ ranges', Changes W c ranges c' ranges' ∧ ∀ r ∈ references, Registered c' ranges' columns p r := by
  induction references generalizing c ranges with
  | nil =>
    cases h
    exact ⟨ranges, .refl _ _, fun r hr => absurd hr List.not_mem_nil⟩
  | cons r rest ih =>
    obtain ⟨c₁, c₂, tag, hchange, hregister, h⟩ := placeReferences_cons_eq_ok h
    obtain ⟨hr, hrest⟩ := List.forall_mem_cons.mp hplaces
    obtain ⟨ranges', hlater, hall⟩ := ih hrest h _
    have hrows : p.rowsOf r.subtable = (start + r.subtable.first, start + r.subtable.last + 1) := by
      rw [Placement.rowsOf, if_neg (by omega), hstart]
    have hregister' : register c₁ r tag (p.places columns) = .ok c₂ := by
      rwa [register, ← hr tag]
    have hmem : (p.rowsOf r.subtable, tag) ∈
        ((start + r.subtable.first, start + r.subtable.last + 1), tag) :: ranges := by
      rw [hrows]
      exact List.mem_cons_self
    have hregistered := registered_of_register hmem hregister'
    exact ⟨ranges', ((hchange ranges).changes.step (change_of_register hregister hmem)).trans hlater,
      List.forall_mem_cons.mpr ⟨hregistered.extend hlater.extends, hall⟩⟩

end Lookup
end Plonkish
