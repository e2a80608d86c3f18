import Mathlib
import Plonkish.Proofs.Lookup.Stacking

/-! Packing one below the other, exactly. The subtables in use get the selectors in the order of their tables and
    names, and each selector is one in the rows of its subtable only (`Ledger`, kept by `stack`). With columns
    for the widest table, a selector for every subtable in use and no two of these under one full name the
    packing succeeds, and otherwise it does not (`packVertical_answers`). The full names matter: subtables of two
    tables may share one, and with it their id, which is registered once (`tableIdTaken_of_shared_name`). -/

namespace Plonkish
namespace Lookup

/-- A subtable in use, with its table and the row that the table begins in. -/
structure Spot where
  table : Table
  row : Nat
  reference : Reference

namespace Spot

def fullName (p : Spot) : String := join p.table.name p.reference.name

/-- The first row of the subtable. -/
def first (p : Spot) : Nat := p.row + p.reference.subtable.first

/-- The last row of the subtable. -/
def last (p : Spot) : Nat := p.row + p.reference.subtable.last

end Spot

/-- The subtables in use of tables that lie one below the other from row `start` on. -/
def spots (reserved : Reserved) (start : Nat) : List Table → List Spot
  | [] => []
  | t :: ts => (t.references reserved).map (Spot.mk t start) ++ spots reserved (start + t.grid.get.rows) ts

variable {reserved : Reserved} {tables ts : List Table} {columns : List Nat} {c c₀ c' d : Circuit} {t : Table}
  {g : Grid} {r : Reference} {rs : List Reference} {s : Subtable} {p : Spot} {done : List Spot} {start tag n : Nat}

/-! ### Spots -/

theorem mem_spots : p ∈ spots reserved start ts ↔ ∃ before after, ts = before ++ p.table :: after ∧
    p.row = start + heights before ∧ p.reference ∈ p.table.references reserved := by
  induction ts generalizing start with
  | nil => simp [spots]
  | cons t rest ih =>
    rw [spots, List.mem_append, ih]
    constructor
    · rintro (hp | ⟨before, after, rfl, hrow, hr⟩)
      · obtain ⟨r, hr, rfl⟩ := List.mem_map.mp hp
        exact ⟨[], rest, rfl, rfl, hr⟩
      · exact ⟨t :: before, after, rfl, by simp [hrow, heights, Nat.add_assoc], hr⟩
    · rintro ⟨before, after, he, hrow, hr⟩
      cases before with
      | nil =>
        obtain ⟨rfl, rfl⟩ := List.cons.inj he
        obtain ⟨t, row, r⟩ := p
        obtain rfl : row = start := hrow
        exact Or.inl (List.mem_map_of_mem hr)
      | cons t₀ before =>
        obtain ⟨rfl, rfl⟩ := List.cons.inj he
        exact Or.inr ⟨before, after, rfl, by rw [hrow]; simp [heights, Nat.add_assoc], hr⟩

theorem get?_fullName (h : p ∈ spots reserved start ts) : reserved.get? p.fullName = some p.reference.id := by
  obtain ⟨-, -, -, -, hr⟩ := mem_spots.mp h
  exact get?_of_mem_references hr

/-- Subtables in use have one id only if they have one full name. -/
theorem nodup_ids_iff (hids : reserved.values.Nodup) : ((spots reserved start ts).map (·.reference.id)).Nodup ↔
    ((spots reserved start ts).map Spot.fullName).Nodup :=
  nodup_ids_iff_names hids fun _ hp => get?_fullName hp

/-! ### Steps that succeed -/

theorem exists_writeDown {a : Assignment} {kind : ColumnKind} {column : Nat} (h : column < a.width kind) (row : Nat)
    (xs : List Scalar) : ∃ a', a.writeDown kind column row xs = .ok a' := by
  induction xs generalizing a row with
  | nil => exact ⟨a, rfl⟩
  | cons x xs ih =>
    obtain ⟨a₁, h₁⟩ : ∃ a₁, a.set kind column row x = .ok a₁ := ⟨_, if_pos h⟩
    obtain ⟨a', h'⟩ := ih (a := a₁) (by rwa [Assignment.width_set h₁]) (row + 1)
    exact ⟨a', bind_eq_ok.mpr ⟨a₁, h₁, h'⟩⟩

theorem exists_writeGrid {cells : List (Nat × Array Scalar)} (h : ∀ e ∈ cells, e.1 < c.table.width .constant)
    (row : Nat) : ∃ c', writeGrid c row cells = .ok c' := by
  induction cells generalizing c with
  | nil => exact ⟨c, rfl⟩
  | cons e rest ih =>
    obtain ⟨he, hrest⟩ := List.forall_mem_cons.mp h
    obtain ⟨a, ha⟩ := exists_writeDown he row e.2.toList
    obtain ⟨c', hc'⟩ := ih (c := { c with table := a })
      fun e he => Nat.lt_of_lt_of_eq (hrest e he) (Assignment.width_writeDown ha .constant).symm
    exact ⟨c', bind_eq_ok.mpr ⟨_, bind_eq_ok.mpr ⟨a, ha, rfl⟩, hc'⟩⟩

theorem exists_option_of_lt (h : ∀ i ∈ s.columns, i < columns.length) :
    ∃ option, s.option columns = .ok option ∧ option.length = s.columns.length := by
  obtain ⟨option, hoption⟩ : ∃ option, s.option columns = .ok option := by
    refine exists_mapM_eq_ok.mpr fun i hi => ?_
    rw [List.getElem?_eq_getElem (h i hi)]
    exact ⟨_, rfl⟩
  have hmap := congrArg List.length (mapM_eq_ok.mp hoption)
  exact ⟨option, hoption, by simpa using hmap.symm⟩

/-- A subtable has a target if each place of its table has all of its columns. -/
theorem exists_target {places : List (List Nat)} (h : ∀ place ∈ places, ∀ i ∈ s.columns, i < place.length) (tag : Nat) :
    ∃ target, s.target tag places = .ok target := by
  have hfold : ∀ target : Target, target.width = s.columns.length → ∃ target',
      places.foldlM (fun target columns => do target.addOption (← s.option columns)) target = .ok target' := by
    induction places with
    | nil => exact fun target _ => ⟨target, rfl⟩
    | cons place rest ih =>
      intro target hwidth
      obtain ⟨hplace, hrest⟩ := List.forall_mem_cons.mp h
      obtain ⟨option, hoption, hlength⟩ := exists_option_of_lt hplace
      obtain ⟨target', h'⟩ := ih hrest { target with options := target.options ++ [option] } hwidth
      refine ⟨target', bind_eq_ok.mpr ⟨_, bind_eq_ok.mpr ⟨option, hoption, if_pos ?_⟩, h'⟩⟩
      exact hlength.trans hwidth.symm
  exact hfold (.blank s.columns.length tag) rfl

/-! ### One subtable -/

/-- A circuit after one more subtable was given a selector and registered. -/
def served (c : Circuit) (r : Reference) (a : Assignment) (target : Target) : Circuit :=
  ⟨{ c.system with
      nextSelector := c.system.nextSelector + 1
      targets := c.system.targets.insert r.id target }, a⟩

/-- A subtable can be served if a selector has a column and the id is free. -/
theorem placeReferences_cons_iff {o : Except Refusal Unit} (hlt : c.system.nextSelector < c.table.width .selector) :
    placeReferences columns start c (r :: rs) = .ok (c', o) ↔ ∃ a target,
      c.table.enableRange c.system.nextSelector (start + r.subtable.first) (start + r.subtable.last + 1) = .ok a ∧
      r.subtable.target c.system.nextSelector [columns] = .ok target ∧ c.system.targets.get? r.id = none ∧
      placeReferences columns start (served c r a target) rs = .ok (c', o) := by
  have hallocate : allocate c = ({ c with system := { c.system with nextSelector := c.system.nextSelector + 1 } },
      .ok c.system.nextSelector) := by rw [allocate_eq, if_pos hlt]
  rw [placeReferences, hallocate]
  constructor
  · intro h
    obtain ⟨c₁, henable, h⟩ := bind_eq_ok.mp h
    obtain ⟨a, ha, henable⟩ := bind_eq_ok.mp henable
    obtain rfl := Except.ok.inj henable
    obtain ⟨c₂, hregister, h⟩ := bind_eq_ok.mp h
    obtain ⟨target, htarget, hnone, rfl⟩ := register_eq_ok hregister
    exact ⟨a, target, ha, htarget, hnone, h⟩
  · rintro ⟨a, target, ha, htarget, hnone, h⟩
    refine bind_eq_ok.mpr ⟨_, bind_eq_ok.mpr ⟨a, ha, rfl⟩, bind_eq_ok.mpr ⟨_, bind_eq_ok.mpr ⟨target, htarget, ?_⟩, h⟩⟩
    refine bind_eq_ok.mpr ⟨_, if_neg ?_, rfl⟩
    simp [SortedMap.contains, hnone]

/-- The subtables of a table are served until the selectors run out. -/
theorem exists_placeReferences (hcolumns : ∀ r ∈ rs, ∀ i ∈ r.subtable.columns, i < columns.length)
    (hids : (rs.map Reference.id).Nodup) (hfree : ∀ r ∈ rs, c.system.targets.get? r.id = none) (start : Nat) :
    ∃ c' o, placeReferences columns start c rs = .ok (c', o) ∧
      (c.system.nextSelector + rs.length ≤ c.table.width .selector → o = .ok ()) := by
  induction rs generalizing c with
  | nil => exact ⟨c, .ok (), rfl, fun _ => rfl⟩
  | cons r rest ih =>
    by_cases hlt : c.system.nextSelector < c.table.width .selector
    · obtain ⟨hr, hcolumns⟩ := List.forall_mem_cons.mp hcolumns
      obtain ⟨hnone, hfree⟩ := List.forall_mem_cons.mp hfree
      rw [List.map_cons, List.nodup_cons] at hids
      obtain ⟨a, ha⟩ := Assignment.exists_enableRange hlt (start + r.subtable.first) (start + r.subtable.last + 1)
      obtain ⟨target, htarget⟩ : ∃ target, r.subtable.target c.system.nextSelector [columns] = .ok target :=
        exists_target (fun place hplace => List.mem_singleton.mp hplace ▸ hr) c.system.nextSelector
      -- The id of this subtable is taken now, those of the others are still free.
      have hfree' : ∀ r' ∈ rest, (served c r a target).system.targets.get? r'.id = none := by
        intro r' hr'
        have hne : r'.id ≠ r.id := fun he => hids.1 (he ▸ List.mem_map_of_mem hr')
        simpa [served, hne] using hfree r' hr'
      obtain ⟨c', o, hrun, ho⟩ := ih hcolumns hids.2 hfree'
      refine ⟨c', o, (placeReferences_cons_iff hlt).mpr ⟨a, target, ha, htarget, hnone, hrun⟩, fun hle => ho ?_⟩
      rw [served, Assignment.width_enableRange ha]
      simpa [Nat.add_assoc, Nat.add_comm 1] using hle
    · -- No selector is left for this subtable, so none is left for all of them.
      have hrefused : placeReferences columns start c (r :: rest) = .ok ((allocate c).1,
          .error (.selectorColumns c.system.nextSelector (c.table.width .selector))) := by
        rw [placeReferences, allocate_eq, if_neg hlt]
      refine ⟨_, _, hrefused, fun hle => absurd hle ?_⟩
      simp only [List.length_cons]
      omega

/-! ### The ledger of a run -/

/-- What a run has changed once it has served subtables: the first of them has the first fresh selector, the next
    one the next, and so on. -/
structure Ledger (columns : List Nat) (c₀ : Circuit) (done : List Spot) (c : Circuit) : Prop where
  next : c.system.nextSelector = c₀.system.nextSelector + done.length
  width (kind : ColumnKind) : c.table.width kind = c₀.table.width kind
  /-- Every selector has a column. -/
  bound : done = [] ∨ c₀.system.nextSelector + done.length ≤ c₀.table.width .selector
  /-- A selector is one in the rows of its subtable and zero elsewhere. -/
  mark : ∀ k p, done[k]? = some p → ∀ row, c.table.cell .selector (c₀.system.nextSelector + k) row =
    if p.first ≤ row ∧ row ≤ p.last then 1 else 0
  fresh : ∀ selector row, c.system.nextSelector ≤ selector → c.table.cell .selector selector row = 0
  target : ∀ k p, done[k]? = some p → ∃ target, c.system.targets.get? p.reference.id = some target ∧
    target.tag = c₀.system.nextSelector + k
  others : ∀ id, id ∉ done.map (·.reference.id) → c.system.targets.get? id = c₀.system.targets.get? id
  ids : (done.map (·.reference.id)).Nodup

namespace Ledger

theorem nil (hzero : ∀ selector row, c.system.nextSelector ≤ selector → c.table.cell .selector selector row = 0) :
    Ledger columns c [] c where
  next := rfl
  width _ := rfl
  bound := Or.inl rfl
  mark _ _ h := by simp at h
  fresh := hzero
  target _ _ h := by simp at h
  others _ _ := rfl
  ids := List.nodup_nil

variable (h : Ledger columns c₀ done c)
include h

theorem grid {row : Nat} {cells : List (Nat × Array Scalar)} (hgrid : writeGrid c row cells = .ok c') :
    Ledger columns c₀ done c' := by
  have hsystem := system_writeGrid hgrid
  have hcell := cell_selector_writeGrid hgrid
  exact ⟨hsystem ▸ h.next, fun kind => (width_writeGrid hgrid kind).trans (h.width kind), h.bound,
    fun k p hp row => (hcell _ row).trans (h.mark k p hp row),
    fun selector row hle => (hcell _ row).trans (h.fresh selector row (hsystem ▸ hle)), hsystem ▸ h.target,
    hsystem ▸ h.others, h.ids⟩

/-- One more subtable has the next selector. -/
theorem serve {a : Assignment} {target : Target} (hlt : c.system.nextSelector < c.table.width .selector)
    (ha : c.table.enableRange c.system.nextSelector (start + r.subtable.first) (start + r.subtable.last + 1) = .ok a)
    (htarget : r.subtable.target c.system.nextSelector [columns] = .ok target)
    (hnew : r.id ∉ done.map (·.reference.id)) : Ledger columns c₀ (done ++ [⟨t, start, r⟩]) (served c r a target) where
  next := by simp [served, h.next, Nat.add_assoc]
  width kind := (Assignment.width_enableRange ha kind).trans (h.width kind)
  bound := by
    have hnext := h.next
    have hwidth := h.width .selector
    refine Or.inr ?_
    simp only [List.length_append, List.length_singleton]
    omega
  mark k p hp row := by
    have hnext := h.next
    rw [served, Assignment.cell_enableRange ha]
    rcases Nat.lt_trichotomy k done.length with hk | rfl | hk
    · rw [if_neg (by omega)]
      exact h.mark k p (by rwa [List.getElem?_append_left hk] at hp) row
    · simp only [List.getElem?_concat_length, Option.some.injEq] at hp
      subst hp
      -- The new one was zero everywhere, and is one in the rows of its subtable only.
      rw [h.fresh _ row (Nat.le_of_eq hnext)]
      refine if_congr ?_ rfl rfl
      simp [hnext, Spot.first, Spot.last]
    · rw [List.getElem?_eq_none (by simpa using hk)] at hp
      cases hp
  fresh selector row hle := by
    have hle' : c.system.nextSelector + 1 ≤ selector := hle
    rw [served, Assignment.cell_enableRange ha, if_neg (by omega)]
    exact h.fresh selector row (by omega)
  target k p hp := by
    rcases Nat.lt_trichotomy k done.length with hk | rfl | hk
    · rw [List.getElem?_append_left hk] at hp
      obtain ⟨old, hget, htag⟩ := h.target k p hp
      have hne : p.reference.id ≠ r.id := fun he => hnew (he ▸ List.mem_map_of_mem (List.mem_of_getElem? hp))
      exact ⟨old, by simpa [served, hne] using hget, htag⟩
    · simp only [List.getElem?_concat_length, Option.some.injEq] at hp
      subst hp
      exact ⟨target, by simp [served], (target_eq_ok htarget).1.trans h.next⟩
    · rw [List.getElem?_eq_none (by simpa using hk)] at hp
      cases hp
  others id hid := by
    simp only [List.map_append, List.map_singleton, List.mem_append, List.mem_singleton, not_or] at hid
    simpa [served, hid.2] using h.others id hid.1
  ids := by
    rw [List.map_append, List.map_singleton]
    exact h.ids.append (List.nodup_singleton _) (List.disjoint_singleton.mpr hnew)

/-- The id of a subtable that was served is taken. -/
theorem notMem_ids {id : Nat} (hnone : c.system.targets.get? id = none) : id ∉ done.map (·.reference.id) := by
  intro hmem
  obtain ⟨p, hp, rfl⟩ := List.mem_map.mp hmem
  obtain ⟨k, hk⟩ := List.mem_iff_getElem?.mp hp
  obtain ⟨target, hget, -⟩ := h.target k p hk
  rw [hnone] at hget
  cases hget

/-- The subtables of a table follow in the order of their names. -/
theorem serveAll (hrun : placeReferences columns start c rs = .ok (d, .ok ())) :
    Ledger columns c₀ (done ++ rs.map (Spot.mk t start)) d := by
  induction rs generalizing c done with
  | nil =>
    cases hrun
    simpa using h
  | cons r rest ih =>
    have hlt : c.system.nextSelector < c.table.width .selector := by
      by_contra hlt
      rw [placeReferences, allocate_eq, if_neg hlt] at hrun
      cases hrun
    obtain ⟨a, target, ha, htarget, hnone, hrun⟩ := (placeReferences_cons_iff hlt).mp hrun
    have hrest := ih (h.serve (t := t) hlt ha htarget (h.notMem_ids hnone)) hrun
    rwa [List.append_assoc, List.singleton_append] at hrest

/-- The tables follow one below the other. -/
theorem stack (hrun : stack reserved columns start c ts = .ok (d, .ok n)) :
    Ledger columns c₀ (done ++ spots reserved start ts) d ∧ n = start + heights ts ∧
      ∀ t ∈ ts, t.width ≤ columns.length := by
  induction ts generalizing c done start with
  | nil =>
    cases hrun
    exact ⟨by simpa [spots] using h, rfl, fun _ ht => absurd ht List.not_mem_nil⟩
  | cons t rest ih =>
    obtain ⟨hwidth, g, c₁, c₂, hg, hwrite, hrefs, hrun⟩ := stack_cons_eq_ok hrun
    obtain ⟨hledger, hn, hwidths⟩ := ih ((h.grid hwrite).serveAll (t := t) hrefs) hrun
    rw [eq_of_columns hg] at hledger hn
    refine ⟨by rwa [List.append_assoc] at hledger, ?_, List.forall_mem_cons.mpr ⟨hwidth, hwidths⟩⟩
    rw [hn, heights, heights, List.map_cons, List.sum_cons, Nat.add_assoc]

/-- A run of tables with grids ends well or with a refusal, and well if the tables are not too wide and there is a
    selector for every subtable in use. -/
theorem exists_stack (hvalid : ∀ t ∈ ts, t.Valid) (hgrids : ∀ t ∈ ts, ∃ g, t.columns = .ok g)
    (hexist : ∀ column ∈ columns, column < c₀.table.width .constant)
    (hids : ((done ++ spots reserved start ts).map (·.reference.id)).Nodup)
    (hfree : ∀ p ∈ spots reserved start ts, c₀.system.targets.get? p.reference.id = none) :
    ∃ d o, Lookup.stack reserved columns start c ts = .ok (d, o) ∧ ((∀ t ∈ ts, t.width ≤ columns.length) →
      c₀.system.nextSelector + (done ++ spots reserved start ts).length ≤ c₀.table.width .selector → ∃ n, o = .ok n) := by
  induction ts generalizing c done start with
  | nil => exact ⟨c, .ok start, rfl, fun _ _ => ⟨start, rfl⟩⟩
  | cons t rest ih =>
    by_cases hwidth : t.width ≤ columns.length
    · obtain ⟨ht, hvalid⟩ := List.forall_mem_cons.mp hvalid
      obtain ⟨⟨g, hg⟩, hgrids⟩ := List.forall_mem_cons.mp hgrids
      rw [spots, ← eq_of_columns hg] at hids hfree ⊢
      rw [← List.append_assoc] at hids ⊢
      obtain ⟨c₁, hwrite⟩ : ∃ c₁, writeGrid c start (columns.zip g) = .ok c₁ :=
        exists_writeGrid (fun e he => h.width .constant ▸ hexist _ (List.of_mem_zip he).1) start
      have h₁ := h.grid hwrite
      have hcolumns : ∀ r ∈ t.references reserved, ∀ i ∈ r.subtable.columns, i < columns.length :=
        fun r hr i hi => Nat.lt_of_lt_of_le (ht _ (mem_subtables hr) i hi) hwidth
      -- The ids of this table differ from each other and from those that were served.
      obtain ⟨hthese, -, -⟩ := List.nodup_append.mp (List.map_append ▸ hids)
      obtain ⟨-, hrefs, hapart⟩ := List.nodup_append.mp (List.map_append ▸ hthese)
      rw [List.map_map] at hrefs hapart
      have hfree₁ : ∀ r ∈ t.references reserved, c₁.system.targets.get? r.id = none := by
        intro r hr
        have hnew : r.id ∉ done.map (·.reference.id) := fun hmem => hapart _ hmem _ (List.mem_map_of_mem hr) rfl
        rw [h₁.others r.id hnew]
        exact hfree ⟨t, start, r⟩ (List.mem_append_left _ (List.mem_map_of_mem hr))
      obtain ⟨c₂, o, hrun, ho⟩ := exists_placeReferences hcolumns hrefs hfree₁ start
      cases o with
      | error e =>
        refine ⟨c₂, .error e, ?_, fun _ hle => ?_⟩
        · rw [Lookup.stack, if_neg (Nat.not_lt.mpr hwidth)]
          exact bind_eq_ok.mpr ⟨g, hg, bind_eq_ok.mpr ⟨c₁, hwrite, bind_eq_ok.mpr ⟨_, hrun, rfl⟩⟩⟩
        · -- With a selector for every spot this table is served to its end.
          have hrefused := ho (by
            rw [h₁.next, h₁.width]
            simp only [List.length_append, List.length_map] at hle
            omega)
          cases hrefused
      | ok =>
        obtain ⟨d, o, hrun', ho'⟩ := ih (h₁.serveAll (t := t) hrun) hvalid hgrids hids
          fun p hp => hfree p (List.mem_append_right _ hp)
        refine ⟨d, o, ?_, fun hwidths => ho' fun t ht => hwidths t (List.mem_cons_of_mem _ ht)⟩
        rw [Lookup.stack, if_neg (Nat.not_lt.mpr hwidth)]
        exact bind_eq_ok.mpr ⟨g, hg, bind_eq_ok.mpr ⟨c₁, hwrite, bind_eq_ok.mpr ⟨_, hrun, hrun'⟩⟩⟩
    · -- A table that is too wide is refused, so not all of them are narrow enough.
      have hrefused : Lookup.stack reserved columns start c (t :: rest) =
          .ok (c, .error (.constantColumns t.name t.width columns.length)) := by
        rw [Lookup.stack, if_pos (Nat.lt_of_not_le hwidth)]
      exact ⟨_, _, hrefused, fun hwidths => absurd (hwidths t List.mem_cons_self) hwidth⟩

end Ledger

/-! ### What is served -/

/-- A subtable in use is served as its definition says: the grid of its table can be read from its row on, one
    selector is one in the rows of the subtable and zero elsewhere, and the id has the tuples of these rows. -/
structure Spot.Served (p : Spot) (columns : List Nat) (c : Circuit) (selector : Nat) : Prop where
  cells : ∀ (i r column : Nat) (x : Scalar), columns[i]? = some column → p.table.grid.get[i]?.bind (·[r]?) = some x →
    c.table.cell .constant column (p.row + r) = x
  mark : ∀ row, c.table.cell .selector selector row = if p.first ≤ row ∧ row ≤ p.last then 1 else 0
  rows : ∀ i, p.reference.subtable.first ≤ i → i ≤ p.reference.subtable.last →
    ∃ x, p.reference.subtable.HasTuple p.table.grid.get i x
  entries : ∃ target entries, c.system.targets.get? p.reference.id = some target ∧ target.tag = selector ∧
    c.table.entries target = .ok entries ∧ ∀ x, x ∈ entries ↔ ∃ i, p.reference.subtable.first ≤ i ∧
      i ≤ p.reference.subtable.last ∧ p.reference.subtable.HasTuple p.table.grid.get i x

/-- The grid of a table that lies below others is read from its first row on. -/
theorem cell_of_stacked (h : Written c columns (stacked t g start) g) (hsizes : ∀ values ∈ g, values.size = g.rows)
    {i r column : Nat} {x : Scalar} (hcolumn : columns[i]? = some column) (hx : g[i]?.bind (·[r]?) = some x) :
    c.table.cell .constant column (start + r) = x := by
  obtain ⟨values, hvalues, hr⟩ := Option.bind_eq_some_iff.mp hx
  have hlt : r < g.rows := by
    rw [← hsizes values (List.mem_of_getElem? hvalues)]
    exact (Array.getElem?_eq_some_iff.mp hr).1
  have hcell := h 0 i r column values Nat.zero_lt_one hlt (by simpa [stacked] using hcolumn) hvalues
  have hmin : min r (g.rows - 1) = r := by omega
  simpa [stacked, hmin, hr] using hcell

theorem served_of_stack (hvalid : ∀ t ∈ ts, t.Valid) (hnodup : columns.Nodup)
    (hzero : ∀ selector row, c.system.nextSelector ≤ selector → c.table.cell .selector selector row = 0)
    (hrun : stack reserved columns start c ts = .ok (d, .ok n)) {k : Nat}
    (hp : (spots reserved start ts)[k]? = some p) : p.Served columns d (c.system.nextSelector + k) := by
  have hempty : Ledger columns c [] c := .nil hzero
  obtain ⟨hledger, -, -⟩ := hempty.stack hrun
  rw [List.nil_append] at hledger
  obtain ⟨ranges, hchanges, hall⟩ := laid_stack hvalid hnodup hrun []
  obtain ⟨before, after, he, hrow, hr⟩ := mem_spots.mp (List.mem_of_getElem? hp)
  obtain ⟨g, hlaid, hseated⟩ := hall before p.table after he
  obtain rfl := eq_of_columns hlaid.lays.grid
  rw [← hrow] at hlaid hseated
  obtain ⟨-, hsizes, hlasts⟩ := check_eq_ok hlaid.lays.grid
  have hlast := hlasts _ (mem_subtables hr)
  have hmarked := hchanges.marked (marked_nil hzero)
  obtain ⟨target, hget, -, hstocks, honly⟩ :=
    stocks_of_laid hlaid (hseated (Nat.zero_lt_of_lt hlast)) (hchanges.lit (lit_nil c)) hr hlast
  obtain ⟨entries, hentries, htuples, hmem⟩ := hstocks.exists_entries (honly hmarked)
  -- The ledger tells the selector and the cells tell the tuples; both speak of the target under this id.
  obtain ⟨target', hget', htag⟩ := hledger.target k p hp
  obtain rfl := Option.some.inj (hget.symm.trans hget')
  exact ⟨fun i r column x hcolumn hx => cell_of_stacked hlaid.written hsizes hcolumn hx, hledger.mark k p hp,
    htuples, target, entries, hget, htag, hentries, hmem⟩

/-! ### The packing -/

theorem spots_ne_nil (h : referenced reserved tables ≠ []) : spots reserved start (referenced reserved tables) ≠ [] := by
  obtain ⟨t, ht⟩ := List.exists_mem_of_ne_nil _ h
  obtain ⟨r, hr⟩ := List.exists_mem_of_ne_nil _ (mem_referenced.mp ht).2
  obtain ⟨before, after, he⟩ := List.append_of_mem ht
  have hp : Spot.mk t (start + heights before) r ∈ spots reserved start (referenced reserved tables) :=
    mem_spots.mpr ⟨before, after, he, rfl, hr⟩
  exact List.ne_nil_of_mem hp

/-- Packing one below the other serves every subtable in use and answers the rows that are needed, exactly if there
    are columns for the widest table and a selector for every subtable in use, and these have full names of their
    own. With full names of their own it never faults. -/
theorem packVertical_answers (hvalid : ∀ t ∈ tables, t.Valid) (hgrids : ∀ t ∈ tables, ∃ g, t.columns = .ok g)
    (hids : reserved.values.Nodup) (hfree : ∀ id ∈ reserved.values, c.system.targets.get? id = none)
    (hnodup : columns.Nodup) (hexist : ∀ column ∈ columns, column < c.table.width .constant)
    (hzero : ∀ selector row, c.system.nextSelector ≤ selector → c.table.cell .selector selector row = 0)
    (usable : Nat) :
    let ts := referenced reserved tables
    let ps := spots reserved firstRow ts
    ((ps.map Spot.fullName).Nodup → ∃ d answer, packVertical reserved tables c columns usable = .ok (d, answer)) ∧
    ((∃ d n, packVertical reserved tables c columns usable = .ok (d, .ok n)) ↔
      ts = [] ∨ (∀ t ∈ ts, t.width ≤ columns.length) ∧
        c.system.nextSelector + ps.length ≤ c.table.width .selector ∧ (ps.map Spot.fullName).Nodup) ∧
    ∀ d n, packVertical reserved tables c columns usable = .ok (d, .ok n) →
      (ts = [] → n = usable) ∧ (ts ≠ [] → n = max usable (firstRow + heights ts)) ∧
        d.system.nextSelector = c.system.nextSelector + ps.length ∧
        ∀ (k : Nat) (p : Spot), ps[k]? = some p → p.Served columns d (c.system.nextSelector + k) := by
  intro ts ps
  have hvalid : ∀ t ∈ ts, t.Valid := fun t ht => hvalid t (mem_referenced.mp ht).1
  have hgrids : ∀ t ∈ ts, ∃ g, t.columns = .ok g := fun t ht => hgrids t (mem_referenced.mp ht).1
  have hempty : Ledger columns c [] c := .nil hzero
  -- Full names of their own are ids of their own, so nothing faults, and only room can be missing.
  have hstack : (ps.map Spot.fullName).Nodup → ∃ d o, stack reserved columns firstRow c ts = .ok (d, o) ∧
      ((∀ t ∈ ts, t.width ≤ columns.length) → c.system.nextSelector + ps.length ≤ c.table.width .selector →
        ∃ n, o = .ok n) := by
    intro hnames
    refine hempty.exists_stack hvalid hgrids hexist ((nodup_ids_iff hids).mpr hnames) fun p hp => hfree _ ?_
    exact List.mem_map_of_mem (SortedMap.get?_eq_some_iff.mp (get?_fullName hp))
  by_cases hts : ts = []
  · -- Without a subtable in use nothing is done.
    have hrun : packVertical reserved tables c columns usable = .ok (c, .ok usable) := packVertical_of_nil hts
    have hps : ps = [] := by simp only [ps, hts, spots]
    refine ⟨fun _ => ⟨c, _, hrun⟩, iff_of_true ⟨c, usable, hrun⟩ (Or.inl hts), fun d n h => ?_⟩
    rw [hrun] at h
    cases h
    exact ⟨fun _ => rfl, fun hne => absurd hts hne, by simp [hps], fun k p hp => by simp [hps] at hp⟩
  · -- Otherwise the packing is a run of the stack, and its number of rows is raised to what is usable.
    have hpack {d o} : packVertical reserved tables c columns usable = .ok (d, o) ↔ _ := packVertical_eq_ok_iff hts
    have hrun : ∀ d n, packVertical reserved tables c columns usable = .ok (d, .ok n) →
        ∃ m, stack reserved columns firstRow c ts = .ok (d, .ok m) ∧ max usable m = n := by
      intro d n h
      obtain ⟨o, hrun, ho⟩ := hpack.mp h
      obtain ⟨m, rfl, hm⟩ := map_eq_ok.mp ho
      exact ⟨m, hrun, hm⟩
    have hledger : ∀ {d m}, stack reserved columns firstRow c ts = .ok (d, .ok m) →
        Ledger columns c ps d ∧ m = firstRow + heights ts ∧ ∀ t ∈ ts, t.width ≤ columns.length := hempty.stack
    refine ⟨fun hnames => ?_, ⟨?_, ?_⟩, fun d n h => ?_⟩
    · obtain ⟨d, o, hstack, -⟩ := hstack hnames
      exact ⟨d, _, hpack.mpr ⟨o, hstack, rfl⟩⟩
    · -- What an answer takes is left in the ledger: ids of their own, and a column for each selector.
      rintro ⟨d, n, h⟩
      obtain ⟨m, hrun, -⟩ := hrun d n h
      obtain ⟨hledger, -, hwidths⟩ := hledger hrun
      exact Or.inr ⟨hwidths, hledger.bound.resolve_left (spots_ne_nil hts), (nodup_ids_iff hids).mp hledger.ids⟩
    · -- With all of this there is a run, and it is not refused.
      intro h
      obtain ⟨hwidths, hbound, hnames⟩ := h.resolve_left hts
      obtain ⟨d, o, hstack, ho⟩ := hstack hnames
      obtain ⟨m, rfl⟩ := ho hwidths hbound
      exact ⟨d, _, hpack.mpr ⟨.ok m, hstack, rfl⟩⟩
    · -- Rows and selectors are counted by the ledger, and the subtables are served as they were laid.
      obtain ⟨m, hrun, rfl⟩ := hrun d n h
      obtain ⟨hledger, rfl, -⟩ := hledger hrun
      exact ⟨fun hnil => absurd hnil hts, fun _ => rfl, hledger.next,
        fun k p hp => served_of_stack hvalid hnodup hzero hrun hp⟩

/-- A table of two columns and three rows lies above one of two rows, and its second subtable leaves out the first
    row. One selector was handed out before. -/
theorem packVertical_of_two_tables :
    let wide : Table := ⟨"a", 2, ⟨[("all", ⟨[0, 1], 0, 2, by decide⟩), ("tail", ⟨[1], 1, 2, by decide⟩)], by decide⟩,
      Thunk.mk fun _ => [#[1, 2, 3], #[4, 5, 6]]⟩
    let low : Table := ⟨"b", 1, ⟨[("low", ⟨[0], 0, 0, by decide⟩)], by decide⟩, Thunk.mk fun _ => [#[7, 8]]⟩
    let reserved : Reserved := ⟨[("a/all", 5), ("a/tail", 3), ("b/low", 9)], by decide⟩
    let c : Circuit := ⟨{ System.empty with nextSelector := 1 }, .blank 0 3 0 4⟩
    ∃ d, packVertical reserved [low, wide] c [2, 0] 4 = .ok (d, .ok 6) ∧ d.system.nextSelector = 4 ∧
      ∀ (k : Nat) (p : Spot), (spots reserved firstRow (referenced reserved [low, wide]))[k]? = some p →
        p.Served [2, 0] d (1 + k) := by
  intro wide low reserved c
  have hts : referenced reserved [low, wide] = [wide, low] := by cbv
  have hvalid : ∀ t ∈ [low, wide], t.Valid := by
    simp only [Table.Valid, List.forall_mem_cons]
    decide
  have hgrids : ∀ t ∈ [low, wide], ∃ g, t.columns = .ok g := by
    simp only [List.forall_mem_cons]
    exact ⟨⟨_, rfl⟩, ⟨_, rfl⟩, fun _ ht => absurd ht List.not_mem_nil⟩
  have hzero : ∀ selector row, c.system.nextSelector ≤ selector → c.table.cell .selector selector row = 0 :=
    fun selector row _ => Assignment.cell_blank ..
  have hids : reserved.values.Nodup := by decide
  have hfree : ∀ id ∈ reserved.values, c.system.targets.get? id = none := by decide
  have hexist : ∀ column ∈ [2, 0], column < c.table.width .constant := by decide
  obtain ⟨-, hok, hserved⟩ := packVertical_answers hvalid hgrids hids hfree (by decide) hexist hzero 4
  have hps : (spots reserved firstRow [wide, low]).map Spot.fullName = ["a/all", "a/tail", "b/low"] := by decide
  have hlength : (spots reserved firstRow [wide, low]).length = 3 := by decide
  have hrows : heights [wide, low] = 5 := by decide
  rw [hts] at hok hserved ⊢
  rw [hps, hlength] at hok
  obtain ⟨d, n, hpack⟩ := hok.mpr (Or.inr ⟨by simp [wide, low], by decide, by decide⟩)
  obtain ⟨-, hn, hnext, hserved⟩ := hserved d n hpack
  rw [hn (by simp), hrows] at hpack
  exact ⟨d, hpack, by rw [hnext, hlength], hserved⟩

/-- Two tables whose names and subtables differ may give one full name to two subtables, which then have one id. The
    tables have distinct names and fit, there is a selector for each, and the packing faults. -/
theorem tableIdTaken_of_shared_name :
    let short : Table := ⟨"a", 1, ⟨[("b/c", ⟨[0], 0, 0, by decide⟩)], by decide⟩, Thunk.mk fun _ => [#[1]]⟩
    let long : Table := ⟨"a/b", 1, ⟨[("c", ⟨[0], 0, 0, by decide⟩)], by decide⟩, Thunk.mk fun _ => [#[2]]⟩
    let reserved : Reserved := ⟨[("a/b/c", 1)], by decide⟩
    let c : Circuit := ⟨.empty, .blank 0 1 0 2⟩
    ([short, long].map Table.name).Nodup ∧ (∀ t ∈ [short, long], t.Valid ∧ ∃ g, t.columns = .ok g) ∧
      reserved.values.Nodup ∧ (∀ id ∈ reserved.values, c.system.targets.get? id = none) ∧
      (∀ selector row, 0 ≤ selector → c.table.cell .selector selector row = 0) ∧
      (∀ t ∈ referenced reserved [short, long], t.width ≤ [0].length) ∧
      c.system.nextSelector + (spots reserved firstRow (referenced reserved [short, long])).length ≤
        c.table.width .selector ∧
      packVertical reserved [short, long] c [0] 0 = .error (.tableIdTaken 1) ∧
      ¬ ∃ d n, packVertical reserved [short, long] c [0] 0 = .ok (d, .ok n) := by
  intro short long reserved c
  have hts : referenced reserved [short, long] = [short, long] := by cbv
  have hfault : packVertical reserved [short, long] c [0] 0 = .error (.tableIdTaken 1) := by cbv
  rw [hts]
  refine ⟨by decide, ?_, by decide, by decide, fun selector row _ => Assignment.cell_blank .., by simp [short, long],
    by decide, hfault, ?_⟩
  · simp only [List.forall_mem_cons]
    exact ⟨⟨by simp [Table.Valid, short], _, rfl⟩, ⟨by simp [Table.Valid, long], _, rfl⟩,
      fun _ ht => absurd ht List.not_mem_nil⟩
  · rintro ⟨d, n, h⟩
    rw [hfault] at h
    cases h

end Lookup
end Plonkish
