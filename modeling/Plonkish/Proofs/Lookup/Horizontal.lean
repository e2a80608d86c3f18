import Mathlib
import Plonkish.Proofs.Lookup.Tally
import Plonkish.Proofs.Lookup.Vertical

/-! Packing side by side, exactly. Once there is a layout, the placements can only fail by an id that is taken
    (`spares_place`), and the ids of subtables with full names of their own are free. So with full names of their own
    the packing succeeds exactly if there is a selector for every range of rows that they occupy, and it hands out no
    more than these, each one exactly in its range (`packHorizontal_answers`). The full names matter as they do for
    tables one below the other (`tableIdTaken_of_names_side_by_side`). -/

namespace Plonkish
namespace Lookup

variable {reserved : Reserved} {tables : List Table} {columns : List Nat} {c c' d : Circuit} {t : Table} {g : Grid}
  {r : Reference} {rs : List Reference} {s : Seat} {p : Placement} {ps : List Placement} {places : List (List Nat)}
  {ranges ranges' : Ranges} {rows : Nat × Nat} {tag tag' selector row : Nat} {W : Nat → Nat → Prop}

/-! ### What can fail -/

theorem exists_of_spares {ε α : Type} {bad : ε → Prop} {x : Except ε α} (h : Spares bad x)
    (h' : Spares (fun e => ¬ bad e) x) : ∃ a, x = .ok a := by
  cases x with
  | ok a => exact ⟨a, rfl⟩
  | error e => exact absurd (h e rfl) (h' e rfl)

theorem exists_shareSelector (ranges : Ranges) (rows : Nat × Nat) (c : Circuit) :
    ∃ o, shareSelector ranges rows c = .ok o := by
  unfold shareSelector
  split
  · exact ⟨_, rfl⟩
  · rw [allocate_eq]
    by_cases hlt : c.system.nextSelector < c.table.width .selector
    · rw [if_pos hlt]
      obtain ⟨a, ha⟩ := Assignment.exists_enableRange hlt rows.1 rows.2
      exact ⟨_, bind_eq_ok.mpr ⟨_, bind_eq_ok.mpr ⟨a, ha, rfl⟩, rfl⟩⟩
    · rw [if_neg hlt]
      exact ⟨_, rfl⟩

/-- Each group of a placement has all columns of the table. -/
theorem Placement.lt_of_mem_places (hright : p.right ≤ columns.length) {place : List Nat}
    (hplace : place ∈ p.places columns) {i : Nat} (hi : i < p.strip.columns) : i < place.length := by
  obtain ⟨fold, hfold, rfl⟩ := List.mem_map.mp hplace
  have hlt : fold * p.strip.columns + i < p.strip.width := Strip.group_lt_width (List.mem_range.mp hfold) hi
  unfold Placement.right at hright
  rw [List.length_take, List.length_drop]
  omega

/-- A subtable whose columns exist is registered, unless its id is taken. -/
theorem spares_register (hcolumns : ∀ place ∈ places, ∀ i ∈ r.subtable.columns, i < place.length) :
    Spares (fun e => ¬ e.Taken) (register c r tag places) := by
  obtain ⟨target, htarget⟩ := exists_target hcolumns tag
  have hsystem : Spares (fun e => ¬ e.Taken) (c.system.register r.id target) := by
    unfold System.register
    split
    · exact .error (not_not_intro trivial)
    · exact .ok _
  rw [register, htarget]
  exact hsystem.bind fun _ _ => .ok _

theorem spares_shareReferences (hcolumns : ∀ r ∈ rs, ∀ place ∈ places, ∀ i ∈ r.subtable.columns, i < place.length) :
    Spares (fun e => ¬ e.Taken) (shareReferences p places ranges c rs) := by
  induction rs generalizing c ranges with
  | nil => exact .ok _
  | cons r rest ih =>
    obtain ⟨hr, hrest⟩ := List.forall_mem_cons.mp hcolumns
    obtain ⟨⟨c₁, o⟩, hshare⟩ := exists_shareSelector ranges (p.rowsOf r.subtable) c
    rw [shareReferences, hshare]
    cases o with
    | error e => exact .ok _
    | ok o => exact (spares_register hr).bind fun c₂ _ => ih hrest

/-- Nothing but a taken id stops the placements of tables that have the columns for them. -/
theorem spares_place (hvalid : ∀ t ∈ tables, t.Valid) (hexist : ∀ column ∈ columns, column < c.table.width .constant)
    (hlays : LaysAll reserved tables ps) (hright : ∀ p ∈ ps, p.right ≤ columns.length) :
    Spares (fun e => ¬ e.Taken) (place reserved tables columns ranges c ps) := by
  induction ps generalizing c ranges with
  | nil => exact .ok _
  | cons p rest ih =>
    obtain ⟨⟨t, g, hfind, hl⟩, hlays⟩ := List.forall_mem_cons.mp hlays
    obtain ⟨hp, hright⟩ := List.forall_mem_cons.mp hright
    have ht : t ∈ tables := List.mem_of_find?_eq_some hfind
    have hcolumns : ∀ r ∈ t.references reserved, ∀ place ∈ p.places columns, ∀ i ∈ r.subtable.columns,
        i < place.length := fun r hr place hplace i hi =>
      Placement.lt_of_mem_places hp hplace
        (hl.columns ▸ (check_eq_ok hl.grid).1 ▸ hvalid t ht _ (mem_subtables hr) i hi)
    obtain ⟨c₁, hwrite⟩ : ∃ c₁, writeGrid c p.y (p.cells columns g) = .ok c₁ := exists_writeGrid (fun e he =>
      hexist e.1 (List.mem_of_mem_drop (List.mem_of_mem_take (List.of_mem_zip he).1))) p.y
    have hwidth : c₁.table.width .constant = c.table.width .constant := width_writeGrid hwrite .constant
    have hshare : Spares (fun e => ¬ e.Taken)
        (shareReferences p (p.places columns) ranges c₁ (t.references reserved)) := spares_shareReferences hcolumns
    -- Reading, folding and writing succeed, so only the registering can fault.
    rw [place, hfind]
    dsimp only
    rw [hl.grid]
    refine .bind (.ok g) fun g' hg' => ?_
    obtain rfl := Except.ok.inj hg'
    rw [foldGrid_of_sizes (check_eq_ok hl.grid).2.1 hl.folds]
    refine .bind (.ok _) fun grid hgrid => ?_
    obtain rfl := Except.ok.inj hgrid
    refine .bind (x := writeGrid c p.y (p.cells columns g)) (hwrite ▸ .ok c₁) fun c₁' hc₁' => ?_
    obtain rfl := Except.ok.inj (hwrite.symm.trans hc₁')
    refine hshare.bind ?_
    rintro ⟨c₂, e | ranges₁⟩ hrun
    · exact .ok _
    · have hkept : c₂.table.width .constant = c₁.table.width .constant :=
        (changes_shareReferences (W := fun _ _ => False) hrun).extends.width .constant
      exact ih (fun column hcolumn => (hkept.trans hwidth).symm ▸ hexist column hcolumn) hlays hright

/-! ### Ids -/

theorem get?_of_mem_seats (h : s ∈ seats reserved tables ps) : reserved.get? s.fullName = some s.reference.id :=
  get?_of_mem_references (mem_seats.mp h).2.2

theorem ids_seats : (seats reserved tables ps).map (·.reference.id) = placedIds reserved tables ps :=
  map_seats fun _ r => r.id

theorem nodup_placedIds_iff (hids : reserved.values.Nodup) : (placedIds reserved tables ps).Nodup ↔
    ((seats reserved tables ps).map Seat.fullName).Nodup :=
  ids_seats ▸ nodup_ids_iff_names hids fun _ => get?_of_mem_seats

theorem free_placedIds (hids : reserved.values.Nodup) (hfree : ∀ id ∈ reserved.values, c.system.targets.get? id = none)
    (hnames : ((seats reserved tables ps).map Seat.fullName).Nodup) : Free (placedIds reserved tables ps) c := by
  refine ⟨(nodup_placedIds_iff hids).mpr hnames, fun id hid => hfree id ?_⟩
  rw [← ids_seats] at hid
  obtain ⟨s, hs, rfl⟩ := List.mem_map.mp hid
  exact List.mem_map_of_mem (SortedMap.get?_eq_some_iff.mp (get?_of_mem_seats hs))

/-! ### Selectors -/

theorem Change.zero_or_one (h : Change W c ranges c' ranges')
    (hcell : c.table.cell .selector selector row = 0 ∨ c.table.cell .selector selector row = 1) :
    c'.table.cell .selector selector row = 0 ∨ c'.table.cell .selector selector row = 1 := by
  cases h with
  | grid h => rwa [cell_selector_writeGrid h]
  | mark h =>
    rw [Assignment.cell_enableRange h]
    split
    · exact Or.inr rfl
    · exact hcell
  | table => exact hcell

/-- Selectors that were zero are zero or one from then on. -/
theorem Changes.zero_or_one (h : Changes W c ranges c' ranges')
    (hcell : c.table.cell .selector selector row = 0 ∨ c.table.cell .selector selector row = 1) :
    c'.table.cell .selector selector row = 0 ∨ c'.table.cell .selector selector row = 1 :=
  h.preserves (fun c' _ => c'.table.cell .selector selector row = 0 ∨ c'.table.cell .selector selector row = 1)
    Change.zero_or_one hcell

/-- A subtable is registered with this selector. -/
def Seat.Tagged (s : Seat) (c : Circuit) (tag : Nat) : Prop :=
  ∃ target, c.system.targets.get? s.reference.id = some target ∧ target.tag = tag

/-- Subtables share selectors by the rows that they lie in: what was handed out is one selector for each range of rows,
    and it is one in this range and zero elsewhere. -/
structure Shares (ps : List Seat) (c d : Circuit) : Prop where
  next : d.system.nextSelector = c.system.nextSelector + (ps.map Seat.rows).toFinset.card
  tagged : ∀ p ∈ ps, ∃ tag, p.Tagged d tag
  handed : ∀ tag, (c.system.nextSelector ≤ tag ∧ tag < d.system.nextSelector) ↔ ∃ p ∈ ps, p.Tagged d tag
  same : ∀ p ∈ ps, ∀ q ∈ ps, ∀ tag tag', p.Tagged d tag → q.Tagged d tag' → (tag = tag' ↔ p.rows = q.rows)
  mark : ∀ p ∈ ps, ∀ tag, p.Tagged d tag → ∀ row, d.table.cell .selector tag row =
    if p.rows.1 ≤ row ∧ row < p.rows.2 then 1 else 0

/-- A subtable is registered with the selector of its rows. -/
theorem exists_tagged_of_place (hlays : LaysAll reserved tables ps) (hnodup : columns.Nodup)
    (hclear : ps.Pairwise Placement.Clears) (hrun : place reserved tables columns [] c ps = .ok (d, .ok ranges))
    (hs : s ∈ seats reserved tables ps) : ∃ tag, s.Tagged d tag ∧ (s.rows, tag) ∈ ranges := by
  obtain ⟨hp, hfind, hr⟩ := mem_seats.mp hs
  obtain ⟨g, hl⟩ := exists_lays_of_mem_seats hlays hs
  obtain ⟨hlaid, -⟩ := laid_place hlays hnodup hclear hrun hp hfind hl
  obtain ⟨tag, target, hmem, htarget, hget⟩ := hlaid.registered _ hr
  exact ⟨tag, ⟨target, hget, (target_eq_ok htarget).1⟩, hmem⟩

theorem Seat.Tagged.unique (h : s.Tagged c tag) (h' : s.Tagged c tag') : tag = tag' := by
  obtain ⟨target, hget, rfl⟩ := h
  obtain ⟨target', hget', rfl⟩ := h'
  rw [Option.some.inj (hget.symm.trans hget')]

/-- A selector that was handed out is one in its range and zero elsewhere. -/
theorem cell_of_changes
    (hzero : ∀ selector row, c.system.nextSelector ≤ selector → c.table.cell .selector selector row = 0)
    (h : Changes W c [] d ranges) (he : (rows, tag) ∈ ranges) (hbase : c.system.nextSelector ≤ tag) (row : Nat) :
    d.table.cell .selector tag row = if rows.1 ≤ row ∧ row < rows.2 then 1 else 0 := by
  have hmarked := h.marked (marked_nil hzero)
  have hon := hmarked.on _ he row
  rw [Assignment.isOn, decide_eq_true_eq] at hon
  split
  · rename_i hin
    exact (h.zero_or_one (Or.inl (hzero tag row hbase))).resolve_left (hon.mpr hin)
  · rename_i hout
    exact not_not.mp fun hne => hout (hon.mp hne)

theorem shares_of_place (hlays : LaysAll reserved tables ps) (hnodup : columns.Nodup)
    (hclear : ps.Pairwise Placement.Clears)
    (hzero : ∀ selector row, c.system.nextSelector ≤ selector → c.table.cell .selector selector row = 0)
    (hrun : place reserved tables columns [] c ps = .ok (d, .ok ranges)) : Shares (seats reserved tables ps) c d := by
  have htally : Tally c ((seats reserved tables ps).map Seat.rows) ranges d := (Tally.nil c).place hrun
  have hchanges := changes_place hlays hrun
  have hhanded : ∀ tag, (c.system.nextSelector ≤ tag ∧ tag < d.system.nextSelector) ↔ tag ∈ ranges.map Prod.snd :=
    fun tag => by rw [htally.tags, List.mem_reverse, List.mem_range'_1, htally.next]
  have htagged : ∀ s ∈ seats reserved tables ps, ∃ tag, s.Tagged d tag ∧ (s.rows, tag) ∈ ranges :=
    fun _ => exists_tagged_of_place hlays hnodup hclear hrun
  have hmem : ∀ s ∈ seats reserved tables ps, ∀ tag, s.Tagged d tag → (s.rows, tag) ∈ ranges := by
    intro s hs tag h
    obtain ⟨tag', h', hmem⟩ := htagged s hs
    exact h.unique h' ▸ hmem
  refine ⟨htally.length_eq ▸ htally.next, fun s hs => ?_, fun tag => ?_, fun s hs s' hs' tag tag' h h' => ?_,
    fun s hs tag h row => ?_⟩
  · obtain ⟨tag, h, -⟩ := htagged s hs
    exact ⟨tag, h⟩
  · -- Each selector that was handed out belongs to a range, and each range to a subtable.
    rw [hhanded]
    constructor
    · intro htag
      obtain ⟨⟨rows, tag⟩, he, rfl⟩ := List.mem_map.mp htag
      obtain ⟨s, hs, rfl⟩ := List.mem_map.mp ((htally.mem rows).mp (List.mem_map_of_mem he))
      obtain ⟨tag', h, he'⟩ := htagged s hs
      exact ⟨s, hs, htally.tag_unique he he' ▸ h⟩
    · rintro ⟨s, hs, h⟩
      exact List.mem_map_of_mem (hmem s hs tag h)
  · have he := hmem s hs tag h
    have he' := hmem s' hs' tag' h'
    constructor
    · rintro rfl
      exact htally.rows_unique he he'
    · intro hrows
      exact htally.tag_unique (hrows ▸ he) he'
  · -- Nothing but its own range is marked by a selector that was zero before.
    have he := hmem s hs tag h
    exact cell_of_changes hzero hchanges he ((hhanded tag).mpr (List.mem_map_of_mem he)).1 row

/-! ### The packing -/

/-- With full names of their own the subtables in use of tables that were laid out can only run short of selectors. -/
theorem exists_place_of_layout {budget : Nat} {l : Layout} (hnames : (tables.map Table.name).Nodup)
    (hvalid : ∀ t ∈ tables, t.Valid) (hids : reserved.values.Nodup)
    (hfree : ∀ id ∈ reserved.values, c.system.targets.get? id = none)
    (hexist : ∀ column ∈ columns, column < c.table.width .constant)
    (hlayout : layout reserved tables columns.length budget = .ok (.ok l))
    (hfull : ((seats reserved (referenced reserved tables) l.placements).map Seat.fullName).Nodup) :
    ∃ d o, place reserved (referenced reserved tables) columns [] c l.placements = .ok (d, o) := by
  obtain ⟨hlays, -⟩ := laysAll_of_layout (nodup_referenced hnames) hlayout
  obtain ⟨_, -, -, hplaced⟩ := placed_of_layout hlayout
  have hvalid : ∀ t ∈ referenced reserved tables, t.Valid := fun t ht => hvalid t (mem_referenced.mp ht).1
  have henters : Enters (placedIds reserved (referenced reserved tables) l.placements) c
      (place reserved (referenced reserved tables) columns [] c l.placements) :=
    enters_place (free_placedIds hids hfree hfull)
  obtain ⟨⟨d, o⟩, hrun⟩ := exists_of_spares henters.spares
    (spares_place hvalid hexist hlays fun p hp => (hplaced.within p hp).right)
  exact ⟨d, o, hrun⟩

/-- What is laid out side by side takes one selector for each range of rows that subtables in use occupy. If there are
    as many, and the subtables have full names of their own, packing succeeds, and each of these selectors is one in its
    range and zero elsewhere; if only the selectors are too few, it is refused for want of them. -/
theorem packHorizontal_answers {budget : Nat} {l : Layout} (hnames : (tables.map Table.name).Nodup)
    (hvalid : ∀ t ∈ tables, t.Valid) (hids : reserved.values.Nodup)
    (hfree : ∀ id ∈ reserved.values, c.system.targets.get? id = none) (hnodup : columns.Nodup)
    (hexist : ∀ column ∈ columns, column < c.table.width .constant)
    (hzero : ∀ selector row, c.system.nextSelector ≤ selector → c.table.cell .selector selector row = 0)
    (hlayout : layout reserved tables columns.length budget = .ok (.ok l)) (usable : Nat) :
    let ps := seats reserved (referenced reserved tables) l.placements
    let k := (ps.map Seat.rows).toFinset.card
    (ps.map fun p => (p.table, p.reference)).Perm
      ((referenced reserved tables).flatMap fun t => (t.references reserved).map fun r => (t, r)) ∧
    (∀ p ∈ ps, p.placement ∈ l.placements ∧ p.placement.strip.name = p.table.name ∧ p.rows.1 < p.rows.2 ∧
      ∀ row, p.Occupies row ↔ p.rows.1 ≤ row ∧ row < p.rows.2) ∧
    ((ps.map Seat.fullName).Nodup → ∃ d, packHorizontal reserved tables c columns usable budget = .ok (d,
      if k = 0 ∨ c.system.nextSelector + k ≤ c.table.width .selector then .ok (max usable l.rows)
      else .error (.selectorColumns (max c.system.nextSelector (c.table.width .selector))
        (c.table.width .selector)))) ∧
    ((∃ d n, packHorizontal reserved tables c columns usable budget = .ok (d, .ok n)) ↔
      (k = 0 ∨ c.system.nextSelector + k ≤ c.table.width .selector) ∧ (ps.map Seat.fullName).Nodup) ∧
    ∀ d n, packHorizontal reserved tables c columns usable budget = .ok (d, .ok n) → Shares ps c d := by
  intro ps k
  obtain ⟨hlays, -⟩ := laysAll_of_layout (nodup_referenced hnames) hlayout
  obtain ⟨_, -, -, hplaced⟩ := placed_of_layout hlayout
  have hpack {d o} : packHorizontal reserved tables c columns usable budget = .ok (d, o) ↔ _ :=
    packHorizontal_eq_ok_iff hlayout
  have hstands {d o} (hrun : place reserved (referenced reserved tables) columns [] c l.placements = .ok (d, o)) :
      Stands c (ps.map Seat.rows) (d, o) := (Tally.nil c).place hrun
  have hplace := exists_place_of_layout hnames hvalid hids hfree hexist hlayout
  refine ⟨map_seats Prod.mk ▸ flatMap_of_layout hnames hlayout _, fun p hp => ?_, fun hfull => ?_, ⟨?_, ?_⟩,
    fun d n h => ?_⟩
  · -- A seat lies in the placement that has the name of its table.
    obtain ⟨hplacement, hfind, -⟩ := mem_seats.mp hp
    have hname : p.table.name = p.placement.strip.name := by simpa using List.find?_some hfind
    exact ⟨hplacement, hname.symm, occupies_iff_of_mem_seats hlays hp⟩
  · -- There is a run, and how the selectors stand after it tells which answer it gives.
    obtain ⟨d, o, hrun⟩ := hplace hfull
    exact ⟨d, hpack.mpr ⟨o, hrun, (hstands hrun).map_eq _⟩⟩
  · -- An answer has not run short of selectors, and it registered every id once.
    rintro ⟨d, n, h⟩
    obtain ⟨o, hrun, ho⟩ := hpack.mp h
    obtain ⟨ranges, rfl, -⟩ := map_eq_ok.mp ho
    refine ⟨?_, (nodup_placedIds_iff hids).mp (free_of_place hrun).nodup⟩
    by_contra hselectors
    have hshort := (hstands hrun).map_eq n
    rw [if_neg hselectors] at hshort
    cases hshort
  · -- There is a run that does not run short.
    rintro ⟨hselectors, hfull⟩
    obtain ⟨d, o, hrun⟩ := hplace hfull
    exact ⟨d, _, hpack.mpr ⟨o, hrun, ((hstands hrun).map_eq _).trans (if_pos hselectors)⟩⟩
  · -- The selectors that were handed out are those of the ranges.
    obtain ⟨o, hrun, ho⟩ := hpack.mp h
    obtain ⟨ranges, rfl, -⟩ := map_eq_ok.mp ho
    exact shares_of_place hlays hnodup hplaced.clear hzero hrun

/-- A table in two groups lies beside two tables of two rows, all on the same rows; one more subtable has the first of
    these rows only. One selector was handed out before, and two are left for the four subtables. -/
theorem packHorizontal_of_three_tables :
    let folded : Table := ⟨"c", 1, ⟨[("all", ⟨[0], 0, 2, by decide⟩)], by decide⟩, Thunk.mk fun _ => [#[5, 6, 7]]⟩
    let left : Table := ⟨"a", 1, ⟨[("all", ⟨[0], 0, 1, by decide⟩), ("low", ⟨[0], 0, 0, by decide⟩)], by decide⟩,
      Thunk.mk fun _ => [#[1, 2]]⟩
    let right : Table := ⟨"b", 1, ⟨[("all", ⟨[0], 0, 1, by decide⟩)], by decide⟩, Thunk.mk fun _ => [#[3, 4]]⟩
    let reserved : Reserved := ⟨[("a/all", 5), ("a/low", 3), ("b/all", 9), ("c/all", 4)], by decide⟩
    let c : Circuit := ⟨{ System.empty with nextSelector := 1 }, .blank 0 4 0 3⟩
    let ps := [⟨⟨"c", 1, 2, 2⟩, 0, 1⟩, ⟨⟨"a", 1, 2, 1⟩, 2, 1⟩, ⟨⟨"b", 1, 2, 1⟩, 3, 1⟩]
    let all := seats reserved (referenced reserved [folded, left, right]) ps
    layout reserved [folded, left, right] 4 3 = .ok (.ok ⟨3, ps⟩) ∧
      all.map Seat.rows = [(1, 3), (1, 3), (1, 2), (1, 3)] ∧
      ∃ d, packHorizontal reserved [folded, left, right] c [0, 1, 2, 3] 0 3 = .ok (d, .ok 3) ∧ Shares all c d := by
  intro folded left right reserved c ps all
  have hlayout : layout reserved [folded, left, right] 4 3 = .ok (.ok ⟨3, ps⟩) := by cbv
  have hts : referenced reserved [folded, left, right] = [left, right, folded] := by cbv
  have hvalid : ∀ t ∈ [folded, left, right], t.Valid := by
    simp only [Table.Valid, List.forall_mem_cons]
    decide
  have hzero : ∀ selector row, c.system.nextSelector ≤ selector → c.table.cell .selector selector row = 0 :=
    fun selector row _ => Assignment.cell_blank ..
  have hids : reserved.values.Nodup := by decide
  have hfree : ∀ id ∈ reserved.values, c.system.targets.get? id = none := by decide
  have hexist : ∀ column ∈ [0, 1, 2, 3], column < c.table.width .constant := by decide
  obtain ⟨-, -, hanswer, -, hshares⟩ :=
    packHorizontal_answers (by decide) hvalid hids hfree (by decide) hexist hzero hlayout 0
  have hrows : all.map Seat.rows = [(1, 3), (1, 3), (1, 2), (1, 3)] := by
    simp only [all, hts]
    decide
  have hnames : all.map Seat.fullName = ["c/all", "a/all", "a/low", "b/all"] := by
    simp only [all, hts]
    decide
  obtain ⟨d, hpack⟩ := hanswer (hnames ▸ by decide)
  rw [hrows, if_pos (by decide)] at hpack
  exact ⟨hlayout, hrows, d, hpack, hshares d _ hpack⟩

/-- Tables side by side may give one full name to two subtables as well. The layout succeeds, there is a selector for
    each of the two ranges of rows, and the packing faults. -/
theorem tableIdTaken_of_names_side_by_side :
    let short : Table := ⟨"a", 1, ⟨[("b/c", ⟨[0], 0, 0, by decide⟩)], by decide⟩, Thunk.mk fun _ => [#[1]]⟩
    let long : Table := ⟨"a/b", 1, ⟨[("c", ⟨[0], 0, 0, by decide⟩)], by decide⟩, Thunk.mk fun _ => [#[2]]⟩
    let reserved : Reserved := ⟨[("a/b/c", 1)], by decide⟩
    let c : Circuit := ⟨.empty, .blank 0 1 0 2⟩
    let ps := [⟨⟨"a", 1, 1, 1⟩, 0, 1⟩, ⟨⟨"a/b", 1, 1, 1⟩, 0, 2⟩]
    let k := ((seats reserved (referenced reserved [short, long]) ps).map Seat.rows).toFinset.card
    ([short, long].map Table.name).Nodup ∧ (∀ t ∈ [short, long], t.Valid) ∧ reserved.values.Nodup ∧
      (∀ id ∈ reserved.values, c.system.targets.get? id = none) ∧
      (∀ selector row, c.system.nextSelector ≤ selector → c.table.cell .selector selector row = 0) ∧
      layout reserved [short, long] 1 5 = .ok (.ok ⟨5, ps⟩) ∧ k = 2 ∧
      c.system.nextSelector + k ≤ c.table.width .selector ∧
      packHorizontal reserved [short, long] c [0] 0 5 = .error (.tableIdTaken 1) ∧
      ¬ ∃ d n, packHorizontal reserved [short, long] c [0] 0 5 = .ok (d, .ok n) := by
  intro short long reserved c ps k
  have hts : referenced reserved [short, long] = [short, long] := by cbv
  have hfault : packHorizontal reserved [short, long] c [0] 0 5 = .error (.tableIdTaken 1) := by cbv
  have hrows : (seats reserved [short, long] ps).map Seat.rows = [(1, 2), (2, 3)] := by decide
  have hk : k = 2 := by
    simp only [k, hts, hrows]
    decide
  have hvalid : ∀ t ∈ [short, long], t.Valid := by
    simp only [Table.Valid, List.forall_mem_cons]
    decide
  refine ⟨by decide, hvalid, by decide, by decide, fun selector row _ => Assignment.cell_blank .., by cbv, hk,
    hk ▸ by decide, hfault, ?_⟩
  rintro ⟨d, n, h⟩
  rw [hfault] at h
  cases h

end Lookup
end Plonkish
