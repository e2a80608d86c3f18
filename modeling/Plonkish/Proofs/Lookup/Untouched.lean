import Mathlib
import Plonkish.Proofs.Lookup.Enlisting
import Plonkish.Proofs.Lookup.Geometry

/-! What packing leaves alone, whether it ends well or is refused on the way. Each of its steps changes only the
    constant columns given and the columns of the selectors that it hands out, on certain rows, and only hands out
    selectors and registers tables under new ids (`Confined`). Since steps compose, so does every run: no cell above
    the first row for tables is reached, and if the packing answers a number of rows, none from there on
    (`confined_pack`). A refused run is not known to be as its layout says, so what a placement reaches is said by
    the table that is written (`Placement.Reaches`); only a run that ends well wrote every table where it was laid
    out (`reaches_of_place`). -/

namespace Plonkish
namespace Assignment
variable {t t' t'' : Assignment} {own own' : ColumnKind → Nat → Prop} {rows : Nat → Prop} {kind : ColumnKind}
  {column : Nat}

/-- The number of stored cells of a column. -/
def stored (t : Assignment) (kind : ColumnKind) (column : Nat) : Nat :=
  ((t.columns kind)[column]?.map Array.size).getD 0

/-- Only some columns of a table change, on some rows only, and none of them grows past these rows. -/
structure Confined (own : ColumnKind → Nat → Prop) (rows : Nat → Prop) (t t' : Assignment) : Prop where
  width : ∀ kind, t'.width kind = t.width kind
  column : ∀ kind column, ¬ own kind column → (t'.columns kind)[column]? = (t.columns kind)[column]?
  cell : ∀ kind column row, ¬ rows row → t'.cell kind column row = t.cell kind column row
  stored : ∀ n, (∀ row, rows row → row < n) → ∀ kind column, t'.stored kind column ≤ max n (t.stored kind column)

/-! ### Stored cells -/

theorem size_writeRow (values : Array Scalar) (row : Nat) (x : Scalar) :
    (writeRow values row x).size = max values.size (row + 1) := by
  rw [writeRow, Array.size_setIfInBounds, Array.size_append, Array.size_replicate]
  omega

theorem size_writeRows_le (values : Array Scalar) (row : Nat) (x : Scalar) (count : Nat) :
    (writeRows values row x count).size ≤ max values.size (row + count) := by
  induction count generalizing values row with
  | zero => exact Nat.le_max_left ..
  | succ count ih =>
    have hle := ih (writeRow values row x) (row + 1)
    rw [size_writeRow] at hle
    rw [writeRows]
    omega

theorem getElem?_columns_modify (t : Assignment) (kind : ColumnKind) (column : Nat) (f : Array Scalar → Array Scalar)
    (k : ColumnKind) (c : Nat) : ((t.modify kind fun cs => cs.modify column f).columns k)[c]? =
      if k = kind ∧ c = column then ((t.columns k)[c]?).map f else (t.columns k)[c]? := by
  rw [columns_modify]
  by_cases hk : k = kind
  · simp only [hk, if_true, true_and, Array.getElem?_modify, eq_comm (a := c)]
  · simp only [hk, if_false, false_and]

namespace Confined

theorem refl (t : Assignment) : Confined own rows t t :=
  ⟨fun _ => rfl, fun _ _ _ => rfl, fun _ _ _ _ => rfl, fun _ _ _ _ => Nat.le_max_right ..⟩

theorem trans (h : Confined own rows t t') (h' : Confined own rows t' t'') : Confined own rows t t'' where
  width k := (h'.width k).trans (h.width k)
  column k c hc := (h'.column k c hc).trans (h.column k c hc)
  cell k c r hr := (h'.cell k c r hr).trans (h.cell k c r hr)
  stored n hn k c := (h'.stored n hn k c).trans (max_le (Nat.le_max_left ..) (h.stored n hn k c))

theorem mono (h : Confined own rows t t') (hown : ∀ kind column, own kind column → own' kind column) :
    Confined own' rows t t' where
  width := h.width
  column k c hc := h.column k c (mt (hown k c) hc)
  cell := h.cell
  stored := h.stored

/-! ### One column -/

/-- A column is changed on some rows only, and grows no further than they reach. -/
theorem of_modify {f : Array Scalar → Array Scalar} (hcolumn : column < t.width kind) (hown : own kind column)
    (hcell : ∀ values row, ¬ rows row → (f values)[row]?.getD 0 = values[row]?.getD 0)
    (hsize : ∀ values n, (∀ row, rows row → row < n) → (f values).size ≤ max n values.size) :
    Confined own rows t (t.modify kind fun cs => cs.modify column f) where
  width := width_modify t kind column f
  column k c hc := by
    rw [getElem?_columns_modify, if_neg]
    rintro ⟨rfl, rfl⟩
    exact hc hown
  cell k c r hr := by
    rw [cell_modify hcolumn]
    split
    · rename_i h
      rw [hcell _ r hr, getD_column hcolumn, h.1, h.2]
    · rfl
  stored n hn k c := by
    rw [Assignment.stored, getElem?_columns_modify, Assignment.stored]
    split
    · cases (t.columns k)[c]? with
      | none => exact Nat.zero_le _
      | some values => exact hsize values n hn
    · exact Nat.le_max_right ..

theorem of_set {row : Nat} {x : Scalar} (h : t.set kind column row x = .ok t') (hown : own kind column)
    (hrow : rows row) : Confined own rows t t' := by
  have hcolumn := lt_width_of_set h
  rw [set, if_pos hcolumn] at h
  obtain rfl := Except.ok.inj h
  refine of_modify hcolumn hown (fun values r hr => ?_) fun values n hn => ?_
  · rw [getElem?_writeRow, if_neg]
    rintro rfl
    exact hr hrow
  · rw [size_writeRow]
    exact max_le (Nat.le_max_right ..) (Nat.le_trans (hn row hrow) (Nat.le_max_left ..))

theorem of_writeDown {row : Nat} {xs : List Scalar} (h : t.writeDown kind column row xs = .ok t')
    (hown : own kind column) (hrows : ∀ r, row ≤ r → r < row + xs.length → rows r) : Confined own rows t t' := by
  induction xs generalizing t row with
  | nil =>
    obtain rfl := Except.ok.inj h
    exact refl t
  | cons x xs ih =>
    obtain ⟨t₁, hset, h⟩ := bind_eq_ok.mp h
    rw [List.length_cons] at hrows
    exact (of_set hset hown (hrows row (Nat.le_refl _) (by omega))).trans
      (ih h fun r hle hlt => hrows r (by omega) (by omega))

theorem of_enableRange {selector first stop : Nat} (h : t.enableRange selector first stop = .ok t')
    (hown : own .selector selector) (hrows : ∀ r, first ≤ r → r < stop → rows r) : Confined own rows t t' := by
  unfold enableRange at h
  split at h
  · obtain rfl := Except.ok.inj h
    exact refl t
  · split at h
    · rename_i hlt hselector
      obtain rfl := Except.ok.inj h
      refine of_modify hselector hown (fun values r hr => ?_) fun values n hn => ?_
      · rw [getElem?_writeRows, if_neg]
        exact fun hin => hr (hrows r hin.1 (by omega))
      · have hle := size_writeRows_le values first 1 (stop - first)
        have hlast := hn (stop - 1) (hrows _ (by omega) (by omega))
        omega
    · cases h

end Confined
end Assignment

namespace Lookup

/-- The columns that a packing may change: constant columns from a list, and those of the selectors handed out. -/
def Owned (columns : List Nat) (c c' : Circuit) : ColumnKind → Nat → Prop
  | .constant, column => column ∈ columns
  | .selector, column => c.system.nextSelector ≤ column ∧ column < c'.system.nextSelector
  | .witness, _ | .publicInput, _ => False

/-- Selectors are handed out and tables registered, and only their columns and some constant columns change, on
    some rows. -/
structure Confined (columns : List Nat) (rows : Nat → Prop) (c c' : Circuit) : Prop where
  kept : Kept c c'
  targets : ∀ id target, c.system.targets.get? id = some target → c'.system.targets.get? id = some target
  table : Assignment.Confined (Owned columns c c') rows c.table c'.table

variable {reserved : Reserved} {tables ts : List Table} {columns : List Nat} {c c' c'' c₁ : Circuit}
  {ranges ranges' : Ranges} {references : List Reference} {r : Reference} {p : Placement} {ps : List Placement}
  {places : List (List Nat)} {t : Table} {g : Grid} {rows : Nat → Prop} {start n budget usable : Nat}

namespace Confined

theorem of_eq (h : c'.system = c.system) (htable : Assignment.Confined (Owned columns c c') rows c.table c'.table) :
    Confined columns rows c c' where
  kept := ⟨by rw [h], by rw [h], by rw [h], by rw [h], Nat.le_of_eq (by rw [h])⟩
  targets id target ht := h ▸ ht
  table := htable

theorem refl (c : Circuit) : Confined columns rows c c := of_eq rfl (.refl _)

theorem trans (h : Confined columns rows c c') (h' : Confined columns rows c' c'') : Confined columns rows c c'' where
  kept := h.kept.trans h'.kept
  targets id target ht := h'.targets id target (h.targets id target ht)
  table := by
    refine (h.table.mono fun k column hown => ?_).trans (h'.table.mono fun k column hown => ?_)
    · cases k with
      | selector => exact ⟨hown.1, Nat.lt_of_lt_of_le hown.2 h'.kept.next⟩
      | _ => exact hown
    · cases k with
      | selector => exact ⟨Nat.le_trans h.kept.next hown.1, hown.2⟩
      | _ => exact hown

end Confined

/-! ### Steps -/

theorem confined_writeGrid {row : Nat} {cells : List (Nat × Array Scalar)} (h : writeGrid c row cells = .ok c')
    (hcolumns : ∀ e ∈ cells, e.1 ∈ columns) (hrows : ∀ e ∈ cells, ∀ r, row ≤ r → r < row + e.2.size → rows r) :
    Confined columns rows c c' := by
  refine .of_eq (system_writeGrid h) ?_
  have hown : ∀ e ∈ cells, Owned columns c c' .constant e.1 := hcolumns
  generalize Owned columns c c' = own at hown
  induction cells generalizing c with
  | nil =>
    obtain rfl := Except.ok.inj h
    exact .refl _
  | cons e rest ih =>
    obtain ⟨t, ht, hrest⟩ := writeGrid_cons_eq_ok h
    obtain ⟨he, hown⟩ := List.forall_mem_cons.mp hown
    obtain ⟨hr, hrows⟩ := List.forall_mem_cons.mp hrows
    exact (Assignment.Confined.of_writeDown ht he (by simpa using hr)).trans
      (ih hrest (List.forall_mem_cons.mp hcolumns).2 hrows hown)

/-- A selector is used up, also if it has no column. -/
theorem confined_allocate {o : Except Refusal Nat} (h : allocate c = (c', o)) : Confined columns rows c c' := by
  obtain rfl := (Prod.mk.inj (allocate_eq c ▸ h)).1
  exact ⟨⟨rfl, rfl, rfl, rfl, Nat.le_succ _⟩, fun _ _ ht => ht, .refl _⟩

/-- A selector that was just handed out is turned on. -/
theorem confined_enableRange {tag first stop : Nat} (h : allocate c = (c₁, .ok tag))
    (h' : c₁.enableRange tag first stop = .ok c') (hrows : ∀ row, first ≤ row → row < stop → rows row) :
    Confined columns rows c c' := by
  obtain ⟨rfl, rfl⟩ := allocate_eq_ok h
  obtain ⟨t, ht, h'⟩ := bind_eq_ok.mp h'
  obtain rfl := Except.ok.inj h'
  exact ⟨⟨rfl, rfl, rfl, rfl, Nat.le_succ _⟩, fun _ _ ht => ht,
    .of_enableRange ht ⟨Nat.le_refl _, Nat.lt_succ_self _⟩ hrows⟩

theorem confined_register {tag : Nat} (h : register c r tag places = .ok c') : Confined columns rows c c' := by
  have hkept := (enlists_register h).kept
  obtain ⟨target, -, -, rfl⟩ := register_eq_ok h
  exact ⟨⟨rfl, rfl, rfl, rfl, Nat.le_refl _⟩, hkept, .refl _⟩

/-! ### One below the other -/

theorem confined_placeReferences {o : Except Refusal Unit}
    (h : placeReferences columns start c references = .ok (c', o))
    (hrows : ∀ r ∈ references, ∀ row, start ≤ row → row ≤ start + r.subtable.last → rows row) :
    Confined columns rows c c' := by
  induction references generalizing c with
  | nil =>
    cases h
    exact .refl _
  | cons r rest ih =>
    obtain ⟨hr, hrest⟩ := List.forall_mem_cons.mp hrows
    rw [placeReferences] at h
    split at h
    · rename_i hallocate
      cases h
      exact confined_allocate hallocate
    · rename_i hallocate
      obtain ⟨c₁, henable, h⟩ := bind_eq_ok.mp h
      obtain ⟨c₂, hregister, h⟩ := bind_eq_ok.mp h
      have hmarks : Confined columns rows c c₁ :=
        confined_enableRange hallocate henable fun row hle hlt => hr row (by omega) (by omega)
      exact (hmarks.trans (confined_register hregister)).trans (ih h hrest)

/-- A table reaches its rows and no others. -/
theorem confined_stacked {o : Except Refusal Unit} (hg : t.columns = .ok g)
    (hwrite : writeGrid c start (columns.zip g) = .ok c₁)
    (hrefs : placeReferences columns start c₁ (t.references reserved) = .ok (c', o))
    (hrows : ∀ row, start ≤ row → row < start + g.rows → rows row) : Confined columns rows c c' := by
  obtain ⟨-, hsizes, hlast⟩ := check_eq_ok hg
  have hgrid : Confined columns rows c c₁ := by
    refine confined_writeGrid hwrite (fun e he => (List.of_mem_zip he).1) fun e he row hle hlt => hrows row hle ?_
    rwa [← hsizes e.2 (List.of_mem_zip he).2]
  refine hgrid.trans (confined_placeReferences hrefs fun r hr row hle hlt => hrows row hle ?_)
  have hend : r.subtable.last < g.rows := hlast _ (mem_subtables hr)
  omega

theorem start_le_of_stack (h : stack reserved columns start c ts = .ok (c', .ok n)) : start ≤ n := by
  induction ts generalizing c start with
  | nil =>
    cases h
    exact Nat.le_refl _
  | cons t rest ih =>
    obtain ⟨-, g, c₁, c₂, -, -, -, h⟩ := stack_cons_eq_ok h
    exact Nat.le_trans (Nat.le_add_right ..) (ih h)

/-- A run of tables reaches no row before its first one, and none from its answer on. -/
theorem confined_stack {o : Except Refusal Nat} (h : stack reserved columns start c ts = .ok (c', o))
    (hrows : ∀ row, start ≤ row → (∀ n, o = .ok n → row < n) → rows row) : Confined columns rows c c' := by
  induction ts generalizing c start with
  | nil =>
    cases h
    exact .refl _
  | cons t rest ih =>
    rw [stack] at h
    split at h
    · cases h
      exact .refl _
    · obtain ⟨g, hg, h⟩ := bind_eq_ok.mp h
      obtain ⟨c₁, hwrite, h⟩ := bind_eq_ok.mp h
      obtain ⟨⟨c₂, o₁⟩, hrefs, h⟩ := bind_eq_ok.mp h
      cases o₁ with
      | error e =>
        cases h
        exact confined_stacked hg hwrite hrefs fun row hle _ => hrows row hle fun n hn => by cases hn
      | ok u =>
        have htable : Confined columns rows c c₂ := by
          -- A table ends above the row that the stack answers.
          refine confined_stacked hg hwrite hrefs fun row hle hlt => hrows row hle fun n hn => ?_
          subst hn
          exact Nat.lt_of_lt_of_le hlt (start_le_of_stack h)
        exact htable.trans (ih h fun row hle => hrows row (by omega))

/-! ### Side by side -/

theorem confined_shareSelector {o : Except Refusal (Nat × Ranges)} {marks : Nat × Nat}
    (h : shareSelector ranges marks c = .ok (c', o)) (hrows : ∀ row, marks.1 ≤ row → row < marks.2 → rows row) :
    Confined columns rows c c' := by
  obtain ⟨-, -, rfl, -⟩ | ⟨-, ⟨e, hallocate, -⟩ | ⟨c₁, tag, hallocate, henable, -⟩⟩ := shareSelector_cases h
  · exact .refl _
  · exact confined_allocate hallocate
  · exact confined_enableRange hallocate henable hrows

theorem confined_shareReferences {o : Except Refusal Ranges}
    (h : shareReferences p places ranges c references = .ok (c', o))
    (hrows : ∀ r ∈ references, ∀ row, (p.rowsOf r.subtable).1 ≤ row → row < (p.rowsOf r.subtable).2 → rows row) :
    Confined columns rows c c' := by
  induction references generalizing c ranges with
  | nil =>
    cases h
    exact .refl _
  | cons r rest ih =>
    obtain ⟨hr, hrest⟩ := List.forall_mem_cons.mp hrows
    obtain ⟨⟨c₁, o₁⟩, hshare, h⟩ := bind_eq_ok.mp h
    have hmarks : Confined columns rows c c₁ := confined_shareSelector hshare hr
    cases o₁ with
    | error e =>
      cases h
      exact hmarks
    | ok found =>
      obtain ⟨c₂, hregister, h⟩ := bind_eq_ok.mp h
      exact (hmarks.trans (confined_register hregister)).trans (ih h hrest)

/-- The rows from the first row of a placement to the end of the groups that a table has there, or to the end that the
    placement itself has. -/
def Placement.Reaches (p : Placement) (g : Grid) (row : Nat) : Prop :=
  p.y ≤ row ∧ row < p.y + max p.strip.rows (ceilDiv g.rows p.strip.folds)

theorem confined_placed {o : Except Refusal Ranges} (hg : t.columns = .ok g) (hfolds : 0 < p.strip.folds)
    (hwrite : writeGrid c p.y (p.cells columns g) = .ok c₁)
    (hshare : shareReferences p places ranges c₁ (t.references reserved) = .ok (c', o))
    (hrows : ∀ row, p.Reaches g row → rows row) : Confined columns rows c c' := by
  have hgrid : Confined columns rows c c₁ := by
    refine confined_writeGrid hwrite (fun e he => ?_) fun e he row hle hlt => hrows row ⟨hle, ?_⟩
    · exact List.mem_of_mem_drop (List.mem_of_mem_take (List.of_mem_zip he).1)
    · rw [size_of_mem_groups (List.of_mem_zip he).2] at hlt
      exact Nat.lt_of_lt_of_le hlt (Nat.add_le_add_left (Nat.le_max_right ..) _)
  refine hgrid.trans (confined_shareReferences hshare fun r hr row hle hlt => hrows row ?_)
  have hlast : r.subtable.last < g.rows := (check_eq_ok hg).2.2 _ (mem_subtables hr)
  by_cases hfold : 1 < p.strip.folds
  · simp only [Placement.rowsOf, if_pos hfold, Placement.bottom] at hle hlt
    exact ⟨hle, Nat.lt_of_lt_of_le hlt (Nat.add_le_add_left (Nat.le_max_left ..) _)⟩
  · obtain hone : p.strip.folds = 1 := by omega
    simp only [Placement.rowsOf, if_neg hfold] at hle hlt
    rw [Placement.Reaches, hone, ceilDiv_one]
    omega

theorem confined_place {o : Except Refusal Ranges} (h : place reserved tables columns ranges c ps = .ok (c', o))
    (hrows : ∀ p ∈ ps, ∀ t g, tables.find? (·.name = p.strip.name) = some t → t.columns = .ok g →
      ∀ row, p.Reaches g row → rows row) : Confined columns rows c c' := by
  induction ps generalizing c ranges with
  | nil =>
    cases h
    exact .refl _
  | cons p rest ih =>
    obtain ⟨hp, hrest⟩ := List.forall_mem_cons.mp hrows
    cases hfind : tables.find? (·.name = p.strip.name) with
    | none =>
      rw [place, hfind] at h
      exact ih h hrest
    | some t =>
      obtain ⟨g, c₁, c₂, o₁, hg, hfolds, hwrite, hshare, h⟩ := exists_of_place_cons hfind h
      have hplaced : Confined columns rows c c₂ := confined_placed hg hfolds hwrite hshare (hp t g hfind hg)
      rcases h with ⟨e, -, -, rfl⟩ | ⟨ranges₁, -, h⟩
      · exact hplaced
      · exact hplaced.trans (ih h hrest)

/-! ### Rows of a layout -/

theorem Layout.bottom_le_rows {l : Layout} (hp : p ∈ l.placements) : p.bottom ≤ l.rows :=
  List.le_max?_getD_of_mem (List.mem_map_of_mem hp)

theorem Layout.rows_le {l : Layout} (h : ∀ p ∈ l.placements, p.bottom ≤ budget) : l.rows ≤ budget := by
  unfold Layout.rows
  cases hmax : (l.placements.map Placement.bottom).max? with
  | none => exact Nat.zero_le _
  | some m =>
    obtain ⟨p, hp, rfl⟩ := List.mem_map.mp (List.max?_mem hmax)
    exact h p hp

theorem rows_le_of_layout {l : Layout} (h : layout reserved tables columns.length budget = .ok (.ok l)) :
    l.rows ≤ budget := by
  obtain ⟨_, -, hbudget, hplaced⟩ := placed_of_layout h
  exact Layout.rows_le fun p hp => (hplaced.within p hp).bottom.trans hbudget

/-- Placements of one name write one table, whose ids are not registered twice in a run that ends well. -/
theorem nodup_referenced_of_place {l : Layout} (hlayout : layout reserved tables columns.length budget = .ok (.ok l))
    (h : place reserved (referenced reserved tables) columns ranges c l.placements = .ok (c', .ok ranges')) :
    ((referenced reserved tables).map Table.name).Nodup := by
  have hnames := names_of_layout hlayout
  refine hnames.nodup_iff.mp (nodup_names_of_placedIds (fun t ht => (mem_referenced.mp ht).2) (fun p hp => ?_)
    (free_of_place h).nodup)
  exact List.mem_map.mp (hnames.mem_iff.mp (List.mem_map_of_mem hp))

/-- A run of placements that ends well wrote every table where it was laid out. -/
theorem reaches_of_place {l : Layout} (hlayout : layout reserved tables columns.length budget = .ok (.ok l))
    (h : place reserved (referenced reserved tables) columns ranges c l.placements = .ok (c', .ok ranges'))
    (hp : p ∈ l.placements) (hfind : (referenced reserved tables).find? (·.name = p.strip.name) = some t)
    (hg : t.columns = .ok g) {row : Nat} (hrow : p.Reaches g row) : row < l.rows := by
  obtain ⟨t', g', hfind', hl⟩ := (laysAll_of_layout (nodup_referenced_of_place hlayout h) hlayout).1 p hp
  obtain rfl := Option.some.inj (hfind.symm.trans hfind')
  obtain rfl := Except.ok.inj (hg.symm.trans hl.grid)
  obtain ⟨-, hlt⟩ := hrow
  rw [← hl.rows, max_self] at hlt
  exact Nat.lt_of_lt_of_le hlt (Layout.bottom_le_rows hp)

/-! ### Either packing -/

/-- The rows that a packing may reach: none above the first row for tables, and none from its answer on. -/
def Area (o : Except Refusal Nat) (row : Nat) : Prop := firstRow ≤ row ∧ ∀ n, o = .ok n → row < n

theorem confined_packVertical {o : Except Refusal Nat}
    (h : packVertical reserved tables c columns usable = .ok (c', o)) : Confined columns (Area o) c c' := by
  by_cases hnil : referenced reserved tables = []
  · rw [packVertical_of_nil hnil] at h
    cases h
    exact .refl _
  · obtain ⟨o₁, hstack, rfl⟩ := (packVertical_eq_ok_iff hnil).mp h
    refine confined_stack hstack fun row hle hlt => ⟨hle, fun n hn => ?_⟩
    obtain ⟨m, rfl, rfl⟩ := map_eq_ok.mp hn
    exact Nat.lt_of_lt_of_le (hlt m rfl) (Nat.le_max_right ..)

theorem confined_packHorizontal {o : Except Refusal Nat}
    (h : packHorizontal reserved tables c columns usable budget = .ok (c', o)) : Confined columns (Area o) c c' := by
  obtain ⟨o₁, hlayout, hrun⟩ := bind_eq_ok.mp h
  cases o₁ with
  | error e =>
    cases hrun
    exact .refl _
  | ok l =>
    obtain ⟨o₂, hplace, rfl⟩ := (packHorizontal_eq_ok_iff hlayout).mp h
    obtain ⟨_, -, -, hplaced⟩ := placed_of_layout hlayout
    refine confined_place hplace fun p hp t g hfind hg row hrow =>
      ⟨(hplaced.within p hp).top.trans hrow.1, fun n hn => ?_⟩
    obtain ⟨ranges, rfl, rfl⟩ := map_eq_ok.mp hn
    exact Nat.lt_of_lt_of_le (reaches_of_place hlayout hplace hp hfind hg hrow) (Nat.le_max_right ..)

theorem confined_pack {packing : Packing} {o : Except Refusal Nat}
    (h : packing.pack reserved tables c columns usable = .ok (c', o)) : Confined columns (Area o) c c' := by
  cases packing with
  | vertical => exact confined_packVertical h
  | horizontal budget => exact confined_packHorizontal h

/-- The answer of a packing is at least the number of rows in use, and it grows to no more than the budget. -/
theorem answer_of_pack {packing : Packing} (h : packing.pack reserved tables c columns usable = .ok (c', .ok n)) :
    usable ≤ n ∧ ∀ budget, packing = .horizontal budget → n ≤ max usable budget := by
  cases packing with
  | vertical =>
    refine ⟨?_, nofun⟩
    simp only [Packing.pack, packVertical] at h
    split at h
    · cases h
      exact Nat.le_refl _
    · obtain ⟨⟨c₁, o⟩, -, h⟩ := bind_eq_ok.mp h
      obtain ⟨-, ho⟩ := Prod.mk.inj (Except.ok.inj h)
      obtain ⟨m, -, rfl⟩ := map_eq_ok.mp ho
      exact Nat.le_max_left ..
  | horizontal budget =>
    obtain ⟨l, ranges, hlayout, -, rfl⟩ := packHorizontal_eq_ok h
    refine ⟨Nat.le_max_left .., fun b hb => ?_⟩
    obtain rfl := Packing.horizontal.inj hb
    exact max_le_max_left usable (rows_le_of_layout hlayout)

/-- A packing, refused or not, leaves alone everything but the constant columns given and the columns of the selectors
    that it hands out, and of these the first row. If it answers a number of rows, which is no less than the number
    in use, it writes none from there on. -/
theorem untouched_by_pack {packing : Packing} {o : Except Refusal Nat}
    (h : packing.pack reserved tables c columns usable = .ok (c', o)) :
    (c'.table.witnesses = c.table.witnesses ∧ c'.table.publicInputs = c.table.publicInputs) ∧
    (∀ column ∉ columns, c'.table.constants[column]? = c.table.constants[column]?) ∧
    (∀ selector, c'.table.selectors[selector]? ≠ c.table.selectors[selector]? →
      c.system.nextSelector ≤ selector ∧ selector < c'.system.nextSelector) ∧
    (∀ kind, c'.table.width kind = c.table.width kind) ∧
    (∀ kind column, c'.table.cell kind column 0 = c.table.cell kind column 0) ∧
    Kept c c' ∧
    (∀ id target, c.system.targets.get? id = some target → c'.system.targets.get? id = some target) ∧
    ∀ n, o = .ok n → usable ≤ n ∧ (∀ budget, packing = .horizontal budget → n ≤ max usable budget) ∧
      ∀ kind column, (∀ row, n ≤ row → c'.table.cell kind column row = c.table.cell kind column row) ∧
        c'.table.stored kind column ≤ max n (c.table.stored kind column) := by
  have hconfined := confined_pack h
  have hcolumn := hconfined.table.column
  refine ⟨⟨Array.ext_getElem? fun column => hcolumn .witness column id,
      Array.ext_getElem? fun column => hcolumn .publicInput column id⟩,
    fun column => hcolumn .constant column,
    fun selector hne => not_not.mp (mt (hcolumn .selector selector) hne),
    hconfined.table.width,
    fun kind column => hconfined.table.cell kind column 0 fun hrow => absurd hrow.1 (by decide),
    hconfined.kept, hconfined.targets, ?_⟩
  -- The rows that may change lie between the first one for tables and the answer.
  rintro n rfl
  obtain ⟨husable, hbudget⟩ := answer_of_pack h
  refine ⟨husable, hbudget, fun kind column => ⟨fun row hle => ?_, ?_⟩⟩
  · exact hconfined.table.cell kind column row fun hrow => absurd (hrow.2 n rfl) (Nat.not_lt.mpr hle)
  · exact hconfined.table.stored n (fun row hrow => hrow.2 n rfl) kind column

/-- A table of five rows is folded beside a table of two, next to cells, a selector and a table that were there. -/
theorem untouched_by_two_tables :
    let folded : Table := ⟨"a", 1, ⟨[("all", ⟨[0], 0, 4, by decide⟩)], by decide⟩, Thunk.mk fun _ => [#[1, 2, 3, 4, 5]]⟩
    let flat : Table := ⟨"b", 1, ⟨[("low", ⟨[0], 0, 0, by decide⟩)], by decide⟩, Thunk.mk fun _ => [#[7, 8]]⟩
    let reserved : Reserved := ⟨[("a/all", 1), ("b/low", 2)], by decide⟩
    let c : Circuit := ⟨{ System.empty with targets := ⟨[(6, ⟨0, 1, []⟩)], by decide⟩, nextSelector := 1 },
      ⟨#[#[5, 6]], #[#[9, 9], #[8], #[], #[0, 0, 0, 0, 4]], #[#[3]], #[#[1, 1], #[], #[]]⟩⟩
    ∃ d, Packing.pack (.horizontal 4) reserved [flat, folded] c [1, 2, 3] 3 = .ok (d, .ok 4) ∧
      d.table.constants = #[#[9, 9], #[8, 1, 2, 3], #[0, 4, 5, 5], #[0, 7, 8, 0, 4]] ∧
      d.table.selectors = #[#[1, 1], #[0, 1, 1, 1], #[0, 1]] ∧
      d.table.witnesses = c.table.witnesses ∧
      (∀ column ∉ [1, 2, 3], d.table.constants[column]? = c.table.constants[column]?) ∧
      ∀ kind column row, 4 ≤ row → d.table.cell kind column row = c.table.cell kind column row := by
  intro folded flat reserved c
  let d : Circuit := ⟨{ System.empty with
      targets := ⟨[(1, ⟨1, 1, [[.constant 1 0], [.constant 2 0]]⟩), (2, ⟨2, 1, [[.constant 3 0]]⟩), (6, ⟨0, 1, []⟩)],
        by decide⟩
      nextSelector := 3 },
    ⟨#[#[5, 6]], #[#[9, 9], #[8, 1, 2, 3], #[0, 4, 5, 5], #[0, 7, 8, 0, 4]], #[#[3]],
      #[#[1, 1], #[0, 1, 1, 1], #[0, 1]]⟩⟩
  have hpack : Packing.pack (.horizontal 4) reserved [flat, folded] c [1, 2, 3] 3 = .ok (d, .ok 4) := by cbv
  obtain ⟨⟨hwitnesses, -⟩, hconstants, -, -, -, -, -, hrows⟩ := untouched_by_pack hpack
  obtain ⟨-, -, hrows⟩ := hrows 4 rfl
  exact ⟨d, hpack, rfl, rfl, hwitnesses, hconstants, fun kind column => (hrows kind column).1⟩

end Lookup
end Plonkish
