import Plonkish.Lookup.Catalogue
import Plonkish.Proofs.Lookup.Packed

/-! Packing one below the other. A table that starts at a row is placed as a table in one group at the first
    of the columns (`stacked`), and the tables after it change only the rows below it, so it stays where it
    lies (`laid_stack`). Under either packing, then, the subtables in use are registered (`registered_of_pack`),
    and if no column is given twice, the tables in use lie in columns that exist, and every subtable in use is
    answered with its rows (`stocks_of_pack`). -/

namespace Plonkish
namespace Lookup
variable {reserved : Reserved} {tables ts : List Table} {columns : List Nat} {c c' : Circuit} {ranges : Ranges}
  {t : Table} {g : Grid} {s : Subtable} {start n : Nat}

/-! ### One table -/

/-- The placement of a table that starts at a row, in a single group. -/
def stacked (t : Table) (g : Grid) (start : Nat) : Placement := ⟨⟨t.name, g.length, g.rows, 1⟩, 0, start⟩

theorem lays_stacked (h : t.columns = .ok g) (start : Nat) : Lays reserved t g (stacked t g start) where
  name := rfl
  grid := h
  columns := rfl
  folds := Nat.zero_lt_one
  rows := (ceilDiv_one _).symm
  spans h := absurd h (Nat.lt_irrefl 1)

theorem groups_one (h : ∀ values ∈ g, values.size = g.rows) : groups g 1 = g := by
  rw [groups_eq, List.range_one, List.flatMap_singleton, ceilDiv_one, Nat.zero_mul]
  refine (List.map_congr_left fun values hv => ?_).trans (List.map_id g)
  have hsize := h values hv
  refine Array.ext (by rw [size_foldColumn, id, hsize]) fun r hr hr' => ?_
  change r < values.size at hr'
  have hmin : min (0 + r) (g.rows - 1) = r := by omega
  simp only [foldColumn, Array.getElem_ofFn, hmin, id]
  rw [Array.getElem?_eq_getElem hr', Option.getD_some]

theorem cells_stacked (h : t.columns = .ok g) (hwidth : t.width ≤ columns.length) (start : Nat) :
    (stacked t g start).cells columns g = columns.zip g := by
  obtain ⟨hlength, hsizes, -⟩ := check_eq_ok h
  have hband : ((columns.drop 0).take (g.length * 1)).zip (groups g 1) = (columns.take g.length).zip g := by
    rw [groups_one hsizes, List.drop_zero, Nat.mul_one]
  refine hband.trans ?_
  have hmin := @List.zip_eq_zip_take_min _ _ columns g
  rwa [Nat.min_eq_right (by omega), List.take_length, eq_comm] at hmin

/-- A subtable whose columns are columns of its table reads these only. -/
theorem target_stacked (h : ∀ i ∈ s.columns, i < g.length) (tag start : Nat) :
    s.target tag [columns] = s.target tag ((stacked t g start).places columns) := by
  have hoption : s.option columns = s.option (columns.take g.length) := by
    refine mapM_congr fun i hi => ?_
    rw [List.getElem?_take, if_pos (h i hi)]
  have hplaces : (stacked t g start).places columns = [columns.take g.length] := by
    simp [Placement.places, stacked]
  rw [hplaces]
  simp only [Subtable.target, List.foldlM_cons, List.foldlM_nil, hoption]

/-! ### A run of tables -/

theorem stack_cons_eq_ok (h : stack reserved columns start c (t :: ts) = .ok (c', .ok n)) :
    t.width ≤ columns.length ∧ ∃ g c₁ c₂, t.columns = .ok g ∧ writeGrid c start (columns.zip g) = .ok c₁ ∧
      placeReferences columns start c₁ (t.references reserved) = .ok (c₂, .ok ()) ∧
      stack reserved columns (start + g.rows) c₂ ts = .ok (c', .ok n) := by
  rw [stack] at h
  split at h
  · cases h
  · rename_i hwidth
    obtain ⟨g, hg, h⟩ := bind_eq_ok.mp h
    obtain ⟨c₁, hwrite, h⟩ := bind_eq_ok.mp h
    obtain ⟨⟨c₂, o⟩, hrefs, h⟩ := bind_eq_ok.mp h
    cases o with
    | error e => cases h
    | ok u => exact ⟨Nat.le_of_not_lt hwidth, g, c₁, c₂, hg, hwrite, hrefs, h⟩

/-- The subtables of a table lie within its columns, as they do in every table that is built (`Table.Built.valid`). -/
def Table.Valid (t : Table) : Prop := ∀ e ∈ t.subtables.entries, ∀ i ∈ e.2.columns, i < t.width

theorem mem_subtables {r : Reference} (h : r ∈ t.references reserved) : (r.name, r.subtable) ∈ t.subtables.entries := by
  obtain ⟨e, he, h⟩ := List.mem_filterMap.mp h
  obtain ⟨id, -, rfl⟩ := Option.map_eq_some_iff.mp h
  exact he

/-- Marking the subtables in use of a table that starts at a row registers them for its placement. -/
theorem registered_stacked (hvalid : t.Valid) (hg : t.columns = .ok g)
    (h : placeReferences columns start c (t.references reserved) = .ok (c', .ok ())) (ranges : Ranges) :
    ∃ ranges', Changes (fun _ _ => False) c ranges c' ranges' ∧
      ∀ r ∈ t.references reserved, Registered c' ranges' columns (stacked t g start) r := by
  refine registered_placeReferences rfl rfl (fun r hr tag => target_stacked (fun i hi => ?_) tag start) h ranges
  rw [(check_eq_ok hg).1]
  exact hvalid _ (mem_subtables hr) i hi

/-- After a run the subtables in use of every table are registered, wherever it lies. -/
theorem registered_stack (hvalid : ∀ t ∈ ts, t.Valid) (h : stack reserved columns start c ts = .ok (c', .ok n))
    (ranges : Ranges) :
    ∃ ranges', Changes (fun _ _ => True) c ranges c' ranges' ∧ ∀ t ∈ ts, ∃ g y, t.columns = .ok g ∧
      ∀ r ∈ t.references reserved, Registered c' ranges' columns (stacked t g y) r := by
  induction ts generalizing c ranges start with
  | nil =>
    cases h
    exact ⟨ranges, .refl _ _, fun t ht => absurd ht List.not_mem_nil⟩
  | cons t rest ih =>
    obtain ⟨hwidth, g, c₁, c₂, hg, hwrite, hrefs, h⟩ := stack_cons_eq_ok h
    obtain ⟨ht, hvalid⟩ := List.forall_mem_cons.mp hvalid
    obtain ⟨ranges₁, hmarks, hregistered⟩ := registered_stacked ht hg hrefs ranges
    obtain ⟨ranges', hlater, hrest⟩ := ih hvalid h ranges₁
    have hgrid : Changes (fun _ _ => True) c ranges c₁ ranges :=
      (Change.grid hwrite fun _ _ _ _ _ => trivial).changes
    refine ⟨ranges', (hgrid.trans (hmarks.mono fun _ _ => False.elim)).trans hlater,
      List.forall_mem_cons.mpr ⟨⟨g, start, hg, fun r hr => ?_⟩, hrest⟩⟩
    exact (hregistered r hr).extend hlater.extends

/-- The number of rows of tables that lie one below the other. -/
def heights (ts : List Table) : Nat := (ts.map fun t => t.grid.get.rows).sum

/-- After a run every table lies below those before it, in columns that exist, and the rows above are untouched. -/
theorem laid_stack (hvalid : ∀ t ∈ ts, t.Valid) (hnodup : columns.Nodup)
    (h : stack reserved columns start c ts = .ok (c', .ok n)) (ranges : Ranges) :
    ∃ ranges', Changes (fun _ row => start ≤ row) c ranges c' ranges' ∧ ∀ before t after, ts = before ++ t :: after →
      ∃ g, Laid reserved columns c' ranges' t g (stacked t g (start + heights before)) ∧
        (0 < g.rows → (stacked t g (start + heights before)).Seated columns c') := by
  induction ts generalizing c ranges start with
  | nil =>
    cases h
    exact ⟨ranges, .refl _ _, fun before t after he => by simp at he⟩
  | cons t rest ih =>
    obtain ⟨hwidth, g, c₁, c₂, hg, hwrite, hrefs, h⟩ := stack_cons_eq_ok h
    obtain ⟨ht, hvalid⟩ := List.forall_mem_cons.mp hvalid
    have hl : Lays reserved t g (stacked t g start) := lays_stacked hg start
    rw [← cells_stacked hg hwidth start] at hwrite
    have hgrid : Change ((stacked t g start).Covers columns) c ranges c₁ ranges := change_of_writeGrid hl hwrite
    obtain ⟨ranges₁, hmarks, hregistered⟩ := registered_stacked ht hg hrefs ranges
    obtain ⟨ranges', hlater, hrest⟩ := ih hvalid h ranges₁
    have hwritten : Written c₂ columns (stacked t g start) g := fun f i r column values hf hr hcolumn hvalues =>
      (hmarks.cell_eq (by decide) fun _ => id).trans
        (written_of_writeGrid hl hnodup hwrite f i r column values hf hr hcolumn hvalues)
    refine ⟨ranges', (?_ : Changes _ c ranges c₂ ranges₁).trans (hlater.mono ?_), fun before t' after he => ?_⟩
    · refine (hgrid.changes.mono ?_).trans (hmarks.mono fun _ _ => False.elim)
      rintro column row ⟨j, -, -, hle, -⟩
      exact hle
    · exact fun _ row hle => Nat.le_trans (Nat.le_add_right ..) hle
    · cases before with
      | nil =>
        obtain ⟨rfl, -⟩ := List.cons.inj he
        refine ⟨g, Laid.extend ⟨hl, hwritten, hregistered⟩ hlater ?_, fun hrows => ?_⟩
        · -- The tables after this one lie below it.
          rintro column row ⟨j, -, -, -, hlt⟩ hle
          exact Nat.not_lt.mpr hle hlt
        · exact (seated_of_writeGrid hl hrows hwrite).extend
            ((hgrid.extends.trans hmarks.extends).trans hlater.extends)
      | cons t₀ before =>
        obtain ⟨rfl, hrest'⟩ := List.cons.inj he
        -- A table further down lies below this one by its height.
        obtain ⟨g', hlaid⟩ := hrest before t' after hrest'
        rw [eq_of_columns hg, Nat.add_assoc] at hlaid
        exact ⟨g', hlaid⟩

/-! ### Either packing -/

theorem packVertical_of_nil {usable : Nat} (h : referenced reserved tables = []) :
    packVertical reserved tables c columns usable = .ok (c, .ok usable) := by
  rw [packVertical, h]

theorem packVertical_eq_ok_iff {usable : Nat} {o : Except Refusal Nat} (h : referenced reserved tables ≠ []) :
    packVertical reserved tables c columns usable = .ok (d, o) ↔
      ∃ o', stack reserved columns firstRow c (referenced reserved tables) = .ok (d, o') ∧ o'.map (max usable) = o := by
  unfold packVertical
  split
  · rename_i hnil
    exact absurd hnil h
  · exact map_answer_eq_ok

/-- Packing one below the other is a run over the tables in use, which is empty if there are none. -/
theorem exists_stack_of_packVertical {usable : Nat}
    (h : packVertical reserved tables c columns usable = .ok (c', .ok n)) :
    ∃ m, stack reserved columns firstRow c (referenced reserved tables) = .ok (c', .ok m) := by
  by_cases hnil : referenced reserved tables = []
  · rw [packVertical_of_nil hnil] at h
    cases h
    exact ⟨firstRow, by rw [hnil, stack]⟩
  · obtain ⟨o, hstack, ho⟩ := (packVertical_eq_ok_iff hnil).mp h
    obtain ⟨m, rfl, -⟩ := map_eq_ok.mp ho
    exact ⟨m, hstack⟩

theorem laid_of_pack {packing : Packing} {usable : Nat} (hnames : (tables.map Table.name).Nodup)
    (hvalid : ∀ t ∈ tables, t.Valid) (hnodup : columns.Nodup)
    (h : packing.pack reserved tables c columns usable = .ok (c', .ok n)) :
    ∃ ranges, Changes (fun _ _ => True) c [] c' ranges ∧ ∀ t ∈ referenced reserved tables, ∃ g p,
      Laid reserved columns c' ranges t g p ∧ (0 < g.rows → p.Seated columns c') := by
  cases packing with
  | horizontal budget => exact laid_packHorizontal hnames hnodup h
  | vertical =>
    obtain ⟨m, hstack⟩ := exists_stack_of_packVertical h
    have hvalid' : ∀ t ∈ referenced reserved tables, t.Valid := fun t ht => hvalid t (mem_referenced.mp ht).1
    obtain ⟨ranges, hchanges, hall⟩ := laid_stack hvalid' hnodup hstack []
    refine ⟨ranges, hchanges.mono fun _ _ _ => trivial, fun t ht => ?_⟩
    obtain ⟨before, after, he⟩ := List.append_of_mem ht
    obtain ⟨g, hlaid⟩ := hall before t after he
    exact ⟨g, _, hlaid⟩

/-- Under either packing the subtables in use are registered for a placement of their table, also where a column is
    given twice. -/
theorem registered_of_pack {packing : Packing} {usable : Nat} (hnames : (tables.map Table.name).Nodup)
    (hvalid : ∀ t ∈ tables, t.Valid) (h : packing.pack reserved tables c columns usable = .ok (c', .ok n)) :
    ∃ ranges, Changes (fun _ _ => True) c [] c' ranges ∧ ∀ t ∈ referenced reserved tables, ∃ g p,
      Lays reserved t g p ∧ ∀ r ∈ t.references reserved, Registered c' ranges columns p r := by
  cases packing with
  | horizontal budget =>
    obtain ⟨l, ranges, hlayout, hplace, -⟩ := packHorizontal_eq_ok h
    obtain ⟨hlays, hall⟩ := laysAll_of_layout (nodup_referenced hnames) hlayout
    refine ⟨ranges, (changes_place hlays hplace).mono fun _ _ _ => trivial, fun t ht => ?_⟩
    obtain ⟨p, hp, g, hfind, hl⟩ := hall t ht
    exact ⟨g, p, hl, registered_place hlays hplace hp hfind⟩
  | vertical =>
    obtain ⟨m, hstack⟩ := exists_stack_of_packVertical h
    have hvalid' : ∀ t ∈ referenced reserved tables, t.Valid := fun t ht => hvalid t (mem_referenced.mp ht).1
    obtain ⟨ranges, hchanges, hall⟩ := registered_stack hvalid' hstack []
    refine ⟨ranges, hchanges, fun t ht => ?_⟩
    obtain ⟨g, y, hg, hregistered⟩ := hall t ht
    exact ⟨g, stacked t g y, lays_stacked hg y, hregistered⟩

/-- Under either packing a subtable in use is answered with its rows, and with no others if the selectors not yet
    handed out were off. The selector of its rows is one of those handed out by the packing. -/
theorem stocks_of_pack {packing : Packing} {usable : Nat} (hnames : (tables.map Table.name).Nodup)
    (hvalid : ∀ t ∈ tables, t.Valid) (hnodup : columns.Nodup)
    (h : packing.pack reserved tables c columns usable = .ok (c', .ok n)) (ht : t ∈ tables) {name : String}
    {id : Nat} (hs : t.subtable? name = some s) (hid : reserved.get? (join t.name name) = some id) :
    ∃ target g, c'.system.targets.get? id = some target ∧ t.columns = .ok g ∧
      (c.system.nextSelector ≤ target.tag ∧ target.tag < c'.system.nextSelector) ∧ Stocks c'.table target s g ∧
      ((∀ selector row, c.system.nextSelector ≤ selector → c.table.cell .selector selector row = 0) →
        Only c'.table target s g) := by
  have href := mem_references hs hid
  obtain ⟨ranges, hchanges, hall⟩ := laid_of_pack hnames hvalid hnodup h
  obtain ⟨g, p, hlaid, hseated⟩ := hall t (mem_referenced.mpr ⟨ht, List.ne_nil_of_mem href⟩)
  have hlast := (check_eq_ok hlaid.lays.grid).2.2 _ (SortedMap.get?_eq_some_iff.mp hs)
  obtain ⟨target, hget, htag, hstocks, honly⟩ :=
    stocks_of_laid hlaid (hseated (Nat.zero_lt_of_lt hlast)) (hchanges.lit (lit_nil c)) href hlast
  refine ⟨target, g, hget, hlaid.lays.grid, htag, hstocks, fun hzero => honly (hchanges.marked (marked_nil hzero))⟩

end Lookup
end Plonkish
