import Mathlib
import Plonkish.Proofs.Lookup.Placing
import Plonkish.Proofs.Satisfaction

/-! Packing side by side keeps every subtable in use. The option for group `f` of a placement reads, in row `r`
    of the placement, the row of the table that was laid there (`exists_tuple_of_option`). The rows that the
    selector of a subtable marks lead to all rows of the subtable and to no others, since a table in more
    than one group has subtables on all of its rows (`exists_row_iff`). So the tuples that a lookup may
    find are those of the subtable (`entries_packHorizontal`). -/

namespace Plonkish
namespace Lookup

/-- The values of a subtable in a row of the grid of its table. -/
def Subtable.HasTuple (s : Subtable) (g : Grid) (row : Nat) (x : List Scalar) : Prop :=
  s.columns.map (fun i => g[i]?.bind (·[row]?)) = x.map some

theorem Subtable.HasTuple.unique {s : Subtable} {g : Grid} {row : Nat} {x y : List Scalar}
    (hx : s.HasTuple g row x) (hy : s.HasTuple g row y) : x = y :=
  List.map_injective_iff.mpr (fun _ _ h => Option.some.inj h) (hx.symm.trans hy)

variable {reserved : Reserved} {tables : List Table} {columns : List Nat} {c c' : Circuit}
  {ranges ranges' : Ranges} {p : Placement} {ps : List Placement} {t : Table} {g : Grid} {s : Subtable}

/-! ### Grids -/

theorem check_eq_ok {g' : Grid} (h : t.check g' = .ok g) :
    g.length = t.width ∧ (∀ values ∈ g, values.size = g.rows) ∧ ∀ e ∈ t.subtables.entries, e.2.last < g.rows := by
  unfold Table.check at h
  split at h
  · cases h
  · rename_i hwidth
    split at h
    · cases h
    · rename_i hragged
      split at h
      · cases h
      · rename_i hlong
        obtain rfl := Except.ok.inj h
        refine ⟨by omega, fun values hv => ?_, fun e he => ?_⟩
        · by_contra hne
          exact hragged (List.any_eq_true.mpr ⟨values, hv, by simpa using hne⟩)
        · have := List.find?_eq_none.mp hlong e he
          simpa using this

theorem eq_of_columns (h : t.columns = .ok g) : g = t.grid.get := by
  unfold Table.columns Table.check at h
  split at h
  · cases h
  · split at h
    · cases h
    · split at h
      · cases h
      · exact (Except.ok.inj h).symm

theorem shape_eq_ok {shape : Shape} (h : t.shape reserved = .ok shape) :
    ∃ g, t.columns = .ok g ∧
      shape = ⟨t.name, t.width, g.rows, (t.references reserved).all (·.subtable.spans g.rows)⟩ := by
  obtain ⟨rows, hrows, h⟩ := bind_eq_ok.mp h
  obtain ⟨g, hg, rfl⟩ := map_eq_ok.mp hrows
  exact ⟨g, hg, (Except.ok.inj h).symm⟩

/-- The shapes of tables have their names, in the same order. -/
theorem names_of_shapes {shapes : List Shape} (h : tables.mapM (·.shape reserved) = .ok shapes) :
    shapes.map Shape.name = tables.map Table.name := by
  induction tables generalizing shapes with
  | nil =>
    obtain rfl := Except.ok.inj h
    rfl
  | cons t tables ih =>
    rw [List.mapM_cons] at h
    obtain ⟨shape, hshape, h⟩ := bind_eq_ok.mp h
    obtain ⟨rest, hrest, h⟩ := bind_eq_ok.mp h
    obtain rfl := Except.ok.inj h
    obtain ⟨g, -, rfl⟩ := shape_eq_ok hshape
    rw [List.map_cons, List.map_cons, ih hrest]

/-! ### Tables in use -/

theorem mem_referenced : t ∈ referenced reserved tables ↔ t ∈ tables ∧ t.references reserved ≠ [] := by
  simp [referenced, List.mem_mergeSort]

theorem nodup_referenced (h : (tables.map Table.name).Nodup) :
    ((referenced reserved tables).map Table.name).Nodup := by
  have hperm := List.mergeSort_perm (tables.filter fun t => !(t.references reserved).isEmpty)
    fun s t => s.name ≤ t.name
  exact (hperm.map Table.name).nodup_iff.mpr (h.sublist (List.filter_sublist.map Table.name))

theorem find?_name (h : (tables.map Table.name).Nodup) (ht : t ∈ tables) {name : String} (hname : t.name = name) :
    tables.find? (·.name = name) = some t := by
  cases hfind : tables.find? (·.name = name) with
  | none => exact absurd hname (by simpa using List.find?_eq_none.mp hfind t ht)
  | some t' =>
    have hname' : t'.name = name := by simpa using List.find?_some hfind
    rw [List.inj_on_of_nodup_map h (List.mem_of_find?_eq_some hfind) ht (hname'.trans hname.symm)]

theorem mem_references {name : String} {id : Nat} (hs : t.subtable? name = some s)
    (hid : reserved.get? (join t.name name) = some id) : ⟨name, s, id⟩ ∈ t.references reserved :=
  List.mem_filterMap.mpr ⟨(name, s), SortedMap.get?_eq_some_iff.mp hs, by simp [hid]⟩

/-- The id of a subtable in use is that of its full name. -/
theorem get?_of_mem_references {r : Reference} (hr : r ∈ t.references reserved) :
    reserved.get? (join t.name r.name) = some r.id := by
  obtain ⟨e, -, he⟩ := List.mem_filterMap.mp hr
  obtain ⟨id, hid, rfl⟩ := Option.map_eq_some_iff.mp he
  exact hid

/-- What has its id by a name of its own has an id of its own. -/
theorem nodup_ids_iff_names {α : Type} {l : List α} {id : α → Nat} {name : α → String} (hids : reserved.values.Nodup)
    (hget : ∀ a ∈ l, reserved.get? (name a) = some (id a)) : (l.map id).Nodup ↔ (l.map name).Nodup := by
  unfold List.Nodup
  rw [List.pairwise_map, List.pairwise_map]
  refine List.Pairwise.iff_of_mem fun {a b} ha hb => not_congr ⟨fun hid => ?_, fun hname => ?_⟩
  · have ha' := SortedMap.get?_eq_some_iff.mp (hget a ha)
    have hb' := SortedMap.get?_eq_some_iff.mp (hget b hb)
    exact congrArg Prod.fst (List.inj_on_of_nodup_map hids ha' hb' hid)
  · have ha' := hget a ha
    rw [hname, hget b hb] at ha'
    exact (Option.some.inj ha').symm

theorem lays_of_shape {shape : Shape} {capacity : Nat} (h : t.shape reserved = .ok shape)
    (hp : p.strip = shape.fold capacity) : ∃ g, Lays reserved t g p := by
  obtain ⟨g, hg, rfl⟩ := shape_eq_ok h
  refine ⟨g, ?_⟩
  obtain ⟨hwidth, -, -⟩ := check_eq_ok hg
  unfold Shape.fold at hp
  split at hp
  · rename_i hfoldable
    rw [List.all_eq_true] at hfoldable
    refine ⟨by rw [hp], hg, by rw [hp, hwidth], ?_, by rw [hp], fun _ => hfoldable⟩
    rw [hp]
    exact Nat.lt_of_lt_of_le Nat.zero_lt_one (Nat.le_max_left _ _)
  · refine ⟨by rw [hp], hg, by rw [hp, hwidth], by rw [hp]; exact Nat.zero_lt_one, by rw [hp], fun h => ?_⟩
    rw [hp] at h
    exact absurd h (Nat.lt_irrefl 1)

variable {available budget : Nat} {l : Layout}

/-- The names of the placements are those of the tables in use, in some order. -/
theorem names_of_layout (h : layout reserved tables available budget = .ok (.ok l)) :
    (l.placements.map (·.strip.name)).Perm ((referenced reserved tables).map Table.name) := by
  obtain ⟨shapes, hshapes, -, hplaced⟩ := placed_of_layout h
  have hstrips := hplaced.strips.map Strip.name
  rw [List.map_map, List.map_map] at hstrips
  exact (names_of_shapes hshapes) ▸ hstrips

/-- A layout lays tables in use only, and each of them. -/
theorem laysAll_of_layout (hnames : ((referenced reserved tables).map Table.name).Nodup)
    (h : layout reserved tables available budget = .ok (.ok l)) :
    LaysAll reserved (referenced reserved tables) l.placements ∧
      ∀ t ∈ referenced reserved tables, ∃ p ∈ l.placements, ∃ g,
        (referenced reserved tables).find? (·.name = p.strip.name) = some t ∧ Lays reserved t g p := by
  obtain ⟨shapes, hshapes, -, hplaced⟩ := placed_of_layout h
  constructor
  · intro p hp
    obtain ⟨shape, hshape, hstrip⟩ := List.mem_map.mp (hplaced.strips.subset (List.mem_map_of_mem hp))
    obtain ⟨t, ht, htshape⟩ := (mem_of_mapM_eq_ok hshapes).mp hshape
    obtain ⟨g, hl⟩ := lays_of_shape htshape hstrip.symm
    exact ⟨t, g, find?_name hnames ht hl.name.symm, hl⟩
  · intro t ht
    obtain ⟨shape, htshape⟩ := exists_mapM_eq_ok.mp ⟨shapes, hshapes⟩ t ht
    have hshape := (mem_of_mapM_eq_ok hshapes).mpr ⟨t, ht, htshape⟩
    obtain ⟨p, hp, hstrip⟩ := List.mem_map.mp (hplaced.strips.mem_iff.mpr (List.mem_map_of_mem hshape))
    obtain ⟨g, hl⟩ := lays_of_shape htshape hstrip
    exact ⟨p, hp, g, find?_name hnames ht hl.name.symm, hl⟩

/-! ### Targets -/

theorem exists_map_of_map {ε ι α β : Type} {F : ι → Except ε α} {V : α → Except ε β} {G : ι → Option β}
    {is : List ι} {as : List α} (h : is.map F = as.map .ok)
    (hstep : ∀ i a, F i = .ok a → ∃ b, V a = .ok b ∧ G i = some b) :
    ∃ bs : List β, as.map V = bs.map .ok ∧ is.map G = bs.map some := by
  induction is generalizing as with
  | nil =>
    obtain rfl := List.map_eq_nil_iff.mp h.symm
    exact ⟨[], rfl, rfl⟩
  | cons i is ih =>
    cases as with
    | nil => cases h
    | cons a as =>
      simp only [List.map_cons, List.cons.injEq] at h
      obtain ⟨b, hb, hg⟩ := hstep i a h.1
      obtain ⟨bs, hbs, hgs⟩ := ih h.2
      exact ⟨b :: bs, by rw [List.map_cons, hb, hbs]; rfl, by rw [List.map_cons, hg, hgs]; rfl⟩

def Placement.group (p : Placement) (columns : List Nat) (f : Nat) : List Nat :=
  (columns.drop (p.x + f * p.strip.columns)).take p.strip.columns

/-- A target has one option for each group of the placement. -/
theorem mem_options {options : List (List Variable)} (h : (p.places columns).mapM s.option = .ok options)
    {option : List Variable} :
    option ∈ options ↔ ∃ f < p.strip.folds, s.option (p.group columns f) = .ok option := by
  rw [mem_of_mapM_eq_ok h]
  simp [Placement.places, Placement.group]

theorem exists_option {options : List (List Variable)} (h : (p.places columns).mapM s.option = .ok options)
    {f : Nat} (hf : f < p.strip.folds) : ∃ option, s.option (p.group columns f) = .ok option :=
  exists_mapM_eq_ok.mp ⟨options, h⟩ _ (List.mem_map_of_mem (List.mem_range.mpr hf))

theorem valueAt_constant (a : Assignment) (column row : Nat) :
    a.valueAt (Variable.constant column 0) row = a.get? .constant column row := by
  have hrow : (Variable.constant column 0).row? row = some row := by simp [Variable.constant, Variable.row?]
  simp only [Assignment.valueAt, hrow]
  rfl

/-- A cell of a group holds the cell of the table that was laid there. -/
theorem exists_value_of_group (h : Laid reserved columns c ranges t g p) (hseated : p.Seated columns c)
    (hrows : 0 < g.rows) {f r i column : Nat} (hf : f < p.strip.folds) (hr : r < p.strip.rows) (hi : i < p.strip.columns)
    (hcolumn : columns[p.x + (f * p.strip.columns + i)]? = some column) :
    ∃ y, c.table.valueAt (Variable.constant column 0) (p.y + r) = .ok y ∧
      g[i]?.bind (·[min (f * p.strip.rows + r) (g.rows - 1)]?) = some y := by
  obtain ⟨-, hsizes, -⟩ := check_eq_ok h.lays.grid
  have hexist := hseated _ column (Strip.group_lt_width hf hi) hcolumn
  rw [h.lays.columns] at hi
  have hvalues : g[i]? = some g[i] := List.getElem?_eq_getElem hi
  have hmin : min (f * p.strip.rows + r) (g.rows - 1) < g[i].size := by
    rw [hsizes _ (List.getElem_mem hi)]
    omega
  have hcell := h.written f i r column g[i] hf hr hcolumn hvalues
  rw [Array.getElem?_eq_getElem hmin, Option.getD_some] at hcell
  refine ⟨_, ?_, by rw [hvalues, Option.bind_some, Array.getElem?_eq_getElem hmin]⟩
  rw [valueAt_constant, Assignment.get?, if_pos hexist, hcell]

/-- The option for a group reads the row of the table that lies there. -/
theorem exists_tuple_of_option (h : Laid reserved columns c ranges t g p) (hseated : p.Seated columns c)
    (hrows : 0 < g.rows) {f r : Nat} (hf : f < p.strip.folds) (hr : r < p.strip.rows) {option : List Variable}
    (ho : s.option (p.group columns f) = .ok option) :
    ∃ x, option.mapM (c.table.valueAt · (p.y + r)) = .ok x ∧
      s.HasTuple g (min (f * p.strip.rows + r) (g.rows - 1)) x := by
  obtain ⟨x, hread, htuple⟩ := exists_map_of_map (V := (c.table.valueAt · (p.y + r)))
    (G := fun i => g[i]?.bind (·[min (f * p.strip.rows + r) (g.rows - 1)]?)) (mapM_eq_ok.mp ho) <| by
    intro i v hv
    split at hv
    · rename_i column hcolumn
      obtain rfl := Except.ok.inj hv
      rw [Placement.group, List.getElem?_take] at hcolumn
      split at hcolumn
      · rename_i hi
        rw [List.getElem?_drop, Nat.add_assoc] at hcolumn
        exact exists_value_of_group h hseated hrows hf hr hi hcolumn
      · cases hcolumn
    · cases hv
  exact ⟨x, mapM_eq_ok.mpr hread, htuple⟩

/-! ### Rows -/

theorem Lays.rowsOf (hl : Lays reserved t g p) {r : Reference} (hr : r ∈ t.references reserved) :
    (1 < p.strip.folds ∧ p.rowsOf r.subtable = (p.y, p.y + p.strip.rows) ∧
      r.subtable.first = 0 ∧ r.subtable.last + 1 = g.rows) ∨
    (p.strip.folds = 1 ∧ p.strip.rows = g.rows ∧
      p.rowsOf r.subtable = (p.y + r.subtable.first, p.y + r.subtable.last + 1)) := by
  unfold Placement.rowsOf
  by_cases hf : 1 < p.strip.folds
  · have hspans := hl.spans hf r hr
    simp only [Subtable.spans, decide_eq_true_eq] at hspans
    exact Or.inl ⟨hf, by rw [if_pos hf]; rfl, hspans⟩
  · have hone : p.strip.folds = 1 := by
      have := hl.folds
      omega
    exact Or.inr ⟨hone, by rw [hl.rows, hone, ceilDiv_one], by rw [if_neg hf]⟩

theorem sub_lt_rows (hl : Lays reserved t g p) {r : Reference} (hr : r ∈ t.references reserved)
    (hlast : r.subtable.last < g.rows) {row : Nat} (hfirst : (p.rowsOf r.subtable).1 ≤ row)
    (hstop : row < (p.rowsOf r.subtable).2) : p.y ≤ row ∧ row - p.y < p.strip.rows := by
  rcases hl.rowsOf hr with ⟨-, hrows, -, -⟩ | ⟨-, hheight, hrows⟩
  · rw [hrows] at hfirst hstop
    dsimp only at hfirst hstop
    omega
  · rw [hrows] at hfirst hstop
    dsimp only at hfirst hstop
    omega

/-- The rows that a selector marks lead to the rows of its subtable, and to no others. -/
theorem exists_row_iff (hl : Lays reserved t g p) {r : Reference} (hr : r ∈ t.references reserved)
    (hlast : r.subtable.last < g.rows) (i : Nat) :
    (∃ row, (p.rowsOf r.subtable).1 ≤ row ∧ row < (p.rowsOf r.subtable).2 ∧
      ∃ f < p.strip.folds, min (f * p.strip.rows + (row - p.y)) (g.rows - 1) = i) ↔
      r.subtable.first ≤ i ∧ i ≤ r.subtable.last := by
  rcases hl.rowsOf hr with ⟨hfolds, hrows, hfirst, hspan⟩ | ⟨hone, hheight, hrows⟩
  · -- A folded table: the groups reach every row, and padding repeats the last one.
    simp only [hrows]
    constructor
    · rintro ⟨row, -, -, f, -, rfl⟩
      omega
    · intro hi
      obtain ⟨f, hf, k, hk, hmin⟩ := exists_row_of_group hl.folds (show i < g.rows by omega)
      rw [← hl.rows] at hk hmin
      exact ⟨p.y + k, by omega, by omega, f, hf, by rw [Nat.add_sub_cancel_left]; exact hmin⟩
  · -- A table in one piece: row for row.
    simp only [hrows]
    constructor
    · rintro ⟨row, hlo, hhi, f, hf, rfl⟩
      obtain rfl : f = 0 := by omega
      rw [Nat.zero_mul, Nat.zero_add]
      omega
    · intro hi
      refine ⟨p.y + i, by omega, by omega, 0, hl.folds, ?_⟩
      rw [Nat.zero_mul, Nat.zero_add]
      omega

/-! ### Tuples -/

theorem exists_tuple_of_marked (h : Laid reserved columns c ranges t g p) (hseated : p.Seated columns c)
    {r : Reference} (hr : r ∈ t.references reserved) (hlast : r.subtable.last < g.rows) {row f : Nat}
    (hlo : (p.rowsOf r.subtable).1 ≤ row) (hhi : row < (p.rowsOf r.subtable).2) (hf : f < p.strip.folds)
    {option : List Variable} (ho : r.subtable.option (p.group columns f) = .ok option) :
    ∃ x, option.mapM (c.table.valueAt · row) = .ok x ∧
      r.subtable.HasTuple g (min (f * p.strip.rows + (row - p.y)) (g.rows - 1)) x := by
  obtain ⟨hle, hlt⟩ := sub_lt_rows h.lays hr hlast hlo hhi
  have hx := exists_tuple_of_option h hseated (Nat.zero_lt_of_lt hlast) hf hlt ho
  rwa [Nat.add_sub_cancel' hle] at hx

/-- The options of a target are constants in columns that exist, and every row of a subtable is one of its
    tuples. -/
structure Stocks (t : Assignment) (target : Target) (s : Subtable) (g : Grid) : Prop where
  options : ∀ option ∈ target.options, ∀ v ∈ option, v.kind = .constant ∧ t.Has v
  tuples : ∀ i, s.first ≤ i → i ≤ s.last → ∃ x, s.HasTuple g i x ∧ t.Lists target x

/-- Every tuple of a target is a row of a subtable. -/
def Only (t : Assignment) (target : Target) (s : Subtable) (g : Grid) : Prop :=
  ∀ x, t.Lists target x → ∃ i, s.first ≤ i ∧ i ≤ s.last ∧ s.HasTuple g i x

theorem has_of_option (hseated : p.Seated columns c) {f : Nat} (hf : f < p.strip.folds) {option : List Variable}
    (ho : s.option (p.group columns f) = .ok option)
    {v : Variable} (hv : v ∈ option) : v.kind = .constant ∧ c.table.Has v := by
  obtain ⟨i, -, hi⟩ := (mem_of_mapM_eq_ok ho).mp hv
  split at hi
  · rename_i column hcolumn
    obtain rfl := Except.ok.inj hi
    rw [Placement.group, List.getElem?_take] at hcolumn
    split at hcolumn
    · rename_i hlt
      rw [List.getElem?_drop, Nat.add_assoc] at hcolumn
      exact ⟨rfl, hseated _ column (Strip.group_lt_width hf hlt) hcolumn⟩
    · cases hcolumn
  · cases hi

/-- The table of a registered subtable answers with the rows of the subtable, and with no others if only the rows
    of the subtable are marked. -/
theorem stocks_of_laid {base : Nat} (h : Laid reserved columns c ranges t g p) (hseated : p.Seated columns c)
    (hlit : Lit base c ranges) {r : Reference} (hr : r ∈ t.references reserved) (hlast : r.subtable.last < g.rows) :
    ∃ target, c.system.targets.get? r.id = some target ∧
      (base ≤ target.tag ∧ target.tag < c.system.nextSelector) ∧ Stocks c.table target r.subtable g ∧
      (Marked c ranges → Only c.table target r.subtable g) := by
  obtain ⟨tag, target, hrange, htarget, hget⟩ := h.registered r hr
  obtain ⟨rfl, hoptions⟩ := target_eq_ok htarget
  have hhas : ∀ option ∈ target.options, ∀ v ∈ option, v.kind = .constant ∧ c.table.Has v := by
    intro option ho v hv
    obtain ⟨f, hf, ho⟩ := (mem_options hoptions).mp ho
    exact has_of_option hseated hf ho hv
  -- A marked row shows, through the option of each group, a tuple of the subtable.
  have hread : ∀ {row f option}, (p.rowsOf r.subtable).1 ≤ row → row < (p.rowsOf r.subtable).2 →
      f < p.strip.folds → option ∈ target.options → r.subtable.option (p.group columns f) = .ok option →
      r.subtable.HasTuple g (min (f * p.strip.rows + (row - p.y)) (g.rows - 1)) (option.map (c.table.seen row)) := by
    intro row f option hlo hhi hf hmem ho
    obtain ⟨x, hx, htuple⟩ := exists_tuple_of_marked h hseated hr hlast hlo hhi hf ho
    rw [Assignment.mapM_valueAt fun v hv => (hhas option hmem v hv).2] at hx
    rwa [Except.ok.inj hx]
  refine ⟨target, hget, hlit.handed _ hrange, ⟨hhas, fun i hfirst hi => ?_⟩, fun hm x hx => ?_⟩
  · -- Every tuple lies in a marked row of some group.
    obtain ⟨row, hlo, hhi, f, hf, rfl⟩ := (exists_row_iff h.lays hr hlast i).mpr ⟨hfirst, hi⟩
    obtain ⟨option, ho⟩ := exists_option hoptions hf
    have hmem := (mem_options hoptions).mpr ⟨f, hf, ho⟩
    exact ⟨_, hread hlo hhi hf hmem ho, row, hlit.on _ hrange row hlo hhi, option, hmem, rfl⟩
  · -- No other row is marked, so what is listed is a tuple.
    obtain ⟨row, hrow, option, hmem, rfl⟩ := hx
    obtain ⟨hlo, hhi⟩ := (hm.on _ hrange row).mp hrow
    obtain ⟨f, hf, ho⟩ := (mem_options hoptions).mp hmem
    obtain ⟨hfirst, hi⟩ := (exists_row_iff h.lays hr hlast _).mp ⟨row, hlo, hhi, f, hf, rfl⟩
    exact ⟨_, hfirst, hi, hread hlo hhi hf hmem ho⟩

theorem Stocks.lists {a : Assignment} {target : Target} (h : Stocks a target s g) {i : Nat} {x : List Scalar}
    (hfirst : s.first ≤ i) (hlast : i ≤ s.last) (hx : s.HasTuple g i x) : a.Lists target x := by
  obtain ⟨y, hy, hlists⟩ := h.tuples i hfirst hlast
  exact hx.unique hy ▸ hlists

/-- The entries of a target that is stocked with a subtable only are the rows of the subtable. -/
theorem Stocks.exists_entries {a : Assignment} {target : Target} (h : Stocks a target s g) (honly : Only a target s g) :
    ∃ entries, a.entries target = .ok entries ∧ (∀ i, s.first ≤ i → i ≤ s.last → ∃ x, s.HasTuple g i x) ∧
      ∀ x, x ∈ entries ↔ ∃ i, s.first ≤ i ∧ i ≤ s.last ∧ s.HasTuple g i x := by
  obtain ⟨entries, hentries, hmem⟩ := Assignment.entries_eq_ok fun option ho v hv => (h.options option ho v hv).2
  refine ⟨entries, hentries, fun i hfirst hi => ?_, fun x => ?_⟩
  · obtain ⟨x, hx, -⟩ := h.tuples i hfirst hi
    exact ⟨x, hx⟩
  · rw [hmem]
    exact ⟨honly x, fun ⟨i, hfirst, hi, hx⟩ => h.lists hfirst hi hx⟩

theorem map_answer_eq_ok {α β : Type} {x : Except Fault (Outcome α)} {f : α → β} {o : Except Refusal β} :
    (x >>= fun o => .ok (o.1, o.2.map f)) = .ok (d, o) ↔ ∃ o', x = .ok (d, o') ∧ o'.map f = o := by
  rw [bind_eq_ok]
  constructor
  · rintro ⟨⟨d', o'⟩, hrun, he⟩
    obtain ⟨rfl, rfl⟩ := Prod.mk.inj (Except.ok.inj he)
    exact ⟨o', hrun, rfl⟩
  · rintro ⟨o', hrun, rfl⟩
    exact ⟨_, hrun, rfl⟩

theorem packHorizontal_eq_ok_iff {usable : Nat} {o : Except Refusal Nat}
    (hlayout : layout reserved tables columns.length budget = .ok (.ok l)) :
    packHorizontal reserved tables c columns usable budget = .ok (c', o) ↔
      ∃ o', place reserved (referenced reserved tables) columns [] c l.placements = .ok (c', o') ∧
        o'.map (fun _ => max usable l.rows) = o := by
  rw [packHorizontal, hlayout]
  exact map_answer_eq_ok

theorem packHorizontal_eq_ok {usable n : Nat} (h : packHorizontal reserved tables c columns usable budget = .ok (c', .ok n)) :
    ∃ l ranges, layout reserved tables columns.length budget = .ok (.ok l) ∧
      place reserved (referenced reserved tables) columns [] c l.placements = .ok (c', .ok ranges) ∧
      n = max usable l.rows := by
  obtain ⟨o, hlayout, hrun⟩ := bind_eq_ok.mp h
  cases o with
  | error e => cases hrun
  | ok l =>
    obtain ⟨o, hplace, ho⟩ := (packHorizontal_eq_ok_iff hlayout).mp h
    obtain ⟨ranges, rfl, rfl⟩ := map_eq_ok.mp ho
    exact ⟨l, ranges, hlayout, hplace, rfl⟩

/-- Packing side by side lays every table in use in columns that exist. -/
theorem laid_packHorizontal {usable n : Nat} (hnames : (tables.map Table.name).Nodup) (hnodup : columns.Nodup)
    (h : packHorizontal reserved tables c columns usable budget = .ok (c', .ok n)) :
    ∃ ranges, Changes (fun _ _ => True) c [] c' ranges ∧ ∀ t ∈ referenced reserved tables, ∃ g p,
      Laid reserved columns c' ranges t g p ∧ (0 < g.rows → p.Seated columns c') := by
  obtain ⟨l, ranges, hlayout, hplace, -⟩ := packHorizontal_eq_ok h
  obtain ⟨hlays, hall⟩ := laysAll_of_layout (nodup_referenced hnames) hlayout
  obtain ⟨shapes, -, -, hplaced⟩ := placed_of_layout hlayout
  refine ⟨ranges, (changes_place hlays hplace).mono fun _ _ _ => trivial, fun t ht => ?_⟩
  obtain ⟨p, hp, g, hfind, hl⟩ := hall t ht
  exact ⟨g, p, laid_place hlays hnodup hplaced.clear hplace hp hfind hl⟩

/-- Packing side by side makes a lookup into a subtable find the rows of the subtable, and no others. -/
theorem entries_packHorizontal {usable n : Nat} (hnames : (tables.map Table.name).Nodup)
    (hzero : ∀ selector row, c.system.nextSelector ≤ selector → c.table.cell .selector selector row = 0)
    (hnodup : columns.Nodup) (hexist : ∀ column ∈ columns, column < c.table.width .constant)
    (h : packHorizontal reserved tables c columns usable budget = .ok (c', .ok n))
    (ht : t ∈ tables) {name : String} {id : Nat} (hs : t.subtable? name = some s)
    (hid : reserved.get? (join t.name name) = some id) :
    ∃ target g entries, c'.system.targets.get? id = some target ∧ t.columns = .ok g ∧
      c'.table.entries target = .ok entries ∧ (∀ i, s.first ≤ i → i ≤ s.last → ∃ x, s.HasTuple g i x) ∧
        ∀ x, x ∈ entries ↔ ∃ i, s.first ≤ i ∧ i ≤ s.last ∧ s.HasTuple g i x := by
  have href := mem_references hs hid
  have hused : t ∈ referenced reserved tables := mem_referenced.mpr ⟨ht, List.ne_nil_of_mem href⟩
  obtain ⟨ranges, hchanges, hall⟩ := laid_packHorizontal hnames hnodup h
  obtain ⟨g, p, hlaid, -⟩ := hall t hused
  have hmarked := hchanges.marked (marked_nil hzero)
  -- The columns exist before the packing, and it takes none away.
  have hseated : p.Seated columns c' := fun j column _ hcolumn =>
    hchanges.extends.width .constant ▸ hexist column (List.mem_of_getElem? hcolumn)
  have hlast := (check_eq_ok hlaid.lays.grid).2.2 _ (SortedMap.get?_eq_some_iff.mp hs)
  obtain ⟨target, hget, -, hstocks, honly⟩ := stocks_of_laid hlaid hseated (hchanges.lit (lit_nil c)) href hlast
  obtain ⟨entries, hentries, htuples, hmem⟩ := hstocks.exists_entries (honly hmarked)
  exact ⟨target, g, entries, hget, hlaid.lays.grid, hentries, htuples, hmem⟩

/-- A table of five rows is folded into two groups, beside a table with a subtable on its first row only. -/
theorem entries_of_two_groups :
    let s : Subtable := ⟨[0], 0, 4, by decide⟩
    let folded : Table := ⟨"a", 1, ⟨[("all", s)], by decide⟩, Thunk.mk fun _ => [#[1, 2, 3, 4, 5]]⟩
    let flat : Table := ⟨"b", 1, ⟨[("low", ⟨[0], 0, 0, by decide⟩)], by decide⟩, Thunk.mk fun _ => [#[7, 8]]⟩
    let reserved : Reserved := ⟨[("a/all", 1), ("b/low", 2)], by decide⟩
    let packed : Circuit := ⟨{ System.empty with
        targets := ⟨[(1, ⟨0, 1, [[.constant 0 0], [.constant 1 0]]⟩), (2, ⟨1, 1, [[.constant 2 0]]⟩)], by decide⟩
        nextSelector := 2 },
      ⟨#[], #[#[0, 1, 2, 3], #[0, 4, 5, 5], #[0, 7, 8]], #[], #[#[0, 1, 1, 1], #[0, 1]]⟩⟩
    packHorizontal reserved [flat, folded] ⟨.empty, .blank 0 3 0 2⟩ [0, 1, 2] 0 4 = .ok (packed, .ok 4) ∧
      ∃ target entries, packed.system.targets.get? 1 = some target ∧ packed.table.entries target = .ok entries ∧
        ∀ x, x ∈ entries ↔ ∃ i, 0 ≤ i ∧ i ≤ 4 ∧ s.HasTuple [#[1, 2, 3, 4, 5]] i x := by
  intro s folded flat reserved packed
  have hpack : packHorizontal reserved [flat, folded] ⟨.empty, .blank 0 3 0 2⟩ [0, 1, 2] 0 4 =
      .ok (packed, .ok 4) := by cbv
  have hzero : ∀ selector row, 0 ≤ selector → (Assignment.blank 0 3 0 2).cell .selector selector row = 0 :=
    fun selector row _ => Assignment.cell_blank ..
  have hs : folded.subtable? "all" = some s := by decide
  have hid : reserved.get? (join folded.name "all") = some 1 := by decide
  have hgrid : folded.columns = .ok [#[1, 2, 3, 4, 5]] := by rfl
  obtain ⟨target, g, entries, hget, hg, hentries, -, hmem⟩ := entries_packHorizontal
    (by decide) hzero (by decide) (by decide) hpack (List.mem_cons_of_mem _ List.mem_cons_self) hs hid
  obtain rfl := Except.ok.inj (hgrid.symm.trans hg)
  exact ⟨hpack, target, entries, hget, hentries, hmem⟩

end Lookup
end Plonkish
