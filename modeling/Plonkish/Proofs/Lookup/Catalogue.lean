import Mathlib.Data.List.TakeDrop
import Plonkish.Lookup.Catalogue
import Plonkish.Proofs.Lookup.Stacking

/-! Packing the tables of a catalogue. In a catalogue made by its operations every table stands under its own
    name and its subtables lie within its columns (`Catalogue.Built.sound`). A reserved name has an id, and
    its table is among those that are packed, so the packing answers it (`Catalogue.stocks_of_pack`). The
    tables of the library hold the exclusive ors and the numbers that their names say (`hasTuple_xorGrid_iff`,
    `hasTuple_rangeGrid_iff`). -/

namespace Plonkish

namespace Lookup

/-! ### Names -/

/-- Splitting a full name undoes joining, if the name of the table has no separator. -/
theorem split?_join {table : String} (h : separator ∉ table.toList) (subtable : String) :
    split? (join table subtable) = some (table, subtable) := by
  have htoList : (join table subtable).toList = table.toList ++ separator :: subtable.toList := by
    simp [join]
  have hspan : (join table subtable).toList.span (· != separator) =
      (table.toList, separator :: subtable.toList) := by
    have hne : ∀ x ∈ table.toList, (x != separator) = true := fun x hx => bne_iff_ne.mpr fun he => h (he ▸ hx)
    rw [htoList, List.span_eq_takeWhile_dropWhile, List.takeWhile_append_of_pos hne, List.dropWhile_append_of_pos hne]
    simp
  unfold split?
  rw [hspan]
  simp

theorem separator_notMem_rangeName : ∀ bits ≤ 20, separator ∉ (rangeName bits).toList := by decide +kernel

theorem halfName_ne_fullName : ∀ bits ≤ 20, halfName bits ≠ fullName := by decide +kernel

/-! ### Tables made by their operations -/

namespace Table

/-- The tables that can be defined. -/
inductive Built : Table → Prop where
  | make (name : String) (width : Nat) (grid : Thunk Grid) : Built (.make name width grid)
  | subtable {t t' : Table} {name : String} {columns : List Nat} {first last : Nat} (h : Built t)
    (ht : t.addSubtable name columns first last = .ok t') : Built t'

theorem addSubtable_eq_ok {t t' : Table} {name : String} {columns : List Nat} {first last : Nat}
    (h : t.addSubtable name columns first last = .ok t') :
    (∀ i ∈ columns, i < t.width) ∧ t'.width = t.width ∧
      ∃ s : Subtable, s.columns = columns ∧ t'.subtables = t.subtables.insert name s := by
  unfold addSubtable at h
  split at h
  · cases h
  · rename_i hwidth
    obtain ⟨s, hs, h⟩ := bind_eq_ok.mp h
    unfold Subtable.make? at hs
    split at hs
    · obtain rfl := Except.ok.inj hs
      split at h
      · cases h
      · obtain rfl := Except.ok.inj h
        exact ⟨by simpa using hwidth, rfl, _, rfl, rfl⟩
    · cases hs

theorem Built.valid {t : Table} (h : t.Built) : t.Valid := by
  induction h with
  | make => exact fun e he => absurd he List.not_mem_nil
  | subtable _ ht ih =>
    obtain ⟨hcolumns, hwidth, s, rfl, hsubtables⟩ := addSubtable_eq_ok ht
    intro e he i hi
    rw [hsubtables] at he
    rw [hwidth]
    rcases SortedMap.mem_of_mem_insertEntry he with rfl | he
    · exact hcolumns i hi
    · exact ih e he i hi

end Table

theorem built_xorTable : xorTable.Built := by
  have ht : (Table.make xorName 3 (Thunk.mk fun _ => xorGrid)).addSubtable fullName [0, 1, 2] 0 255 = .ok xorTable := by
    rfl
  exact .subtable (.make ..) ht

theorem built_rangeOf {bits : Nat} (h : bits ≤ 20) : (rangeOf bits).Built := by
  let full : Subtable := ⟨[0], 0, (1 <<< bits) - 1, Nat.zero_le _⟩
  let whole : Table := { Table.make (rangeName bits) 1 (Thunk.mk fun _ => rangeGrid bits) with
    subtables := SortedMap.empty.insert fullName full }
  have hfull : (Table.make (rangeName bits) 1 (Thunk.mk fun _ => rangeGrid bits)).addSubtable fullName [0] 0
      ((1 <<< bits) - 1) = .ok whole := by
    rfl
  have hnew : whole.subtables.contains (halfName bits) = false := by
    simp [SortedMap.contains, whole, halfName_ne_fullName bits h]
  have hhalf : whole.addSubtable (halfName bits) [0] 0 ((1 <<< (bits / 2)) - 1) = .ok (rangeOf bits) := by
    simp only [Table.addSubtable, Subtable.make?, bind, Except.bind, hnew]
    rfl
  exact .subtable (.subtable (.make ..) hfull) hhalf

/-! ### Catalogues made by their operations -/

namespace Catalogue

/-- The catalogues that can be made. -/
inductive Built : Catalogue → Prop where
  | empty : Built .empty
  | builtin : Built .builtin
  | register {l l' : Catalogue} {t : Table} (h : Built l) (ht : t.Built) (hl : l.register t = .ok l') : Built l'
  | reserve {l l' : Catalogue} {name : String} (h : Built l) (hl : l.reserve name = .ok l') : Built l'

/-- Every table stands under its own name, with subtables that lie within its columns. -/
def Sound (l : Catalogue) : Prop := ∀ e ∈ l.tables.entries, e.1 = e.2.name ∧ e.2.Valid

theorem Sound.insert {l : Catalogue} (h : l.Sound) {t : Table} (ht : t.Built) :
    Sound { l with tables := l.tables.insert t.name t } := by
  intro e he
  rcases SortedMap.mem_of_mem_insertEntry he with rfl | he
  · exact ⟨rfl, ht.valid⟩
  · exact h e he

theorem Built.sound {l : Catalogue} (h : l.Built) : l.Sound := by
  induction h with
  | empty => exact fun e he => absurd he List.not_mem_nil
  | builtin =>
    have hempty : Sound .empty := fun e he => absurd he List.not_mem_nil
    exact ((hempty.insert built_xorTable).insert (built_rangeOf (by decide))).insert (built_rangeOf (by decide))
  | register _ ht hl ih =>
    unfold Catalogue.register at hl
    split at hl
    · cases hl
    · obtain rfl := Except.ok.inj hl
      exact ih.insert ht
  | reserve _ hl ih =>
    unfold Catalogue.reserve at hl
    split at hl
    · cases hl
    · split at hl
      · obtain rfl := Except.ok.inj hl
        exact ih
      · cases hl

variable {l : Catalogue} {t : Table}

theorem table?_name (h : l.Sound) {name : String} (ht : l.table? name = some t) : t.name = name :=
  (h _ (SortedMap.get?_eq_some_iff.mp ht)).1.symm

/-- The tables in use are listed in the order of their names. -/
theorem ascending_reservedTables (h : ∀ e ∈ l.tables.entries, e.1 = e.2.name) :
    (l.reservedTables.map Table.name).Pairwise (· < ·) := by
  have hnames : l.tables.values.map Table.name = l.tables.keys := by
    rw [SortedMap.values, List.map_map]
    exact List.map_congr_left fun e he => (h e he).symm
  have hkeys : (l.tables.values.map Table.name).Pairwise (· < ·) := by
    rw [hnames]
    exact List.pairwise_map.mpr l.tables.ascending
  exact hkeys.sublist (List.filter_sublist.map Table.name)

theorem nodup_reservedTables (h : l.Sound) : (l.reservedTables.map Table.name).Nodup :=
  (ascending_reservedTables fun e he => (h e he).1).imp fun hlt => Std.ne_of_lt hlt

theorem valid_of_mem_reservedTables (h : l.Sound) (ht : t ∈ l.reservedTables) : t.Valid := by
  obtain ⟨e, he, rfl⟩ := List.mem_map.mp (List.mem_of_mem_filter ht)
  exact (h e he).2

theorem mem_reservedTables {name subtable : String} (ht : l.table? name = some t) (hname : t.name = name)
    (hsep : separator ∉ name.toList) (hr : join name subtable ∈ l.reserved.toList) : t ∈ l.reservedTables := by
  have hmem : t ∈ l.tables.values := List.mem_map.mpr ⟨_, SortedMap.get?_eq_some_iff.mp ht, rfl⟩
  refine List.mem_filter.mpr ⟨hmem, List.any_eq_true.mpr ⟨_, hr, ?_⟩⟩
  simp [split?_join hsep, hname]

/-- The id of a name is its place among the reserved names, counted from one. -/
theorem get?_ids {name : String} {id : Nat} :
    l.ids.get? name = some id ↔ 1 ≤ id ∧ l.reserved.toList[id - 1]? = some name := by
  have hkeys : ((l.reserved.toList.zipIdx 1).map Prod.fst).Nodup := by
    rw [List.zipIdx_map_fst]
    exact l.reserved.nodup_keys
  rw [ids, SortedMap.get?_ofList hkeys, List.mk_mem_zipIdx_iff_le_and_getElem?_sub]

/-- A reserved name has an id. -/
theorem exists_id {name : String} (h : name ∈ l.reserved.toList) : ∃ id, l.ids.get? name = some id := by
  obtain ⟨i, hi⟩ := List.mem_iff_getElem?.mp h
  exact ⟨i + 1, get?_ids.mpr ⟨Nat.le_add_left 1 i, hi⟩⟩

variable {packing : Packing} {c c' : Circuit} {columns : List Nat} {usable n : Nat}

theorem pack_eq_ok (h : l.Sound) (hnodup : columns.Nodup) (hpack : l.pack packing c columns usable = .ok (c', .ok n)) :
    ∃ ranges, Changes (fun _ _ => True) ⟨c.system.setReserved l.ids, c.table⟩ [] c' ranges := by
  obtain ⟨ranges, hchanges, -⟩ :=
    laid_of_pack (nodup_reservedTables h) (fun _ => valid_of_mem_reservedTables h) hnodup hpack
  exact ⟨ranges, hchanges⟩

/-- Packing a catalogue gives every reserved subtable an id under which it is answered. -/
theorem stocks_of_pack (h : l.Sound) (hnodup : columns.Nodup)
    (hpack : l.pack packing c columns usable = .ok (c', .ok n)) {name subtable : String} {s : Subtable}
    (ht : l.table? name = some t) (hs : t.subtable? subtable = some s) (hsep : separator ∉ name.toList)
    (hr : join name subtable ∈ l.reserved.toList) :
    ∃ id target g, c'.system.reserved.get? (join name subtable) = some id ∧
      c'.system.targets.get? id = some target ∧ t.columns = .ok g ∧
      (c.system.nextSelector ≤ target.tag ∧ target.tag < c'.system.nextSelector) ∧ Stocks c'.table target s g ∧
      ((∀ selector row, c.system.nextSelector ≤ selector → c.table.cell .selector selector row = 0) →
        Only c'.table target s g) := by
  have hname := table?_name h ht
  obtain ⟨id, hid⟩ := exists_id hr
  obtain ⟨ranges, hchanges⟩ := pack_eq_ok h hnodup hpack
  obtain ⟨target, g, hget, hg, htag, hstocks, honly⟩ :=
    Lookup.stocks_of_pack (nodup_reservedTables h) (fun _ => valid_of_mem_reservedTables h) hnodup hpack
      (mem_reservedTables ht hname hsep hr) hs (hname.symm ▸ hid)
  exact ⟨id, target, g, hchanges.kept.reserved ▸ hid, hget, hg, htag, hstocks, honly⟩

end Catalogue

/-! ### The tables of the library -/

theorem getElem?_ofFn_of_lt {n i : Nat} (f : Fin n → Scalar) (h : i < n) : (Array.ofFn f)[i]? = some (f ⟨i, h⟩) := by
  rw [Array.getElem?_ofFn, dif_pos h]

theorem hasTuple_of_three {s : Subtable} (hs : s.columns = [0, 1, 2]) {u v w : Array Scalar} {i : Nat} {x y z : Scalar}
    (hx : u[i]? = some x) (hy : v[i]? = some y) (hz : w[i]? = some z) : s.HasTuple [u, v, w] i [x, y, z] := by
  simp [Subtable.HasTuple, hs, hx, hy, hz]

/-- Row `i` of the exclusive-or table has the high and the low digit of `i` in base 16 and their exclusive or. -/
theorem hasTuple_xorGrid_iff {s : Subtable} (hs : s.columns = [0, 1, 2]) {i : Nat} (h : i < 256) {x : List Scalar} :
    s.HasTuple xorGrid i x ↔ x = [Scalar.ofNat (i / 16), Scalar.ofNat (i % 16), Scalar.ofNat ((i / 16) ^^^ (i % 16))] := by
  have hrow : s.HasTuple xorGrid i
      [Scalar.ofNat (i / 16), Scalar.ofNat (i % 16), Scalar.ofNat ((i / 16) ^^^ (i % 16))] :=
    hasTuple_of_three hs (getElem?_ofFn_of_lt _ h) (getElem?_ofFn_of_lt _ h) (getElem?_ofFn_of_lt _ h)
  exact ⟨fun hx => hx.unique hrow, fun hx => hx ▸ hrow⟩

/-- Row `i` of a range table has the number `i`. -/
theorem hasTuple_rangeGrid_iff {s : Subtable} (hs : s.columns = [0]) {bits i : Nat} (h : i < 2 ^ bits)
    {x : List Scalar} : s.HasTuple (rangeGrid bits) i x ↔ x = [Scalar.ofNat i] := by
  have hrow : s.HasTuple (rangeGrid bits) i [Scalar.ofNat i] := by
    simp [Subtable.HasTuple, hs, rangeGrid, Nat.one_shiftLeft, h]
  exact ⟨fun hx => hx.unique hrow, fun hx => hx ▸ hrow⟩

/-- The catalogue of the numbers below four, all of them reserved. -/
def Catalogue.fours : Catalogue :=
  ⟨SortedMap.empty.insert (rangeName 2) (rangeOf 2), SortedSet.add .empty (join (rangeName 2) fullName)⟩

theorem Catalogue.built_fours : fours.Built := by
  let known : Catalogue := { Catalogue.empty with tables := SortedMap.empty.insert (rangeName 2) (rangeOf 2) }
  have hknown : Catalogue.empty.register (rangeOf 2) = .ok known := by rfl
  have hreserved : known.reserve (join (rangeName 2) fullName) = .ok fours := by rfl
  exact .reserve (.register .empty (built_rangeOf (by decide)) hknown) hreserved

end Lookup
end Plonkish
