import Mathlib
import Plonkish.Proofs.Lookup.Reservations

/-! Full names as names of subtables. A subtable is asked for by its full name only, so the name has to lead back to
    it: when the name is split, when it is reserved, and when the reserved names are packed. It does for every table
    whose own name has no separator, whatever its subtables and the other tables are called
    (`Catalogue.fullName_identifies`). The name of a table with a separator is split too early, so its subtables
    cannot be reserved, or stand for those of another table (`Catalogue.unknownTable_of_separator`). -/

namespace Plonkish
namespace Lookup

theorem join_right_inj {table subtable subtable' : String} :
    join table subtable = join table subtable' ↔ subtable = subtable' := by
  simp [join, ← String.toList_inj]

variable {packing : Packing} {reserved : Reserved} {tables : List Table} {columns : List Nat} {usable n : Nat}
  {c c' : Circuit} {t : Table} {s : Subtable} {subtable : String} {id : Nat}

/-! ### Targets of a packing -/

/-- A packing of `c` into `c'` answers for a subtable with a target. The target reads the columns of the subtable in
    each group that its table lies in, under a selector that the packing handed out and that is on in the rows of the
    subtable. In distinct columns it lists the rows of the subtable, and nothing else if the selectors not yet handed
    out were off. -/
structure Entered (reserved : Reserved) (columns : List Nat) (c c' : Circuit) (t : Table) (s : Subtable) (g : Grid)
    (p : Placement) (target : Target) : Prop where
  lays : Lays reserved t g p
  options : s.target target.tag (p.places columns) = .ok target
  handed : c.system.nextSelector ≤ target.tag ∧ target.tag < c'.system.nextSelector
  on : ∀ row, (p.rowsOf s).1 ≤ row → row < (p.rowsOf s).2 → c'.table.isOn target.tag row
  stocks : columns.Nodup → Stocks c'.table target s g
  only : columns.Nodup →
    (∀ selector row, c.system.nextSelector ≤ selector → c.table.cell .selector selector row = 0) →
    Only c'.table target s g

theorem entered_of_pack (hnames : (tables.map Table.name).Nodup) (hvalid : ∀ t ∈ tables, t.Valid)
    (h : packing.pack reserved tables c columns usable = .ok (c', .ok n)) (ht : t ∈ tables)
    (hs : t.subtable? subtable = some s) (hid : reserved.get? (join t.name subtable) = some id) :
    Kept c c' ∧ ∃ g p target, c'.system.targets.get? id = some target ∧
      Entered reserved columns c c' t s g p target := by
  have href := mem_references hs hid
  obtain ⟨ranges, hchanges, hall⟩ := registered_of_pack hnames hvalid h
  obtain ⟨g, p, hl, hregistered⟩ := hall t (mem_referenced.mpr ⟨ht, List.ne_nil_of_mem href⟩)
  obtain ⟨tag, target, hrange, htarget, hget⟩ := hregistered _ href
  obtain ⟨rfl, -⟩ := target_eq_ok htarget
  have hlit := hchanges.lit (lit_nil c)
  -- Only the contents need distinct columns: a column given twice would be written twice.
  have hlists (hnodup : columns.Nodup) : Stocks c'.table target s g ∧
      ((∀ selector row, c.system.nextSelector ≤ selector → c.table.cell .selector selector row = 0) →
        Only c'.table target s g) := by
    obtain ⟨target', g', hget', hg, -, hstocks, honly⟩ := stocks_of_pack hnames hvalid hnodup h ht hs hid
    obtain rfl := Option.some.inj (hget.symm.trans hget')
    obtain rfl := Except.ok.inj (hl.grid.symm.trans hg)
    exact ⟨hstocks, honly⟩
  exact ⟨hchanges.kept, g, p, target, hget, hl, htarget, hlit.handed _ hrange, hlit.on _ hrange,
    fun hnodup => (hlists hnodup).1, fun hnodup => (hlists hnodup).2⟩

/-! ### Catalogues -/

namespace Catalogue
variable {l l' : Catalogue} {requests : List Request}

theorem Built.coherent (h : l.Built) : l.Coherent := by
  induction h with
  | empty => exact (Initial.coherent (.inl rfl)).1
  | builtin => exact (Initial.coherent (.inr rfl)).1
  | @register l l' t _ _ hl ih => exact coherent_request (r := .register t) ih hl
  | @reserve l l' name _ hl ih => exact coherent_request (r := .reserve name) ih hl

theorem Built.requestAll (h : l.Built) (htables : ∀ t, Request.register t ∈ requests → t.Built)
    (hrun : l.requestAll requests = .ok l') : l'.Built := by
  induction requests generalizing l with
  | nil =>
    obtain rfl := Except.ok.inj hrun
    exact h
  | cons r rest ih =>
    obtain ⟨l₁, hr, hrest⟩ := bind_eq_ok.mp hrun
    refine ih ?_ (fun t ht => htables t (List.mem_cons_of_mem _ ht)) hrest
    cases r with
    | register t => exact .register h (htables t List.mem_cons_self) hr
    | reserve name => exact .reserve h hr

/-- The full name of a known subtable can be reserved, if the name of its table has no separator. -/
theorem reserve_join (ht : l.table? t.name = some t) (hs : t.subtable? subtable = some s)
    (hsep : separator ∉ t.name.toList) :
    l.reserve (join t.name subtable) = .ok { l with reserved := SortedSet.add l.reserved (join t.name subtable) } := by
  have hknows : l.knows t.name subtable = true := by
    rw [knows, ht, Option.bind_some, hs, Option.isSome_some]
  simp only [reserve, split?_join hsep, hknows, if_true]

/-- Packing answers for the full name of a known subtable with this subtable. -/
theorem Built.entered_of_pack (h : l.Built) (ht : l.table? t.name = some t) (hs : t.subtable? subtable = some s)
    (hsep : separator ∉ t.name.toList) (hr : join t.name subtable ∈ l.reserved.toList)
    (hpack : l.pack packing c columns usable = .ok (c', .ok n)) :
    ∃ id g p target, l.ids.get? (join t.name subtable) = some id ∧
      c'.system.tableId (join t.name subtable) = .ok id ∧ c'.system.targets.get? id = some target ∧
      Entered l.ids columns c c' t s g p target := by
  obtain ⟨id, hid⟩ := exists_id hr
  obtain ⟨hkept, g, p, target, hget, hentered⟩ := Lookup.entered_of_pack (nodup_reservedTables h.sound)
    (fun _ => valid_of_mem_reservedTables h.sound) hpack (mem_reservedTables ht rfl hsep hr) hs hid
  have hreserved : c'.system.reserved.get? (join t.name subtable) = some id := hkept.reserved ▸ hid
  refine ⟨id, g, p, target, hid, by rw [System.tableId, hreserved], hget, ?_⟩
  exact ⟨hentered.lays, hentered.options, hentered.handed, hentered.on, hentered.stocks, hentered.only⟩

/-- The full name of a subtable of a known table splits into its parts exactly if the name of the table has no
    separator. It is then the full name of no other subtable of such a table, nor of the same table in any case.
    It can be reserved, and after any further requests a packing that succeeds answers for its number with this
    subtable. -/
theorem fullName_identifies (hl : l.Built) (ht : l.table? t.name = some t) (hs : t.subtable? subtable = some s) :
    (split? (join t.name subtable) = some (t.name, subtable) ↔ separator ∉ t.name.toList) ∧
    (∀ table' subtable', table' = t.name ∨ separator ∉ table'.toList ∧ separator ∉ t.name.toList →
      join table' subtable' = join t.name subtable → table' = t.name ∧ subtable' = subtable) ∧
    (separator ∉ t.name.toList → ∃ l', l.reserve (join t.name subtable) = .ok l' ∧
      ∀ requests l'', (∀ u, Request.register u ∈ requests → u.Built) → l'.requestAll requests = .ok l'' →
        ∀ packing c columns usable c' rows, l''.pack packing c columns usable = .ok (c', .ok rows) →
          ∃ id g p target, l''.ids.get? (join t.name subtable) = some id ∧
            c'.system.tableId (join t.name subtable) = .ok id ∧ c'.system.targets.get? id = some target ∧
            Entered l''.ids columns c c' t s g p target) := by
  refine ⟨?_, ?_, fun hsep => ?_⟩
  · rw [split?_eq_some_iff]
    exact and_iff_right rfl
  · rintro table' subtable' (rfl | ⟨hsep', hsep⟩) hjoin
    · exact ⟨rfl, join_right_inj.mp hjoin⟩
    · exact join_inj hsep' hsep hjoin
  · have hreserve := reserve_join ht hs hsep
    refine ⟨_, hreserve, fun requests l'' hbuilt hrun packing c columns usable c' rows hpack => ?_⟩
    have hl' := Built.reserve hl hreserve
    -- Later requests take neither the table nor the reserved name away.
    have hfollows := (requestAll_keeps hl'.coherent hrun).1
    have ht'' : l''.table? t.name = some t := (hfollows.tables _ _).mpr (.inl ht)
    have hr'' : join t.name subtable ∈ l''.reserved.toList := (hfollows.reserved _).mpr (.inl (by simp))
    exact (hl'.requestAll hbuilt hrun).entered_of_pack ht'' hs hsep hr'' hpack

/-- The numbers below two, under a name with a separator. -/
def pairTable : Table := ⟨"pair", 1, ⟨[("low/bit", ⟨[0], 0, 1, by decide⟩)], by decide⟩, Thunk.mk fun _ => [#[0, 1]]⟩

/-- A table with a separator in its name, whose subtable has the full name of the numbers below two. -/
def pairLowTable : Table := ⟨"pair/low", 1, ⟨[("bit", ⟨[0], 0, 0, by decide⟩)], by decide⟩, Thunk.mk fun _ => [#[5]]⟩

theorem built_pairTable : pairTable.Built := by
  have ht : (Table.make "pair" 1 (Thunk.mk fun _ => [#[0, 1]])).addSubtable "low/bit" [0] 0 1 = .ok pairTable := by rfl
  exact .subtable (.make ..) ht

theorem built_pairLowTable : pairLowTable.Built := by
  have ht : (Table.make "pair/low" 1 (Thunk.mk fun _ => [#[5]])).addSubtable "bit" [0] 0 0 = .ok pairLowTable := by rfl
  exact .subtable (.make ..) ht

/-- Of two subtables with one full name, the packing answers for the one whose table has no separator in its name. -/
theorem fullName_of_two_tables :
    let known : Catalogue := ⟨⟨[("pair", pairTable), ("pair/low", pairLowTable)], by decide⟩, .empty⟩
    let c : Circuit := ⟨.empty, .blank 0 1 0 1⟩
    join "pair" "low/bit" = join "pair/low" "bit" ∧ split? (join "pair" "low/bit") = some ("pair", "low/bit") ∧
      ∃ l c' target, known.reserve (join "pair" "low/bit") = .ok l ∧ l.pack .vertical c [0] 0 = .ok (c', .ok 3) ∧
        c'.system.tableId (join "pair" "low/bit") = .ok 1 ∧ c'.system.targets.get? 1 = some target ∧
        Stocks c'.table target ⟨[0], 0, 1, by decide⟩ [#[0, 1]] ∧
        Only c'.table target ⟨[0], 0, 1, by decide⟩ [#[0, 1]] := by
  intro known c
  have hbuilt : known.Built := by
    let first : Catalogue := ⟨⟨[("pair", pairTable)], by decide⟩, .empty⟩
    have hfirst : Catalogue.empty.register pairTable = .ok first := by rfl
    have hboth : first.register pairLowTable = .ok known := by cbv
    exact .register (.register .empty built_pairTable hfirst) built_pairLowTable hboth
  have ht : known.table? pairTable.name = some pairTable := by cbv
  have hs : pairTable.subtable? "low/bit" = some ⟨[0], 0, 1, by decide⟩ := by cbv
  obtain ⟨hsplit, -, hpacks⟩ := fullName_identifies hbuilt ht hs
  have hsep : separator ∉ pairTable.name.toList := by decide
  let reserved : Catalogue := { known with reserved := ⟨[("pair/low/bit", ())], by decide⟩ }
  have hreserved : known.reserve (join "pair" "low/bit") = .ok reserved := by cbv
  let packed : Circuit := ⟨{ System.empty with
    targets := ⟨[(1, ⟨0, 1, [[.constant 0 0]]⟩)], by decide⟩
    reserved := ⟨[("pair/low/bit", 1)], by decide⟩
    nextSelector := 1 }, ⟨#[], #[#[0, 0, 1]], #[], #[#[0, 1, 1]]⟩⟩
  have hpack : reserved.pack .vertical c [0] 0 = .ok (packed, .ok 3) := by cbv
  obtain ⟨l, hreserve, hpacks⟩ := hpacks hsep
  obtain rfl := Except.ok.inj (hreserved.symm.trans hreserve)
  have hzero : ∀ selector row, c.system.nextSelector ≤ selector → c.table.cell .selector selector row = 0 :=
    fun selector row _ => Assignment.cell_blank ..
  obtain ⟨id, g, p, target, hid, htable, htarget, hentered⟩ :=
    hpacks [] reserved (fun _ hu => absurd hu List.not_mem_nil) rfl .vertical c [0] 0 packed 3 hpack
  have hone : reserved.ids.get? (join "pair" "low/bit") = some 1 := by cbv
  obtain rfl := Option.some.inj (hid.symm.trans hone)
  have hgrid : pairTable.columns = .ok [#[0, 1]] := by rfl
  obtain rfl := Except.ok.inj (hentered.lays.grid.symm.trans hgrid)
  exact ⟨by decide, hsplit.mpr hsep, reserved, packed, target, hreserved, hpack, htable, htarget,
    hentered.stocks (by decide), hentered.only (by decide) hzero⟩

/-- The full name of a subtable of a table with a separator in its name is split too early. The table is known, but
    its subtable cannot be reserved. -/
theorem unknownTable_of_separator :
    let t : Table := ⟨"a/b", 1, ⟨[("c", ⟨[0], 0, 0, by decide⟩)], by decide⟩, Thunk.mk fun _ => [#[1]]⟩
    ∃ l, Catalogue.empty.register t = .ok l ∧ l.Built ∧ l.table? "a/b" = some t ∧
      t.subtable? "c" = some ⟨[0], 0, 0, by decide⟩ ∧ split? (join "a/b" "c") = some ("a", "b/c") ∧
      split? (join "a/b" "c") ≠ some ("a/b", "c") ∧ join "a/b" "c" = join "a" "b/c" ∧
      l.reserve (join "a/b" "c") = .error (.unknownTable "a/b/c") := by
  intro t
  let known : Catalogue := ⟨⟨[("a/b", t)], by decide⟩, .empty⟩
  have ht : t.Built := by
    have ht : (Table.make "a/b" 1 (Thunk.mk fun _ => [#[1]])).addSubtable "c" [0] 0 0 = .ok t := by rfl
    exact .subtable (.make ..) ht
  have hknown : Catalogue.empty.register t = .ok known := by rfl
  have hsplit : split? (join "a/b" "c") = some ("a", "b/c") := by cbv
  refine ⟨known, hknown, .register .empty ht hknown, by cbv, by cbv, hsplit, ?_, by decide, by cbv⟩
  rw [hsplit]
  decide

end Catalogue
end Lookup
end Plonkish
