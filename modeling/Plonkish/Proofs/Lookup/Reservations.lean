import Mathlib
import Plonkish.Proofs.Lookup.Catalogue
import Plonkish.Proofs.Lookup.Enlisting

/-! What a catalogue was asked for and what its packing registers. Every reserved name is that of a subtable of a
    known table (`Catalogue.Coherent`), and the reserved names are numbered in their order from one on
    (`Numbered`), whatever the order of the requests. A full name is split and joined again in the same place,
    since no table in use has a separator in its name. So the subtables in use of the tables in use have exactly
    the numbers of the reserved names, each one once (`Catalogue.Coherent.perm_referenceIds`), and these are the
    ids that a packing registers (`Catalogue.reservations_of_requestAll`). -/

namespace Plonkish
namespace Lookup
variable {names : List String} {name subtable : String} {ids : Reserved} {ts : List Table} {t : Table} {id : Nat}

/-! ### Full names -/

theorem split?_eq_some_iff {table : String} :
    split? name = some (table, subtable) ↔ name = join table subtable ∧ separator ∉ table.toList := by
  refine ⟨fun h => ?_, fun ⟨hname, hsep⟩ => hname ▸ split?_join hsep subtable⟩
  unfold split? at h
  rw [List.span_eq_takeWhile_dropWhile] at h
  split at h
  · rename_i before c after hspan
    obtain ⟨hbefore, hafter⟩ := Prod.mk.inj hspan
    obtain ⟨rfl, rfl⟩ := Prod.mk.inj (Option.some.inj h)
    -- The split is at the first separator: none stands before it.
    have hsep : separator ∉ before := fun hmem => by
      have htaken : separator ∈ name.toList.takeWhile (· != separator) := hbefore ▸ hmem
      have hne : (separator != separator) = true := List.mem_takeWhile_imp (p := (· != separator)) htaken
      exact bne_iff_ne.mp hne rfl
    have hc : c = separator := by
      have hhead := List.head?_dropWhile_not (· != separator) name.toList
      simpa [hafter] using hhead
    refine ⟨String.toList_inj.mp ?_, by simpa using hsep⟩
    rw [← List.takeWhile_append_dropWhile (p := (· != separator)) (l := name.toList), hbefore, hafter, hc]
    simp [join]
  · cases h

theorem join_inj {table table' subtable' : String} (h : separator ∉ table.toList) (h' : separator ∉ table'.toList)
    (heq : join table subtable = join table' subtable') : table = table' ∧ subtable = subtable' := by
  have hsplit := split?_join h subtable
  rw [heq, split?_join h'] at hsplit
  obtain ⟨htable, hsubtable⟩ := Prod.mk.inj (Option.some.inj hsplit)
  exact ⟨htable.symm, hsubtable.symm⟩

/-! ### Numbers of names -/

/-- Names have numbers from one on, which ascend with the names. -/
structure Numbered (names : List String) (ids : Reserved) : Prop where
  known : ∀ name, (ids.get? name).isSome ↔ name ∈ names
  bounds : ∀ name id, ids.get? name = some id → 1 ≤ id ∧ id ≤ names.length
  onto : ∀ id, 1 ≤ id → id ≤ names.length → ∃! name, ids.get? name = some id
  ascending : ∀ name name' id id', ids.get? name = some id → ids.get? name' = some id' → (name < name' ↔ id < id')

/-- Of two names in a sorted list the one that stands first is the smaller one. -/
theorem lt_iff_of_getElem? (h : names.Pairwise (· < ·)) {i j : Nat} {name' : String} (hi : names[i]? = some name)
    (hj : names[j]? = some name') : name < name' ↔ i < j := by
  obtain ⟨hilt, rfl⟩ := List.getElem?_eq_some_iff.mp hi
  obtain ⟨hjlt, rfl⟩ := List.getElem?_eq_some_iff.mp hj
  have hbelow := List.pairwise_iff_getElem.mp h
  refine ⟨fun hlt => ?_, hbelow i j hilt hjlt⟩
  rcases Nat.lt_trichotomy i j with hij | rfl | hji
  · exact hij
  · exact absurd hlt (Std.lt_irrefl)
  · exact absurd (Std.lt_trans hlt (hbelow j i hjlt hilt hji)) Std.lt_irrefl

/-- Two names do not share a number. -/
theorem Numbered.inj (h : Numbered names ids) {name' : String} (hid : ids.get? name = some id)
    (hid' : ids.get? name' = some id) : name = name' := by
  obtain ⟨hpos, hle⟩ := h.bounds name id hid
  exact (h.onto id hpos hle).unique hid hid'

namespace Catalogue
variable {l l' : Catalogue}

theorem numbered_ids (l : Catalogue) : Numbered l.reserved.toList l.ids where
  known name := by
    refine ⟨fun hid => ?_, fun hr => Option.isSome_iff_exists.mpr (exists_id hr)⟩
    obtain ⟨id, hid⟩ := Option.isSome_iff_exists.mp hid
    exact List.mem_of_getElem? (get?_ids.mp hid).2
  bounds name id hid := by
    obtain ⟨hpos, hname⟩ := get?_ids.mp hid
    have hlt := (List.getElem?_eq_some_iff.mp hname).1
    omega
  onto id hpos hle := by
    have hlt : id - 1 < l.reserved.toList.length := by omega
    have hname := List.getElem?_eq_getElem hlt
    exact ⟨_, get?_ids.mpr ⟨hpos, hname⟩, fun name hid => Option.some.inj ((get?_ids.mp hid).2.symm.trans hname)⟩
  ascending name name' id id' hid hid' := by
    obtain ⟨hpos, hname⟩ := get?_ids.mp hid
    obtain ⟨hpos', hname'⟩ := get?_ids.mp hid'
    rw [lt_iff_of_getElem? l.reserved.pairwise_toList hname hname']
    omega

/-- The numbers depend on which names are reserved only. -/
theorem ids_congr (h : ∀ name, name ∈ l.reserved.toList ↔ name ∈ l'.reserved.toList) : l.ids = l'.ids := by
  rw [ids, ids, SortedSet.ext_toList h]

/-! ### Requests -/

/-- What a catalogue may be asked for. -/
inductive Request where
  /-- Makes a table known. -/
  | register (t : Table)
  /-- Marks a subtable as used. -/
  | reserve (name : String)

def request (l : Catalogue) : Request → Except Fault Catalogue
  | .register t => l.register t
  | .reserve name => l.reserve name

/-- Grants requests one after the other. -/
def requestAll (l : Catalogue) (requests : List Request) : Except Fault Catalogue :=
  requests.foldlM request l

/-- A catalogue begins without tables or with those of the library, and nothing is reserved in it. -/
def Initial (l : Catalogue) : Prop := l = .empty ∨ l = .builtin

/-- A catalogue holds what it held before and what was asked for, and nothing else. -/
structure Follows (l : Catalogue) (requests : List Request) (l' : Catalogue) : Prop where
  tables : ∀ name t, l'.table? name = some t ↔ l.table? name = some t ∨ Request.register t ∈ requests ∧ t.name = name
  reserved : ∀ name, name ∈ l'.reserved.toList ↔ name ∈ l.reserved.toList ∨ Request.reserve name ∈ requests

/-- Tables stand under their own names, and every reserved name splits into those of a known table and of one of
    its subtables. -/
structure Coherent (l : Catalogue) : Prop where
  named : ∀ name t, l.table? name = some t → t.name = name
  known : ∀ name ∈ l.reserved.toList, ∃ t subtable s,
    split? name = some (t.name, subtable) ∧ l.table? t.name = some t ∧ t.subtable? subtable = some s

variable {requests requests' : List Request} {r : Request}

theorem register_eq_ok (h : l.register t = .ok l') :
    l.table? t.name = none ∧ l' = { l with tables := l.tables.insert t.name t } := by
  unfold register at h
  split at h
  · cases h
  · rename_i hnew
    exact ⟨by simpa [SortedMap.contains, table?] using hnew, (Except.ok.inj h).symm⟩

theorem reserve_eq_ok (h : l.reserve name = .ok l') :
    (∃ table subtable t s, split? name = some (table, subtable) ∧ l.table? table = some t ∧
      t.subtable? subtable = some s) ∧ l' = { l with reserved := SortedSet.add l.reserved name } := by
  unfold reserve at h
  split at h
  · cases h
  · rename_i table subtable hsplit
    split at h
    · rename_i hknows
      obtain ⟨s, hs⟩ := Option.isSome_iff_exists.mp hknows
      obtain ⟨t, ht, hs⟩ := Option.bind_eq_some_iff.mp hs
      exact ⟨⟨table, subtable, t, s, hsplit, ht, hs⟩, (Except.ok.inj h).symm⟩
    · cases h

theorem Follows.trans {l'' : Catalogue} (h : l.Follows requests l') (h' : l'.Follows requests' l'') :
    l.Follows (requests ++ requests') l'' where
  tables name t := by rw [h'.tables, h.tables, List.mem_append, or_and_right, or_assoc]
  reserved name := by rw [h'.reserved, h.reserved, List.mem_append, or_assoc]

theorem follows_request (h : l.request r = .ok l') : l.Follows [r] l' := by
  cases r with
  | register t =>
    obtain ⟨hnew, rfl⟩ := register_eq_ok h
    refine ⟨fun name u => ?_, fun name => by simp⟩
    have hget : ({ l with tables := l.tables.insert t.name t } : Catalogue).table? name =
        if name = t.name then some t else l.table? name := SortedMap.get?_insert ..
    rw [hget, List.mem_singleton, Request.register.injEq]
    split
    · rename_i hname
      subst hname
      simp only [hnew, Option.some.injEq, reduceCtorEq, false_or]
      exact ⟨fun hu => hu ▸ ⟨rfl, rfl⟩, fun hu => hu.1.symm⟩
    · rename_i hname
      have hother : ¬ (u = t ∧ u.name = name) := fun ⟨hu, hu'⟩ => hname (hu ▸ hu'.symm)
      exact (or_iff_left hother).symm
  | reserve name =>
    obtain ⟨-, rfl⟩ := reserve_eq_ok h
    exact ⟨fun _ _ => by simp [table?], fun _ => by simp [or_comm]⟩

theorem coherent_request (hl : l.Coherent) (h : l.request r = .ok l') : l'.Coherent := by
  have hfollows := follows_request h
  have hkept : ∀ {table t}, l.table? table = some t → t.name = table ∧ l'.table? t.name = some t := fun ht =>
    have hname := hl.named _ _ ht
    ⟨hname, (hfollows.tables _ _).mpr (.inl (hname ▸ ht))⟩
  refine ⟨fun name t ht => ?_, fun name hr => ?_⟩
  · rcases (hfollows.tables name t).mp ht with ht | ⟨-, hname⟩
    · exact hl.named name t ht
    · exact hname
  · rcases (hfollows.reserved name).mp hr with hr | hr
    · obtain ⟨t, subtable, s, hsplit, ht, hs⟩ := hl.known name hr
      exact ⟨t, subtable, s, hsplit, (hkept ht).2, hs⟩
    · obtain rfl := List.mem_singleton.mp hr
      obtain ⟨⟨table, subtable, t, s, hsplit, ht, hs⟩, -⟩ := reserve_eq_ok h
      obtain ⟨rfl, ht'⟩ := hkept ht
      exact ⟨t, subtable, s, hsplit, ht', hs⟩

theorem requestAll_keeps (hl : l.Coherent) (h : l.requestAll requests = .ok l') :
    l.Follows requests l' ∧ l'.Coherent := by
  induction requests generalizing l with
  | nil =>
    obtain rfl := Except.ok.inj h
    exact ⟨⟨by simp, by simp⟩, hl⟩
  | cons r rest ih =>
    obtain ⟨l₁, hr, hrest⟩ := bind_eq_ok.mp h
    obtain ⟨hfollows, hl'⟩ := ih (coherent_request hl hr) hrest
    exact ⟨(follows_request hr).trans hfollows, hl'⟩

/-! ### Tables in use -/

theorem Coherent.mem_reservedTables_iff (h : l.Coherent) :
    t ∈ l.reservedTables ↔ l.table? t.name = some t ∧ ∃ name ∈ l.reserved.toList, ∃ subtable s,
      split? name = some (t.name, subtable) ∧ t.subtable? subtable = some s := by
  have hvalues : t ∈ l.tables.values ↔ l.table? t.name = some t := by
    refine ⟨fun ht => ?_, fun ht => List.mem_map.mpr ⟨_, SortedMap.get?_eq_some_iff.mp ht, rfl⟩⟩
    obtain ⟨⟨name, t⟩, he, rfl⟩ := List.mem_map.mp ht
    have hget : l.table? name = some t := SortedMap.get?_eq_some_iff.mpr he
    rwa [h.named name t hget]
  rw [reservedTables, List.mem_filter, hvalues, List.any_eq_true]
  refine and_congr_right fun ht => exists_congr fun name => and_congr_right fun hr => ?_
  obtain ⟨u, subtable, s, hsplit, hu, hs⟩ := h.known name hr
  rw [hsplit, Option.any_some, decide_eq_true_iff]
  constructor
  · intro (hname : u.name = t.name)
    rw [hname, ht] at hu
    obtain rfl := Option.some.inj hu
    exact ⟨subtable, s, rfl, hs⟩
  · rintro ⟨subtable', s', hsplit', -⟩
    exact congrArg Prod.fst (Option.some.inj hsplit')

theorem Coherent.ascending (h : l.Coherent) : (l.reservedTables.map Table.name).Pairwise (· < ·) :=
  ascending_reservedTables fun _ he => (h.named _ _ (SortedMap.get?_eq_some_iff.mpr he)).symm

theorem Coherent.nodup (h : l.Coherent) : (l.reservedTables.map Table.name).Nodup :=
  h.ascending.imp fun hlt => Std.ne_of_lt hlt

theorem Coherent.separator_notMem (h : l.Coherent) (ht : t ∈ l.reservedTables) : separator ∉ t.name.toList := by
  obtain ⟨-, name, -, subtable, s, hsplit, -⟩ := h.mem_reservedTables_iff.mp ht
  exact (split?_eq_some_iff.mp hsplit).2

end Catalogue

/-! ### Ids of subtables -/

theorem mem_referenceIds :
    id ∈ t.referenceIds ids ↔
      ∃ subtable s, t.subtable? subtable = some s ∧ ids.get? (join t.name subtable) = some id := by
  simp only [Table.referenceIds, Table.references, List.mem_map, List.mem_filterMap, Option.map_eq_some_iff]
  constructor
  · rintro ⟨-, ⟨⟨subtable, s⟩, hs, id, hid, rfl⟩, rfl⟩
    exact ⟨subtable, s, SortedMap.get?_eq_some_iff.mpr hs, hid⟩
  · rintro ⟨subtable, s, hs, hid⟩
    exact ⟨⟨subtable, s, id⟩, ⟨(subtable, s), SortedMap.get?_eq_some_iff.mp hs, id, hid, rfl⟩, rfl⟩

/-- The ids of the subtables of one table differ, as their names do. -/
theorem nodup_referenceIds (h : Numbered names ids) (hsep : separator ∉ t.name.toList) :
    (t.referenceIds ids).Nodup := by
  have hrefs : t.referenceIds ids = t.subtables.keys.filterMap fun subtable => ids.get? (join t.name subtable) := by
    simp [Table.referenceIds, Table.references, SortedMap.keys, List.filterMap_map, List.map_filterMap,
      Function.comp_def]
  rw [hrefs]
  refine t.subtables.nodup_keys.filterMap fun subtable subtable' id hid hid' => ?_
  exact (join_inj hsep hsep (h.inj hid hid')).2

/-- The ids of the subtables of several tables differ, as long as the tables have different names without a
    separator. -/
theorem nodup_flatMap_referenceIds (h : Numbered names ids) (hnames : (ts.map Table.name).Nodup)
    (hsep : ∀ t ∈ ts, separator ∉ t.name.toList) : (ts.flatMap (·.referenceIds ids)).Nodup := by
  refine List.nodup_flatMap.mpr ⟨fun t ht => nodup_referenceIds h (hsep t ht), ?_⟩
  -- One id in two tables is that of one full name, and this splits in one way.
  refine (List.pairwise_map.mp hnames).imp_of_mem fun {t u} ht hu hne id hid hid' => hne ?_
  obtain ⟨subtable, -, -, hget⟩ := mem_referenceIds.mp hid
  obtain ⟨subtable', -, -, hget'⟩ := mem_referenceIds.mp hid'
  exact (join_inj (hsep t ht) (hsep u hu) (h.inj hget hget')).1

namespace Catalogue
variable {l : Catalogue} {requests : List Request}

/-- The subtables in use of the tables in use have the numbers of the reserved names. -/
theorem Coherent.perm_referenceIds (h : l.Coherent) :
    ((referenced l.ids l.reservedTables).flatMap (·.referenceIds l.ids)).Perm
      (List.range' 1 l.reserved.toList.length) := by
  -- A table that is not in use may have a separator in its name, and a full name that is reserved for another one.
  have hnames : ((referenced l.ids l.reservedTables).map Table.name).Nodup := nodup_referenced h.nodup
  have hsep : ∀ t ∈ referenced l.ids l.reservedTables, separator ∉ t.name.toList := fun t ht =>
    h.separator_notMem (mem_referenced.mp ht).1
  refine (List.perm_ext_iff_of_nodup (nodup_flatMap_referenceIds l.numbered_ids hnames hsep)
    List.nodup_range').mpr fun id => ?_
  rw [List.mem_flatMap, List.mem_range'_1]
  constructor
  · rintro ⟨t, -, hid⟩
    obtain ⟨subtable, s, -, hget⟩ := mem_referenceIds.mp hid
    have hbounds := l.numbered_ids.bounds _ id hget
    omega
  · -- An id is that of a reserved name, and its table is in use.
    rintro ⟨hpos, hlt⟩
    obtain ⟨name, hget, -⟩ := l.numbered_ids.onto id hpos (by omega)
    have hr : name ∈ l.reserved.toList := (l.numbered_ids.known name).mp (Option.isSome_of_eq_some hget)
    obtain ⟨t, subtable, s, hsplit, ht, hs⟩ := h.known name hr
    obtain ⟨rfl, -⟩ := split?_eq_some_iff.mp hsplit
    have hid : id ∈ t.referenceIds l.ids := mem_referenceIds.mpr ⟨subtable, s, hs, hget⟩
    refine ⟨t, mem_referenced.mpr ⟨?_, fun hnil => ?_⟩, hid⟩
    · exact h.mem_reservedTables_iff.mpr ⟨ht, _, hr, subtable, s, hsplit, hs⟩
    · rw [Table.referenceIds, hnil] at hid
      cases hid

/-- Packing registers the numbers of the reserved names, if they are free. -/
theorem Coherent.enters_of_pack (h : l.Coherent) (packing : Packing) {c : Circuit} (columns : List Nat) (usable : Nat)
    (hfree : ∀ id, 1 ≤ id → id ≤ l.reserved.toList.length → c.system.targets.get? id = none) :
    Enters (List.range' 1 l.reserved.toList.length) ⟨c.system.setReserved l.ids, c.table⟩
      (l.pack packing c columns usable) := by
  have hperm := h.perm_referenceIds
  have hrange : Free (List.range' 1 l.reserved.toList.length) ⟨c.system.setReserved l.ids, c.table⟩ := by
    refine ⟨List.nodup_range', fun id hid => ?_⟩
    rw [List.mem_range'_1] at hid
    exact hfree id hid.1 (by omega)
  exact (enters_pack h.nodup (hrange.perm hperm.symm)).perm hperm

theorem Initial.coherent (h : l.Initial) : l.Coherent ∧ ∀ name, name ∉ l.reserved.toList := by
  have hbuilt : l.Built := by
    rcases h with rfl | rfl
    · exact .empty
    · exact .builtin
  have hnone : ∀ name, name ∉ l.reserved.toList := by
    rcases h with rfl | rfl <;> exact fun _ => List.not_mem_nil
  exact ⟨⟨fun _ _ => table?_name hbuilt.sound, fun name hr => absurd hr (hnone name)⟩, hnone⟩

/-- Whatever a catalogue was asked for, its reserved names are numbered in their order from one on, each of them
    splits into the names of a known table and of one of its subtables, and the tables in use are those with a
    reserved subtable, each one once and in the order of their names. Packed into a circuit with none of these
    numbers registered, they register exactly these, no number twice, and so every reserved name leads to a
    registered target. -/
theorem reservations_of_requestAll {start : Catalogue} (hstart : start.Initial)
    (hrun : start.requestAll requests = .ok l) :
    (∀ name, name ∈ l.reserved.toList ↔ Request.reserve name ∈ requests) ∧
    (∀ name t, l.table? name = some t ↔ start.table? name = some t ∨ Request.register t ∈ requests ∧ t.name = name) ∧
    Numbered l.reserved.toList l.ids ∧
    (∀ start' requests' l', Initial start' → start'.requestAll requests' = .ok l' →
      (∀ name, Request.reserve name ∈ requests' ↔ Request.reserve name ∈ requests) → l'.ids = l.ids) ∧
    (∀ name ∈ l.reserved.toList, ∃ t subtable s,
      split? name = some (t.name, subtable) ∧ l.table? t.name = some t ∧ t.subtable? subtable = some s) ∧
    (l.reservedTables.map Table.name).Pairwise (· < ·) ∧
    (∀ t, t ∈ l.reservedTables ↔ l.table? t.name = some t ∧ ∃ name ∈ l.reserved.toList, ∃ subtable s,
      split? name = some (t.name, subtable) ∧ t.subtable? subtable = some s) ∧
    ∀ packing c columns usable,
      (∀ id, 1 ≤ id → id ≤ l.reserved.toList.length → c.system.targets.get? id = none) →
      (∀ id, l.pack packing c columns usable ≠ .error (.tableIdTaken id)) ∧
      ∀ c' rows, l.pack packing c columns usable = .ok (c', .ok rows) →
        (∀ id, (c'.system.targets.get? id).isSome ↔
          (c.system.targets.get? id).isSome ∨ 1 ≤ id ∧ id ≤ l.reserved.toList.length) ∧
        (∀ id target, c.system.targets.get? id = some target → c'.system.targets.get? id = some target) ∧
        ∀ name ∈ l.reserved.toList, ∃ id target, l.ids.get? name = some id ∧
          c'.system.tableId name = .ok id ∧ c'.system.targets.get? id = some target := by
  -- What is reserved at the end is what was asked for, whatever the catalogue began with.
  have hreserved : ∀ {start requests l}, Initial start → start.requestAll requests = .ok l →
      ∀ name, name ∈ l.reserved.toList ↔ Request.reserve name ∈ requests := by
    intro start requests l hstart hrun name
    obtain ⟨hcoherent, hnone⟩ := hstart.coherent
    rw [(requestAll_keeps hcoherent hrun).1.reserved, or_iff_right (hnone name)]
  obtain ⟨hfollows, hl⟩ := requestAll_keeps hstart.coherent.1 hrun
  refine ⟨hreserved hstart hrun, hfollows.tables, l.numbered_ids, fun start' requests' l' hstart' hrun' hsame => ?_,
    hl.known, hl.ascending, fun t => hl.mem_reservedTables_iff, fun packing c columns usable hfree => ?_⟩
  · exact ids_congr fun name => by rw [hreserved hstart' hrun', hsame, hreserved hstart hrun]
  · -- A packing enters the ids from one on, and each of them was free.
    obtain ⟨hspares, henlists⟩ := hl.enters_of_pack packing columns usable hfree
    refine ⟨fun id hfault => hspares _ hfault trivial, fun c' rows hpack => ?_⟩
    obtain ⟨hkeys, hkept, hids⟩ := henlists c' rows hpack
    have hregistered : ∀ id, (c'.system.targets.get? id).isSome ↔
        (c.system.targets.get? id).isSome ∨ 1 ≤ id ∧ id ≤ l.reserved.toList.length := fun id => by
      rw [hkeys, List.mem_range'_1]
      exact or_congr_right (and_congr_right fun _ => by omega)
    refine ⟨hregistered, hkept, fun name hr => ?_⟩
    obtain ⟨id, hid⟩ := exists_id hr
    obtain ⟨target, htarget⟩ :=
      Option.isSome_iff_exists.mp ((hregistered id).mpr (.inr (l.numbered_ids.bounds name id hid)))
    refine ⟨id, target, hid, ?_, htarget⟩
    have hget : c'.system.reserved.get? name = some id := hids ▸ hid
    rw [System.tableId, hget]

/-- The catalogue of the numbers below four, where these and the numbers below two are reserved. -/
def twosAndFours : Catalogue :=
  ⟨SortedMap.empty.insert (rangeName 2) (rangeOf 2), ⟨[("range_2bit/1bit", ()), ("range_2bit/full", ())], by decide⟩⟩

/-- The numbers below four are reserved before the numbers below two and once more after them, but have the
    second number. -/
theorem reservations_of_repeated_name :
    ∃ c target, Catalogue.empty.requestAll [.register (rangeOf 2), .reserve "range_2bit/full",
        .reserve "range_2bit/1bit", .reserve "range_2bit/full"] = .ok twosAndFours ∧
      twosAndFours.pack .vertical ⟨.empty, .blank 1 1 1 2⟩ [0] 0 = .ok (c, .ok 5) ∧
      twosAndFours.ids.get? "range_2bit/full" = some 2 ∧ c.system.tableId "range_2bit/full" = .ok 2 ∧
      c.system.targets.get? 2 = some target := by
  have hrun : Catalogue.empty.requestAll [.register (rangeOf 2), .reserve "range_2bit/full",
      .reserve "range_2bit/1bit", .reserve "range_2bit/full"] = .ok twosAndFours := by cbv
  let packed : Circuit := ⟨{ System.empty with
    targets := ⟨[(1, ⟨0, 1, [[.constant 0 0]]⟩), (2, ⟨1, 1, [[.constant 0 0]]⟩)], by decide⟩
    reserved := ⟨[("range_2bit/1bit", 1), ("range_2bit/full", 2)], by decide⟩
    nextSelector := 2 }, ⟨#[#[]], #[#[0, 0, 1, 2, 3]], #[#[]], #[#[0, 1, 1], #[0, 1, 1, 1, 1]]⟩⟩
  have hpack : twosAndFours.pack .vertical ⟨.empty, .blank 1 1 1 2⟩ [0] 0 =
      .ok (packed, .ok 5) := by cbv
  have hfull : twosAndFours.ids.get? "range_2bit/full" = some 2 := by cbv
  obtain ⟨hreserved, -, -, -, -, -, -, hpacking⟩ := reservations_of_requestAll (.inl rfl) hrun
  obtain ⟨-, hregistered⟩ := hpacking .vertical ⟨.empty, .blank 1 1 1 2⟩ [0] 0 fun _ _ _ => rfl
  obtain ⟨-, -, hreached⟩ := hregistered packed 5 hpack
  obtain ⟨id, target, hid, htable, htarget⟩ := hreached "range_2bit/full" ((hreserved _).mpr (by simp))
  obtain rfl := Option.some.inj (hid.symm.trans hfull)
  exact ⟨packed, target, hrun, hpack, hfull, htable, htarget⟩

end Catalogue
end Lookup
end Plonkish
