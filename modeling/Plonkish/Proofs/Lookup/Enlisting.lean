import Mathlib
import Plonkish.Proofs.Lookup.Stacking

/-! Under which ids packing registers tables. Whatever becomes of the cells, a packing that ends well registers one
    table under the id of each subtable in use, and leaves the tables that were registered before alone
    (`Enlists`). An id that is to be registered twice is a fault. It does not occur if the ids of the subtables in use
    differ from each other and none of them was registered before (`Free`), for these are all that the packing
    registers (`enters_pack`). Conversely a run of placements that ends well found its ids free (`free_of_place`), so
    no two of them were of one table. -/

namespace Plonkish

/-- The fault of an id that was to be registered twice. -/
def Fault.Taken : Fault → Prop
  | .tableIdTaken _ => True
  | _ => False

namespace Lookup
variable {α β : Type} {reserved : Reserved} {tables ts : List Table} {columns : List Nat} {c c' c'' : Circuit}
  {ids ids' : List Nat} {ranges : Ranges} {references : List Reference} {ps : List Placement}

/-- Tables are registered under some ids, and nothing else becomes of the tables and of their names. -/
structure Enlists (ids : List Nat) (c c' : Circuit) : Prop where
  keys : ∀ id, (c'.system.targets.get? id).isSome ↔ (c.system.targets.get? id).isSome ∨ id ∈ ids
  kept : ∀ id target, c.system.targets.get? id = some target → c'.system.targets.get? id = some target
  reserved : c'.system.reserved = c.system.reserved

/-- Ids that differ from each other, and under which no table is registered. -/
structure Free (ids : List Nat) (c : Circuit) : Prop where
  nodup : ids.Nodup
  unused : ∀ id ∈ ids, c.system.targets.get? id = none

/-- A step of packing, begun in a circuit: no id is registered twice in it, and if it ends well it has registered
    some ids. -/
structure Enters (ids : List Nat) (c : Circuit) (x : Except Fault (Outcome α)) : Prop where
  spares : Spares Fault.Taken x
  enlists : ∀ c' a, x = .ok (c', .ok a) → Enlists ids c c'

/-! ### Registering ids -/

theorem Enlists.of_eq (htargets : c'.system.targets = c.system.targets)
    (hreserved : c'.system.reserved = c.system.reserved) : Enlists [] c c' :=
  ⟨fun id => by simp [htargets], fun id target h => htargets ▸ h, hreserved⟩

theorem Enlists.trans (h : Enlists ids c c') (h' : Enlists ids' c' c'') : Enlists (ids ++ ids') c c'' where
  keys id := by rw [h'.keys, h.keys, List.mem_append, or_assoc]
  kept id target ht := h'.kept id target (h.kept id target ht)
  reserved := h'.reserved.trans h.reserved

theorem Free.left (h : Free (ids ++ ids') c) : Free ids c :=
  ⟨h.nodup.of_append_left, fun id hid => h.unused id (List.mem_append_left _ hid)⟩

/-- Ids are free after others were registered. -/
theorem Free.right (h : Free (ids ++ ids') c) (he : Enlists ids c c') : Free ids' c' := by
  refine ⟨h.nodup.of_append_right, fun id hid => ?_⟩
  have hnone : ¬ (c'.system.targets.get? id).isSome := by
    rw [he.keys, h.unused id (List.mem_append_right _ hid)]
    rintro (hsome | hmem)
    · cases hsome
    · exact (List.disjoint_of_nodup_append h.nodup) hmem hid
  simpa using hnone

namespace Enters

theorem refuse (ids : List Nat) (c c' : Circuit) (e : Refusal) :
    Enters ids c (.ok (c', .error e) : Except Fault (Outcome α)) :=
  ⟨.ok _, nofun⟩

theorem done (h : Enlists ids c c') (a : α) : Enters ids c (.ok (c', .ok a)) :=
  ⟨.ok _, fun _ _ he => by cases he; exact h⟩

/-- A step that changes no tables comes first. -/
theorem bind {x : Except Fault α} {f : α → Except Fault (Outcome β)} (hx : Spares Fault.Taken x)
    (hf : ∀ a, x = .ok a → Enters ids c (f a)) : Enters ids c (x >>= f) := by
  refine ⟨hx.bind fun a ha => (hf a ha).spares, fun c' b h => ?_⟩
  obtain ⟨a, ha, hb⟩ := bind_eq_ok.mp h
  exact (hf a ha).enlists c' b hb

theorem shift {x : Except Fault (Outcome α)} (h : Enlists ids c c') (hx : Enters ids' c' x) :
    Enters (ids ++ ids') c x :=
  ⟨hx.spares, fun _ a ha => h.trans (hx.enlists _ a ha)⟩

/-- Of two steps the second is begun where the first one ended, unless that one was refused. -/
theorem andThen (ids ids' : List Nat) {x : Except Fault (Outcome α)} {f : Outcome α → Except Fault (Outcome β)}
    (hfree : Free (ids ++ ids') c) (hx : Free ids c → Enters ids c x)
    (hrefuse : ∀ c' e, f (c', .error e) = .ok (c', .error e))
    (hf : ∀ c' a, Free ids' c' → Enters ids' c' (f (c', .ok a))) : Enters (ids ++ ids') c (x >>= f) := by
  have hx := hx hfree.left
  refine bind hx.spares ?_
  rintro ⟨c', e | a⟩ ha
  · rw [hrefuse]
    exact refuse _ _ _ e
  · have he := hx.enlists c' a ha
    exact shift he (hf c' a (hfree.right he))

end Enters

/-! ### Steps that register nothing -/

theorem spares_set (t : Assignment) (kind : ColumnKind) (column row : Nat) (x : Scalar) :
    Spares Fault.Taken (t.set kind column row x) := by
  unfold Assignment.set
  split
  · exact .ok _
  · exact .error id

theorem spares_enableRange (t : Assignment) (selector first stop : Nat) :
    Spares Fault.Taken (t.enableRange selector first stop) := by
  unfold Assignment.enableRange
  split
  · exact .ok _
  · split
    · exact .ok _
    · exact .error id

theorem spares_writeDown (t : Assignment) (kind : ColumnKind) (column row : Nat) (xs : List Scalar) :
    Spares Fault.Taken (t.writeDown kind column row xs) := by
  induction xs generalizing t row with
  | nil => exact .ok _
  | cons x xs ih => exact (spares_set t kind column row x).bind fun t _ => ih t (row + 1)

theorem spares_writeGrid (c : Circuit) (row : Nat) (cells : List (Nat × Array Scalar)) :
    Spares Fault.Taken (writeGrid c row cells) := by
  induction cells generalizing c with
  | nil => exact .ok _
  | cons e rest ih =>
    have hcolumn := spares_writeDown c.table .constant e.1 row e.2.toList
    exact (hcolumn.bind fun _ _ => .ok _).bind fun c _ => ih c

theorem spares_columns (t : Table) : Spares Fault.Taken t.columns := by
  unfold Table.columns Table.check
  split
  · exact .error id
  · split
    · exact .error id
    · split
      · exact .error id
      · exact .ok _

theorem spares_foldGrid (g : Grid) (folds : Nat) : Spares Fault.Taken (foldGrid g folds) := by
  unfold foldGrid
  split
  · exact .error id
  · split
    · exact .error id
    · exact .ok _

theorem spares_layout (reserved : Reserved) (tables : List Table) (available budget : Nat) :
    Spares Fault.Taken (layout reserved tables available budget) :=
  (Spares.mapM fun t _ => ((spares_columns t).map _).bind fun _ _ => .ok _).bind fun _ _ => .ok _

theorem spares_target (s : Subtable) (tag : Nat) (places : List (List Nat)) :
    Spares Fault.Taken (s.target tag places) := by
  have hoption : ∀ columns, Spares Fault.Taken (s.option columns) := fun columns => by
    refine .mapM fun i _ => ?_
    split
    · exact .ok _
    · exact .error id
  refine .foldlM (fun target columns => (hoption columns).bind fun option _ => ?_) _
  unfold Target.addOption
  split
  · exact .ok _
  · exact .error id

theorem enlists_writeGrid {row : Nat} {cells : List (Nat × Array Scalar)} (h : writeGrid c row cells = .ok c') :
    Enlists [] c c' := by
  have hsystem := system_writeGrid h
  exact .of_eq (by rw [hsystem]) (by rw [hsystem])

/-! ### One subtable -/

theorem enlists_register {r : Reference} {tag : Nat} {places : List (List Nat)} (h : register c r tag places = .ok c') :
    Enlists [r.id] c c' := by
  obtain ⟨target, -, hunused, rfl⟩ := register_eq_ok h
  refine ⟨fun id => ?_, fun id old hold => ?_, rfl⟩
  · by_cases hid : id = r.id <;> simp [hid]
  · have hid : id ≠ r.id := fun hid => by simp [hid, hunused] at hold
    simpa [hid] using hold

theorem enters_register {r : Reference} {tag : Nat} {places : List (List Nat)} {f : Circuit → Except Fault (Outcome α)}
    (hfree : Free (r.id :: ids) c) (hf : ∀ c', Free ids c' → Enters ids c' (f c')) :
    Enters (r.id :: ids) c (register c r tag places >>= f) := by
  have hunused := hfree.unused r.id List.mem_cons_self
  refine .bind ?_ fun c' h => ?_
  · refine (spares_target r.subtable tag places).bind fun target _ => ?_
    have hregister : c.system.register r.id target =
        .ok { c.system with targets := c.system.targets.insert r.id target } := by
      simp [System.register, SortedMap.contains, hunused]
    rw [Circuit.register, hregister]
    exact .ok _
  · have hsplit : Free ([r.id] ++ ids) c := hfree
    have henlists := enlists_register h
    exact .shift henlists (hf c' (hsplit.right henlists))

/-- A fresh selector is turned on, if it has a column. -/
theorem enters_allocate (rows : Nat × Nat) {f : Nat → Circuit → Except Fault (Outcome α)}
    (hf : ∀ tag c', Enlists [] c c' → Enters ids c' (f tag c')) : Enters ids c
    (match allocate c with
      | (c, .error e) => .ok (c, .error e)
      | (c, .ok tag) => do
        let c ← c.enableRange tag rows.1 rows.2
        f tag c) := by
  split
  · exact .refuse _ _ _ _
  · rename_i c₁ tag h
    obtain ⟨rfl, rfl⟩ := allocate_eq_ok h
    have hrange := spares_enableRange c.table c.system.nextSelector rows.1 rows.2
    refine .bind (hrange.bind fun _ _ => .ok _) fun c₂ h₂ => ?_
    obtain ⟨t, -, h₂⟩ := bind_eq_ok.mp h₂
    obtain rfl := Except.ok.inj h₂
    have henlists : Enlists [] c ⟨{ c.system with nextSelector := c.system.nextSelector + 1 }, t⟩ := .of_eq rfl rfl
    exact .shift henlists (hf _ _ henlists)

theorem enters_shareSelector (ranges : Ranges) (rows : Nat × Nat) (c : Circuit) :
    Enters [] c (shareSelector ranges rows c) := by
  unfold shareSelector
  split
  · exact .done (.of_eq rfl rfl) _
  · exact enters_allocate rows fun tag c' _ => .done (.of_eq rfl rfl) _

/-! ### The subtables of a table -/

theorem enters_shareReferences (p : Placement) (places : List (List Nat))
    (hfree : Free (references.map Reference.id) c) :
    Enters (references.map Reference.id) c (shareReferences p places ranges c references) := by
  induction references generalizing c ranges with
  | nil => exact .done (.of_eq rfl rfl) _
  | cons r rest ih =>
    refine Enters.andThen [] _ hfree (fun _ => enters_shareSelector ..) (fun _ _ => rfl) fun c₁ o hfree => ?_
    exact enters_register hfree fun c₂ hfree => ih hfree

theorem enters_placeReferences (start : Nat) (hfree : Free (references.map Reference.id) c) :
    Enters (references.map Reference.id) c (placeReferences columns start c references) := by
  induction references generalizing c with
  | nil => exact .done (.of_eq rfl rfl) _
  | cons r rest ih =>
    have hnil : Free ([] ++ (r :: rest).map Reference.id) c := hfree
    rw [placeReferences]
    exact enters_allocate (start + r.subtable.first, start + r.subtable.last + 1) fun tag c₁ h =>
      enters_register (hnil.right h) fun c₂ hfree => ih hfree

/-! ### A run of tables -/

/-- The ids of the subtables of a table that are in use. -/
def Table.referenceIds (t : Table) (reserved : Reserved) : List Nat := (t.references reserved).map Reference.id

/-- The ids that the tables of a list of placements are registered under. -/
def placedIds (reserved : Reserved) (tables : List Table) (ps : List Placement) : List Nat :=
  (ps.map (·.strip.name)).flatMap fun name => ((tables.find? (·.name = name)).map (·.referenceIds reserved)).getD []

theorem placedIds_cons_of_none {p : Placement} (h : tables.find? (·.name = p.strip.name) = none) :
    placedIds reserved tables (p :: ps) = placedIds reserved tables ps := by
  simp [placedIds, h]

theorem placedIds_cons_of_some {p : Placement} {t : Table} (h : tables.find? (·.name = p.strip.name) = some t) :
    placedIds reserved tables (p :: ps) = t.referenceIds reserved ++ placedIds reserved tables ps := by
  simp [placedIds, h]

theorem enters_place (hfree : Free (placedIds reserved tables ps) c) :
    Enters (placedIds reserved tables ps) c (place reserved tables columns ranges c ps) := by
  induction ps generalizing c ranges with
  | nil => exact .done (.of_eq rfl rfl) _
  | cons p rest ih =>
    rw [place]
    cases hfind : tables.find? (·.name = p.strip.name) with
    | none =>
      rw [placedIds_cons_of_none hfind] at hfree ⊢
      exact ih hfree
    | some t =>
      rw [placedIds_cons_of_some hfind] at hfree ⊢
      have hnil : Free ([] ++ (t.referenceIds reserved ++ placedIds reserved tables rest)) c := hfree
      change Enters ([] ++ (t.referenceIds reserved ++ placedIds reserved tables rest)) c _
      refine .bind (spares_columns t) fun g _ => .bind (spares_foldGrid g _) fun grid _ =>
        .bind (spares_writeGrid c p.y _) fun c₁ h₁ => .shift (enlists_writeGrid h₁) ?_
      exact .andThen _ _ (hnil.right (enlists_writeGrid h₁)) (enters_shareReferences p _) (fun _ _ => rfl)
        fun c₂ ranges hfree => ih hfree

theorem enters_stack {start : Nat} (hfree : Free (ts.flatMap (·.referenceIds reserved)) c) :
    Enters (ts.flatMap (·.referenceIds reserved)) c (stack reserved columns start c ts) := by
  induction ts generalizing c start with
  | nil => exact .done (.of_eq rfl rfl) _
  | cons t rest ih =>
    have hnil : Free ([] ++ (t.referenceIds reserved ++ rest.flatMap (·.referenceIds reserved))) c := hfree
    change Enters ([] ++ (t.referenceIds reserved ++ rest.flatMap (·.referenceIds reserved))) c _
    rw [stack]
    split
    · exact .refuse _ _ _ _
    · refine .bind (spares_columns t) fun g _ => .bind (spares_writeGrid c start _) fun c₁ h₁ =>
        .shift (enlists_writeGrid h₁) ?_
      exact .andThen _ _ (hnil.right (enlists_writeGrid h₁)) (enters_placeReferences start) (fun _ _ => rfl)
        fun c₂ _ hfree => ih hfree

/-! ### Runs that end well -/

theorem free_nil (c : Circuit) : Free [] c := ⟨List.nodup_nil, nofun⟩

/-- Ids are free before others were registered. -/
theorem Free.append (h : Free ids c) (he : Enlists ids c c') (h' : Free ids' c') : Free (ids ++ ids') c := by
  refine ⟨List.nodup_append'.mpr ⟨h.nodup, h'.nodup, fun id hid hid' => ?_⟩, fun id hid => ?_⟩
  · have hsome := (he.keys id).mpr (Or.inr hid)
    rw [h'.unused id hid'] at hsome
    cases hsome
  · rcases List.mem_append.mp hid with hid | hid
    · exact h.unused id hid
    · refine Option.eq_none_iff_forall_ne_some.mpr fun target ht => ?_
      have hkept := he.kept id target ht
      rw [h'.unused id hid] at hkept
      cases hkept

/-- The subtables of a table were registered under ids that were free, since each was found free in its turn. -/
theorem free_of_shareReferences {p : Placement} {places : List (List Nat)} {ranges' : Ranges}
    (h : shareReferences p places ranges c references = .ok (c', .ok ranges')) :
    Free (references.map Reference.id) c := by
  induction references generalizing c ranges with
  | nil => exact free_nil c
  | cons r rest ih =>
    obtain ⟨c₁, c₂, tag, ranges₁, hshare, hregister, h⟩ := shareReferences_cons_eq_ok h
    obtain ⟨-, -, hunused, -⟩ := register_eq_ok hregister
    have hr : Free [r.id] c₁ := ⟨List.nodup_singleton _, fun id hid => List.mem_singleton.mp hid ▸ hunused⟩
    have hall : Free ([r.id] ++ rest.map Reference.id) c₁ := hr.append (enlists_register hregister) (ih h)
    exact (free_nil c).append ((enters_shareSelector ..).enlists c₁ _ hshare) hall

theorem free_of_place {ranges' : Ranges} (h : place reserved tables columns ranges c ps = .ok (c', .ok ranges')) :
    Free (placedIds reserved tables ps) c := by
  induction ps generalizing c ranges with
  | nil => exact free_nil c
  | cons p rest ih =>
    cases hfind : tables.find? (·.name = p.strip.name) with
    | none =>
      rw [placedIds_cons_of_none hfind]
      rw [place, hfind] at h
      exact ih h
    | some t =>
      obtain ⟨g, c₁, c₂, o₁, -, -, hwrite, hshare, ⟨_, -, he, -⟩ | ⟨ranges₁, rfl, h⟩⟩ := exists_of_place_cons hfind h
      · cases he
      · have hfree : Free (t.referenceIds reserved) c₁ := free_of_shareReferences hshare
        have hrest := hfree.append ((enters_shareReferences p _ hfree).enlists c₂ _ hshare) (ih h)
        have hall := (free_nil c).append (enlists_writeGrid hwrite) hrest
        rwa [placedIds_cons_of_some hfind]

/-- Placements of tables in use have names of their own if their ids differ. -/
theorem nodup_names_of_placedIds (hused : ∀ t ∈ tables, t.references reserved ≠ [])
    (hfound : ∀ p ∈ ps, ∃ t ∈ tables, t.name = p.strip.name) (h : (placedIds reserved tables ps).Nodup) :
    (ps.map (·.strip.name)).Nodup := by
  refine (List.nodup_flatMap.mp h).2.imp_of_mem fun {name} _ hname _ hdisjoint => ?_
  rintro rfl
  obtain ⟨p, hp, rfl⟩ := List.mem_map.mp hname
  obtain ⟨t, ht, htname⟩ := hfound p hp
  obtain ⟨t', hfind⟩ := Option.isSome_iff_exists.mp
    (List.find?_isSome (p := fun t => t.name = p.strip.name) |>.mpr ⟨t, ht, by simpa using htname⟩)
  obtain ⟨r, hr⟩ := List.exists_mem_of_ne_nil _ (hused t' (List.mem_of_find?_eq_some hfind))
  have hid : r.id ∈ ((tables.find? (·.name = p.strip.name)).map (·.referenceIds reserved)).getD [] := by
    rw [hfind]
    exact List.mem_map_of_mem hr
  exact hdisjoint hid hid

/-! ### Either packing -/

theorem Free.perm (h : Free ids c) (hperm : ids.Perm ids') : Free ids' c :=
  ⟨hperm.nodup_iff.mp h.nodup, fun id hid => h.unused id (hperm.mem_iff.mpr hid)⟩

theorem Enters.perm {x : Except Fault (Outcome α)} (h : Enters ids c x) (hperm : ids.Perm ids') : Enters ids' c x :=
  ⟨h.spares, fun c' a ha => ⟨fun id => by rw [(h.enlists c' a ha).keys, hperm.mem_iff], (h.enlists c' a ha).kept,
    (h.enlists c' a ha).reserved⟩⟩

/-- The answer of a step does not matter. -/
theorem Enters.map {x : Except Fault (Outcome α)} (h : Enters ids c x) (f : α → β) :
    Enters ids c (x >>= fun o => .ok (o.1, o.2.map f)) := by
  refine ⟨h.spares.bind fun _ _ => .ok _, fun c' b hb => ?_⟩
  obtain ⟨⟨c₁, o⟩, hx, hb⟩ := bind_eq_ok.mp hb
  cases o with
  | error e => cases hb
  | ok a =>
    cases hb
    exact h.enlists c₁ a hx

/-- The placements of a layout are those of the tables in use, so what is read off the tables of the placements is what
    is read off these. -/
theorem flatMap_of_layout (hnames : (tables.map Table.name).Nodup) {available budget : Nat} {l : Layout}
    (h : layout reserved tables available budget = .ok (.ok l)) (f : Table → List α) :
    ((l.placements.map (·.strip.name)).flatMap fun name =>
      (((referenced reserved tables).find? (·.name = name)).map f).getD []).Perm
        ((referenced reserved tables).flatMap f) := by
  refine ((names_of_layout h).flatMap_right _).trans (List.Perm.of_eq ?_)
  rw [List.flatMap_map]
  refine List.flatMap_congr fun t ht => ?_
  rw [find?_name (nodup_referenced hnames) ht rfl, Option.map_some, Option.getD_some]

/-- A packing registers the ids of the subtables in use, if these are free. -/
theorem enters_pack {packing : Packing} {usable : Nat} (hnames : (tables.map Table.name).Nodup)
    (hfree : Free ((referenced reserved tables).flatMap (·.referenceIds reserved)) c) :
    Enters ((referenced reserved tables).flatMap (·.referenceIds reserved)) c
      (packing.pack reserved tables c columns usable) := by
  cases packing with
  | vertical =>
    simp only [Packing.pack, packVertical]
    generalize referenced reserved tables = ts at hfree
    cases ts with
    | nil => exact .done (.of_eq rfl rfl) _
    | cons t ts => exact (enters_stack hfree).map _
  | horizontal budget =>
    refine .bind (spares_layout _ _ _ _) fun o hlayout => ?_
    cases o with
    | error e => exact .refuse _ _ _ _
    | ok l =>
      have hperm : (placedIds reserved (referenced reserved tables) l.placements).Perm _ :=
        flatMap_of_layout hnames hlayout (·.referenceIds reserved)
      exact ((enters_place (hfree.perm hperm.symm)).map _).perm hperm

end Lookup
end Plonkish
