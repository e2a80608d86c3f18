import Plonkish.Proofs.Steps
import Plonkish.Satisfaction

/-! What it means that an assignment satisfies a system, said over all rows: every constraint of a gate
    vanishes wherever the gate is on, the ends of every copy agree, and every query finds its tuple among
    those of its table. The search for the first violation finds none exactly then
    (`firstViolation_eq_none_iff`). -/

namespace Plonkish
namespace Assignment
variable {t : Assignment}

/-! ### Rows -/

theorem cell_eq_zero {kind : ColumnKind} {column row : Nat}
    (h : ∀ size ∈ (t.columns kind).toList.map Array.size, size ≤ row) : t.cell kind column row = 0 := by
  unfold cell
  cases hc : (t.columns kind)[column]? with
  | none => rfl
  | some values =>
    have hmem := List.mem_map_of_mem (f := Array.size) (Array.mem_toList_iff.mpr (Array.mem_of_getElem? hc))
    have hnone : values[row]? = none := Array.getElem?_eq_none (h _ hmem)
    simp [hnone]

theorem cell_of_height_le {kind : ColumnKind} {column row : Nat} (h : t.height ≤ row) :
    t.cell kind column row = 0 := by
  refine cell_eq_zero fun size hsize => Nat.le_trans ?_ h
  exact List.le_max?_getD_of_mem (List.mem_flatMap.mpr ⟨kind, ColumnKind.mem_all _, hsize⟩)

theorem cell_of_width_le {kind : ColumnKind} {column row : Nat} (h : t.width kind ≤ column) :
    t.cell kind column row = 0 := by
  have hnone : (t.columns kind)[column]? = none := Array.getElem?_eq_none h
  simp [cell, hnone]

theorem marks_le_height (t : Assignment) (selector : Nat) : t.marks selector ≤ t.height := by
  unfold marks
  cases hc : (t.columns .selector)[selector]? with
  | none => exact Nat.zero_le _
  | some values =>
    refine List.le_max?_getD_of_mem (List.mem_flatMap.mpr ⟨.selector, ColumnKind.mem_all _, ?_⟩)
    exact List.mem_map_of_mem (Array.mem_toList_iff.mpr (Array.mem_of_getElem? hc))

theorem lt_height_of_isOn {selector row : Nat} (h : t.isOn selector row) : row < t.height :=
  Nat.lt_of_lt_of_le (lt_marks_of_isOn h) (t.marks_le_height selector)

theorem mem_activeRows_height {selector row : Nat} :
    row ∈ t.activeRows selector 0 t.height ↔ t.isOn selector row := by
  rw [mem_activeRows]
  exact ⟨fun h => h.2.2, fun h => ⟨Nat.zero_le _, by have := lt_height_of_isOn h; omega, h⟩⟩

/-- The rows at which a selector is on are listed alike in tables of any height. -/
theorem activeRows_congr {t' : Assignment} {selector : Nat}
    (h : ∀ row, t'.isOn selector row = t.isOn selector row) :
    t'.activeRows selector 0 t'.height = t.activeRows selector 0 t.height := by
  have hsorted : ∀ t : Assignment, (t.activeRows selector 0 t.height).Pairwise (· < ·) := fun t => by
    rw [activeRows_eq]
    exact (List.pairwise_lt_range' 1).filter _
  have hperm : (t'.activeRows selector 0 t'.height).Perm (t.activeRows selector 0 t.height) :=
    (List.perm_ext_iff_of_nodup ((hsorted t').imp Nat.ne_of_lt) ((hsorted t).imp Nat.ne_of_lt)).mpr fun row => by
      rw [mem_activeRows_height, mem_activeRows_height, h]
  exact hperm.eq_of_pairwise (fun _ _ _ _ h h' => absurd h' (Nat.lt_asymm h)) (hsorted t') (hsorted t)

/-! ### Tables -/

/-- The tuples of a table are its options, each read wherever the table is marked. -/
theorem mem_entries {target : Target} {entries : List (List Scalar)} (h : t.entries target = .ok entries)
    {x : List Scalar} : x ∈ entries ↔
      ∃ row, t.isOn target.tag row ∧ ∃ option ∈ target.options, option.mapM (t.valueAt · row) = .ok x := by
  rw [mem_of_mapM_eq_ok h]
  simp only [List.mem_flatMap, List.mem_map, mem_activeRows_height]
  constructor
  · rintro ⟨_, ⟨row, hrow, option, hoption, rfl⟩, hx⟩
    exact ⟨row, hrow, option, hoption, hx⟩
  · rintro ⟨row, hrow, option, hoption, hx⟩
    exact ⟨_, ⟨row, hrow, option, hoption, rfl⟩, hx⟩

theorem exists_entries {target : Target} (h : ∀ row, t.isOn target.tag row → ∀ option ∈ target.options,
    ∃ x, option.mapM (t.valueAt · row) = .ok x) : ∃ entries, t.entries target = .ok entries := by
  refine exists_mapM_eq_ok.mpr fun e he => ?_
  obtain ⟨row, hrow, he⟩ := List.mem_flatMap.mp he
  obtain ⟨option, hoption, rfl⟩ := List.mem_map.mp he
  exact h row (mem_activeRows_height.mp hrow) option hoption

/-- What a table lists depends on where it is marked and on the cells that it names there. -/
theorem entries_of_isOn {t' : Assignment} {target : Target} (hon : ∀ row, t'.isOn target.tag row = t.isOn target.tag row)
    (hread : ∀ option ∈ target.options, ∀ v ∈ option, ∀ row, t.isOn target.tag row →
      t'.valueAt v row = t.valueAt v row) : t'.entries target = t.entries target := by
  unfold entries
  rw [activeRows_congr hon]
  refine mapM_congr fun e he => mapM_congr fun v hv => ?_
  obtain ⟨row, hrow, he⟩ := List.mem_flatMap.mp he
  obtain ⟨option, hoption, rfl⟩ := List.mem_map.mp he
  exact hread option hoption v hv row (mem_activeRows_height.mp hrow)

/-- The tuple of a list of expressions at a row is one of the tuples of a table. -/
def Finds (t : Assignment) (target : Target) (row : Nat) (input : List Expr) : Prop :=
  ∃ entries x, t.entries target = .ok entries ∧ input.mapM (·.evaluate (t.valueAt · row)) = .ok x ∧
    x ∈ entries

/-! ### Cells as seen from a row -/

section Seen
variable {v : Variable}

/-- The value that is seen for a variable from a row; zero above the first row. -/
def seen (t : Assignment) (row : Nat) (v : Variable) : Scalar :=
  ((v.row? row).map (t.cell v.kind v.index)).getD 0

/-- The column of a variable exists. -/
abbrev Has (t : Assignment) (v : Variable) : Prop := v.index < t.width v.kind

theorem valueAt_eq_seen (h : t.Has v) (row : Nat) : t.valueAt v row = .ok (t.seen row v) := by
  unfold valueAt seen
  cases v.row? row with
  | none => rfl
  | some r => exact if_pos h

theorem value_eq_seen (h : t.Has v) (habs : v.relative = false) (row : Nat) :
    t.value v = .ok (t.seen row v) := by
  rw [← valueAt_eq_seen h]
  obtain ⟨k, i, d | r⟩ := v
  · cases habs
  · rfl

theorem seen_congr {t' : Assignment} {row : Nat}
    (h : ∀ r, v.row? row = some r → t'.cell v.kind v.index r = t.cell v.kind v.index r) : t'.seen row v = t.seen row v := by
  unfold seen
  cases hr : v.row? row with
  | none => rfl
  | some r => exact h r hr

/-- A tuple is one of those of a table: an option, read at a row where the table is marked. -/
def Lists (t : Assignment) (target : Target) (x : List Scalar) : Prop :=
  ∃ row, t.isOn target.tag row ∧ ∃ option ∈ target.options, x = option.map (t.seen row)

/-- A table of constants has the tuples that it had, if its rows are still marked. -/
theorem Lists.mono {t' : Assignment} {target : Target} {x : List Scalar} (h : t.Lists target x)
    (hconst : ∀ option ∈ target.options, ∀ v ∈ option, v.kind = .constant)
    (hcell : ∀ i r, t'.cell .constant i r = t.cell .constant i r)
    (hon : ∀ row, t.isOn target.tag row → t'.isOn target.tag row) : t'.Lists target x := by
  obtain ⟨row, hrow, option, hoption, rfl⟩ := h
  refine ⟨row, hon row hrow, option, hoption, List.map_congr_left fun v hv => ?_⟩
  rw [← seen_congr fun r _ => ?_]
  rw [hconst option hoption v hv]
  exact hcell _ r

theorem mapM_valueAt {option : List Variable} (h : ∀ v ∈ option, t.Has v) (row : Nat) :
    option.mapM (t.valueAt · row) = .ok (option.map (t.seen row)) := by
  rw [mapM_eq_ok, List.map_map]
  exact List.map_congr_left fun v hv => valueAt_eq_seen (h v hv) row

/-- What can be read is what is seen. -/
theorem eq_seen_of_valueAt {row : Nat} {x : Scalar} (h : t.valueAt v row = .ok x) : x = t.seen row v := by
  unfold valueAt at h
  unfold seen
  cases hr : v.row? row with
  | none =>
    rw [hr] at h
    exact (Except.ok.inj h).symm
  | some r =>
    rw [hr] at h
    dsimp only at h
    unfold get? at h
    split at h
    · exact (Except.ok.inj h).symm
    · cases h

/-- A tuple that is found is one of the table. -/
theorem Finds.lists {target : Target} {row : Nat} {input : List Expr} (h : t.Finds target row input) :
    ∃ x, input.mapM (·.evaluate (t.valueAt · row)) = .ok x ∧ t.Lists target x := by
  obtain ⟨entries, x, hentries, hinput, hmem⟩ := h
  obtain ⟨r, hon, option, hoption, hx⟩ := (mem_entries hentries).mp hmem
  refine ⟨x, hinput, r, hon, option, hoption, ?_⟩
  have hlength : x.length = option.length := by simpa using (congrArg List.length (mapM_eq_ok.mp hx)).symm
  refine List.ext_getElem (by simpa using hlength) fun i hi hi' => ?_
  have hread : (option.map (t.valueAt · r))[i]? = (x.map Except.ok)[i]? := by rw [mapM_eq_ok.mp hx]
  rw [List.length_map] at hi'
  rw [List.getElem?_map, List.getElem?_map, List.getElem?_eq_getElem hi', List.getElem?_eq_getElem hi] at hread
  rw [List.getElem_map]
  exact eq_seen_of_valueAt (Option.some.inj hread)

/-- The entries of a table are its tuples, if the columns of its options exist. -/
theorem entries_eq_ok {target : Target} (h : ∀ option ∈ target.options, ∀ v ∈ option, t.Has v) :
    ∃ entries, t.entries target = .ok entries ∧ ∀ x, x ∈ entries ↔ t.Lists target x := by
  obtain ⟨entries, hentries⟩ : ∃ entries, t.entries target = .ok entries :=
    exists_entries fun row _ option hoption => ⟨_, mapM_valueAt (h option hoption) row⟩
  refine ⟨entries, hentries, fun x => ?_⟩
  rw [mem_entries hentries]
  refine exists_congr fun row => and_congr_right fun _ => exists_congr fun option =>
    and_congr_right fun hoption => ?_
  rw [mapM_valueAt (h option hoption), Except.ok.injEq, eq_comm]

end Seen

end Assignment

namespace System
open Assignment

/-- An assignment satisfies a system. -/
structure Holds (s : System) (t : Assignment) : Prop where
  gates : ∀ g ∈ s.gates, ∀ row, t.isOn g.selector row →
    ∀ x ∈ g.constraints, x.evaluate (t.valueAt · row) = .ok 0
  copies : ∀ c ∈ s.copies, ∃ x, t.value c.first = .ok x ∧ t.value c.second = .ok x
  lookups : ∀ g ∈ s.lookupGates, ∀ row, t.isOn g.tag row →
    ∀ q ∈ g.queries, ∃ target, s.targets.get? q.table = some target ∧ t.Finds target row q.input

/-! ### The search for a violation -/

theorem forall_mem_zipIdx {α : Type} {l : List α} {P : α → Prop} :
    (∀ e ∈ l.zipIdx, P e.1) ↔ ∀ x ∈ l, P x := by
  rw [← List.forall_mem_map (f := Prod.fst), List.zipIdx_map_fst]

theorem gateViolation_eq_none_iff {t : Assignment} {g : Gate} {row : Nat} :
    t.gateViolation g row = .ok none ↔ ∀ x ∈ g.constraints, x.evaluate (t.valueAt · row) = .ok 0 := by
  rw [gateViolation, findSomeM?_eq_ok_none]
  refine Iff.trans (forall₂_congr fun e _ => ?_) forall_mem_zipIdx
  rw [bind_eq_ok]
  constructor
  · rintro ⟨x, hx, h⟩
    split at h
    · rename_i h0
      rw [hx, h0]
    · cases h
  · exact fun h => ⟨0, h, rfl⟩

theorem copyViolation_eq_none_iff {t : Assignment} {c : Copy} :
    t.copyViolation c = .ok none ↔ ∃ x, t.value c.first = .ok x ∧ t.value c.second = .ok x := by
  rw [copyViolation, bind_eq_ok]
  refine exists_congr fun x => and_congr_right fun _ => ?_
  rw [bind_eq_ok]
  constructor
  · rintro ⟨y, hy, h⟩
    split at h
    · rename_i hxy
      rw [hy, hxy]
    · cases h
  · exact fun h => ⟨x, h, by rw [if_pos rfl]⟩

theorem lookupViolation_eq_none_iff {s : System} {t : Assignment} {g : LookupGate} {row : Nat} :
    t.lookupViolation (t.answers s) g row = .ok none ↔ ∀ q ∈ g.queries,
      ∃ target, s.targets.get? q.table = some target ∧ t.Finds target row q.input := by
  rw [lookupViolation, findSomeM?_eq_ok_none]
  refine Iff.trans (forall₂_congr fun e _ => ?_) forall_mem_zipIdx
  dsimp only
  rw [lookup_answers]
  cases s.targets.get? e.1.table with
  | none => simp
  | some target =>
    simp only [Option.map_some, Option.some.injEq, exists_eq_left']
    rw [bind_eq_ok]
    constructor
    · rintro ⟨known, hknown, h⟩
      obtain ⟨x, hx, h⟩ := bind_eq_ok.mp h
      obtain ⟨entries, hentries, -⟩ := map_eq_ok.mp hknown
      split at h
      · rename_i hmem
        exact ⟨entries, x, hentries, hx, (mem_tuples hknown hentries x).mp hmem⟩
      · cases h
    · rintro ⟨entries, x, hentries, hx, hmem⟩
      have hknown : t.tuples target = .ok (.ofList entries) := map_eq_ok.mpr ⟨entries, hentries, rfl⟩
      refine ⟨_, hknown, bind_eq_ok.mpr ⟨x, hx, ?_⟩⟩
      rw [if_pos ((mem_tuples hknown hentries x).mpr hmem)]

/-- The search finds nothing exactly when every gate, copy and lookup holds. -/
theorem firstViolation_eq_none_iff {s : System} {t : Assignment} :
    s.firstViolation t = .ok none ↔ s.Holds t := by
  have hgates : s.firstGateViolation t = .ok none ↔ ∀ g ∈ s.gates, ∀ row, t.isOn g.selector row →
      ∀ x ∈ g.constraints, x.evaluate (t.valueAt · row) = .ok 0 := by
    simp only [firstGateViolation, findSomeM?_eq_ok_none, mem_activeRows_height, gateViolation_eq_none_iff]
  have hlookups : s.firstLookupViolation t = .ok none ↔ ∀ g ∈ s.lookupGates, ∀ row, t.isOn g.tag row →
      ∀ q ∈ g.queries, ∃ target, s.targets.get? q.table = some target ∧ t.Finds target row q.input := by
    simp only [firstLookupViolation, findSomeM?_eq_ok_none, mem_activeRows_height, lookupViolation_eq_none_iff]
  have hcopies : s.copies.findSomeM? t.copyViolation = .ok none ↔
      ∀ c ∈ s.copies, ∃ x, t.value c.first = .ok x ∧ t.value c.second = .ok x := by
    simp only [findSomeM?_eq_ok_none, copyViolation_eq_none_iff]
  -- Each of the three searches is asked only if those before it found nothing.
  rw [firstViolation, bind_eq_ok]
  constructor
  · rintro ⟨v, hv, h⟩
    cases v with
    | some v => cases h
    | none =>
      obtain ⟨w, hw, h⟩ := bind_eq_ok.mp h
      cases w with
      | some w => cases h
      | none => exact ⟨hgates.mp hv, hcopies.mp hw, hlookups.mp h⟩
  · intro h
    exact ⟨none, hgates.mpr h.gates, bind_eq_ok.mpr ⟨none, hcopies.mpr h.copies, hlookups.mpr h.lookups⟩⟩

end System
end Plonkish
