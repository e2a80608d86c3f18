import Mathlib
import Plonkish.Proofs.Expr.Leaves
import Plonkish.Proofs.Partition
import Plonkish.Proofs.Steps
import Plonkish.Proofs.Zone.Address
import Plonkish.Zone.Basic

/-! Zones are reachability. An edge joins two cells with addresses that one constraint reads at one active
    row of the window, or that one copy ties together. The links of a space hold the addresses of its edges
    and no others (`tied_of_edge`, `chain_of_tied`), and merging every link with its first cell leaves the
    chains of links as classes (`find_merged_eq_iff`). So two addresses lie in one zone exactly when a chain
    of edges joins their cells (`same_iff_chain`). -/

namespace Plonkish

/-- The cell that a variable stands for at a row; none above the first row. -/
def Variable.cellAt? (v : Variable) (row : Nat) : Option Variable :=
  (v.row? row).map fun r => ⟨v.kind, v.index, .row r⟩

theorem Variable.resolve_eq_ok {v : Variable} {row : Nat} {o : Option Variable} (h : v.resolve row = .ok o) :
    o = v.cellAt? row := by
  obtain ⟨k, i, p⟩ := v
  cases p with
  | row r => exact (Except.ok.inj h).symm
  | offset d =>
    unfold resolve at h
    unfold cellAt?
    dsimp only at h
    split at h
    · rename_i r hr
      obtain ⟨w, hw, rfl⟩ := map_eq_ok.mp h
      rw [hr]
      obtain ⟨-, rfl⟩ := at?_eq_ok_iff.mp hw
      rfl
    · rename_i hr
      rw [hr]
      exact (Except.ok.inj h).symm

namespace Zone

/-! ### Edges -/

def Reads (xs : List Expr) (row : Nat) (cell : Variable) : Prop :=
  ∃ x ∈ xs, ∃ v ∈ x.leaves, v.cellAt? row = some cell

/-- Two cells with addresses that one constraint ties together. -/
inductive Edge (s : System) (t : Assignment) (sp : Space) (v w : Variable) : Prop where
  | gate {g : Gate} {row : Nat} (hg : g ∈ s.gates) (hrow : sp.inWindow row) (hon : t.isOn g.selector row)
    (hv : Reads g.constraints row v) (hw : Reads g.constraints row w)
    (hva : (sp.address? v).isSome) (hwa : (sp.address? w).isSome)
  | lookup {g : LookupGate} {row : Nat} (hg : g ∈ s.lookupGates) (hrow : sp.inWindow row)
    (hon : t.isOn g.tag row)
    (hv : Reads (g.queries.flatMap Query.input) row v) (hw : Reads (g.queries.flatMap Query.input) row w)
    (hva : (sp.address? v).isSome) (hwa : (sp.address? w).isSome)
  | copy (hc : ⟨v, w⟩ ∈ s.copies) (hva : (sp.address? v).isSome) (hwa : (sp.address? w).isSome)

variable {s : System} {t : Assignment} {sp : Space}

theorem Edge.addressed {v w : Variable} (h : Edge s t sp v w) :
    (sp.address? v).isSome ∧ (sp.address? w).isSome := by
  cases h with
  | gate _ _ _ _ _ hva hwa => exact ⟨hva, hwa⟩
  | lookup _ _ _ _ _ hva hwa => exact ⟨hva, hwa⟩
  | copy _ hva hwa => exact ⟨hva, hwa⟩

theorem addressed_eq_of_chain {v w : Variable} (h : Relation.EqvGen (Edge s t sp) v w) :
    (sp.address? v).isSome = (sp.address? w).isSome := by
  refine Setoid.eqvGen_le (s := .ker fun v => (sp.address? v).isSome) (fun v w h => ?_) h
  exact h.addressed.1.trans h.addressed.2.symm

/-! ### Links -/

def Tied {n : Nat} (links : List (Link n)) (a b : Fin n) : Prop := ∃ l ∈ links, a ∈ l ∧ b ∈ l

theorem mem_cellsAt {vs : List Variable} {row : Nat} {l : Link sp.size} (h : cellsAt sp vs row = .ok l)
    {a : Fin sp.size} : a ∈ l ↔ ∃ v ∈ vs, ∃ w, v.cellAt? row = some w ∧ sp.address? w = some a.val := by
  obtain ⟨resolved, hr, hl⟩ := bind_eq_ok.mp h
  obtain rfl := Except.ok.inj hl
  simp only [List.mem_filterMap, mem_of_mapM_eq_ok hr, Option.bind_eq_some_iff, Space.cell?_eq_some_iff]
  constructor
  · rintro ⟨o, ⟨v, hv, ho⟩, w, hw, ha⟩
    exact ⟨v, hv, w, (Variable.resolve_eq_ok ho).symm.trans hw, ha⟩
  · rintro ⟨v, hv, w, hw, ha⟩
    obtain ⟨o, ho⟩ := exists_mapM_eq_ok.mp ⟨resolved, hr⟩ v hv
    exact ⟨o, ⟨v, hv, ho⟩, w, (Variable.resolve_eq_ok ho).trans hw, ha⟩

/-- The link of a row has the addresses of the cells that are read there. -/
theorem mem_cellsAt_collect {xs : List Expr} {row : Nat} {l : Link sp.size}
    (h : cellsAt sp (Expr.collect xs).toList row = .ok l) {a : Fin sp.size} :
    a ∈ l ↔ ∃ w, Reads xs row w ∧ sp.address? w = some a.val := by
  rw [mem_cellsAt h]
  constructor
  · rintro ⟨v, hv, w, hw, ha⟩
    obtain ⟨x, hx, hv⟩ := Expr.mem_collect.mp hv
    exact ⟨w, ⟨x, hx, v, hv, hw⟩, ha⟩
  · rintro ⟨w, ⟨x, hx, v, hv, hw⟩, ha⟩
    exact ⟨v, Expr.mem_collect.mpr ⟨x, hx, hv⟩, w, hw, ha⟩

theorem tied_activeLinks {selector : Nat} {xs : List Expr} {links : List (Link sp.size)}
    (h : activeLinks sp t selector (Expr.collect xs) = .ok links) {a b : Fin sp.size} :
    Tied links a b ↔ ∃ row, sp.inWindow row ∧ t.isOn selector row ∧
      (∃ v, Reads xs row v ∧ sp.address? v = some a.val) ∧ ∃ w, Reads xs row w ∧ sp.address? w = some b.val := by
  have hwindow : ∀ row, row ∈ t.activeRows selector sp.start sp.rows ↔ sp.inWindow row ∧ t.isOn selector row := by
    intro row
    simp [Assignment.mem_activeRows, Space.inWindow, and_assoc]
  constructor
  · rintro ⟨l, hl, ha, hb⟩
    obtain ⟨row, hrow, hl⟩ := (mem_of_mapM_eq_ok h).mp hl
    obtain ⟨hin, hon⟩ := (hwindow row).mp hrow
    exact ⟨row, hin, hon, (mem_cellsAt_collect hl).mp ha, (mem_cellsAt_collect hl).mp hb⟩
  · rintro ⟨row, hin, hon, ha, hb⟩
    have hrow := (hwindow row).mpr ⟨hin, hon⟩
    obtain ⟨l, hl⟩ := exists_mapM_eq_ok.mp ⟨links, h⟩ row hrow
    exact ⟨l, (mem_of_mapM_eq_ok h).mpr ⟨row, hrow, hl⟩, (mem_cellsAt_collect hl).mpr ha,
      (mem_cellsAt_collect hl).mpr hb⟩

/-- A copy gives a link only if both ends have addresses. -/
theorem copyLink?_eq_some_iff {c : Copy} {l : Link sp.size} : copyLink? sp c = some l ↔
    ∃ x y, sp.cell? c.first = some x ∧ sp.cell? c.second = some y ∧ l = [x, y] := by
  unfold copyLink?
  split
  · rename_i x y hx hy
    simp [hx, hy, eq_comm]
  · rename_i hno
    constructor
    · intro h
      cases h
    · rintro ⟨x, y, hx, hy, -⟩
      exact absurd hy (hno x y hx)

theorem tied_copyLinks {copies : List Copy} {a b : Fin sp.size} :
    Tied (copies.filterMap (copyLink? sp)) a b ↔
      ∃ c ∈ copies, ∃ x y, sp.cell? c.first = some x ∧ sp.cell? c.second = some y ∧
        a ∈ [x, y] ∧ b ∈ [x, y] := by
  unfold Tied
  simp only [List.mem_filterMap, copyLink?_eq_some_iff]
  constructor
  · rintro ⟨_, ⟨c, hc, x, y, hx, hy, rfl⟩, ha, hb⟩
    exact ⟨c, hc, x, y, hx, hy, ha, hb⟩
  · rintro ⟨c, hc, x, y, hx, hy, ha, hb⟩
    exact ⟨_, ⟨c, hc, x, y, hx, hy, rfl⟩, ha, hb⟩

theorem tied_append {n : Nat} {ls ms : List (Link n)} {a b : Fin n} :
    Tied (ls ++ ms) a b ↔ Tied ls a b ∨ Tied ms a b := by
  simp only [Tied, List.mem_append, or_and_right, exists_or]

theorem tied_flatten {n : Nat} {ls : List (List (Link n))} {a b : Fin n} :
    Tied ls.flatten a b ↔ ∃ links ∈ ls, Tied links a b := by
  constructor
  · rintro ⟨l, hl, hab⟩
    obtain ⟨links, hlinks, hl⟩ := List.mem_flatten.mp hl
    exact ⟨links, hlinks, l, hl, hab⟩
  · rintro ⟨links, hlinks, l, hl, hab⟩
    exact ⟨l, List.mem_flatten.mpr ⟨links, hlinks, hl⟩, hab⟩

theorem tied_links {ls : List (Link sp.size)} (h : links s t sp = .ok ls) {a b : Fin sp.size} :
    Tied ls a b ↔
      (∃ g ∈ s.gates, ∃ l, activeLinks sp t g.selector g.support = .ok l ∧ Tied l a b) ∨
      (∃ g ∈ s.lookupGates, ∃ l, activeLinks sp t g.tag g.support = .ok l ∧ Tied l a b) ∨
      Tied (s.copies.filterMap (copyLink? sp)) a b := by
  obtain ⟨gates, hgates, h⟩ := bind_eq_ok.mp h
  obtain ⟨lookups, hlookups, h⟩ := bind_eq_ok.mp h
  obtain rfl := Except.ok.inj h
  rw [tied_append, tied_append, tied_flatten, tied_flatten, or_assoc]
  simp only [mem_of_mapM_eq_ok hgates, mem_of_mapM_eq_ok hlookups]
  grind

theorem tied_of_edge {ls : List (Link sp.size)} (h : links s t sp = .ok ls) {v w : Variable}
    {a b : Fin sp.size} (hv : sp.address? v = some a.val) (hw : sp.address? w = some b.val)
    (he : Edge s t sp v w) : Tied ls a b := by
  rw [tied_links h]
  obtain ⟨gates, hgates, h⟩ := bind_eq_ok.mp h
  obtain ⟨lookups, hlookups, -⟩ := bind_eq_ok.mp h
  cases he with
  | gate hg hrow hon hrv hrw =>
    obtain ⟨l, hl⟩ := exists_mapM_eq_ok.mp ⟨gates, hgates⟩ _ hg
    exact Or.inl ⟨_, hg, l, hl, (tied_activeLinks hl).mpr ⟨_, hrow, hon, ⟨v, hrv, hv⟩, w, hrw, hw⟩⟩
  | lookup hg hrow hon hrv hrw =>
    obtain ⟨l, hl⟩ := exists_mapM_eq_ok.mp ⟨lookups, hlookups⟩ _ hg
    exact Or.inr (Or.inl ⟨_, hg, l, hl, (tied_activeLinks hl).mpr ⟨_, hrow, hon, ⟨v, hrv, hv⟩, w, hrw, hw⟩⟩)
  | copy hc =>
    refine Or.inr (Or.inr (tied_copyLinks.mpr ⟨_, hc, a, b, ?_, ?_, List.mem_cons_self, ?_⟩))
    · exact Space.cell?_eq_some_iff.mpr hv
    · exact Space.cell?_eq_some_iff.mpr hw
    · exact List.mem_cons_of_mem _ List.mem_cons_self

theorem chain_of_tied {ls : List (Link sp.size)} (h : links s t sp = .ok ls) {a b : Fin sp.size}
    (hab : Tied ls a b) : ∃ v w, sp.address? v = some a.val ∧ sp.address? w = some b.val ∧
      Relation.EqvGen (Edge s t sp) v w := by
  rcases (tied_links h).mp hab with ⟨g, hg, l, hl, hab⟩ | ⟨g, hg, l, hl, hab⟩ | hab
  · obtain ⟨row, hrow, hon, ⟨v, hrv, hv⟩, w, hrw, hw⟩ := (tied_activeLinks hl).mp hab
    exact ⟨v, w, hv, hw, .rel _ _ (.gate hg hrow hon hrv hrw (by simp [hv]) (by simp [hw]))⟩
  · obtain ⟨row, hrow, hon, ⟨v, hrv, hv⟩, w, hrw, hw⟩ := (tied_activeLinks hl).mp hab
    exact ⟨v, w, hv, hw, .rel _ _ (.lookup hg hrow hon hrv hrw (by simp [hv]) (by simp [hw]))⟩
  · obtain ⟨c, hc, x, y, hx, hy, ha, hb⟩ := tied_copyLinks.mp hab
    rw [Space.cell?_eq_some_iff] at hx hy
    have he : Relation.EqvGen (Edge s t sp) c.first c.second := .rel _ _ (.copy hc (by simp [hx]) (by simp [hy]))
    simp only [List.mem_cons, List.not_mem_nil, or_false] at ha hb
    rcases ha with rfl | rfl <;> rcases hb with rfl | rfl
    · exact ⟨_, _, hx, hx, .refl _⟩
    · exact ⟨_, _, hx, hy, he⟩
    · exact ⟨_, _, hy, hx, he.symm⟩
    · exact ⟨_, _, hy, hy, .refl _⟩

/-! ### Merging -/

/-- The pairs that merging a link unites. -/
def star {n : Nat} : Link n → List (Fin n × Fin n)
  | [] => []
  | a :: rest => rest.map fun b => (a, b)

theorem merge_eq_unions {n : Nat} (p : Partition n) (l : Link n) : merge p l = p.unions (star l) := by
  cases l with
  | nil => rfl
  | cons a rest => rw [merge, Partition.unions, star, List.foldl_map]

theorem foldl_merge {n : Nat} (p : Partition n) (ls : List (Link n)) :
    ls.foldl merge p = p.unions (ls.flatMap star) := by
  rw [Partition.unions, List.foldl_flatMap]
  exact congrArg (fun f => ls.foldl f p) (funext₂ merge_eq_unions)

theorem chain_star {n : Nat} {l : Link n} {a b : Fin n} (ha : a ∈ l) (hb : b ∈ l) :
    Relation.EqvGen (fun x y => (x, y) ∈ star l) a b := by
  cases l with
  | nil => cases ha
  | cons c rest =>
    have hc : ∀ {x}, x ∈ c :: rest → Relation.EqvGen (fun x y => (x, y) ∈ star (c :: rest)) c x := by
      intro x hx
      rcases List.mem_cons.mp hx with rfl | hx
      · exact .refl _
      · exact .rel _ _ (List.mem_map_of_mem hx)
    exact (hc ha).symm.trans _ _ _ (hc hb)

theorem tied_of_mem_star {n : Nat} {l : Link n} {a b : Fin n} (h : (a, b) ∈ star l) : a ∈ l ∧ b ∈ l := by
  cases l with
  | nil => cases h
  | cons c rest =>
    obtain ⟨x, hx, he⟩ := List.mem_map.mp h
    obtain ⟨rfl, rfl⟩ := Prod.mk.inj he
    exact ⟨List.mem_cons_self, List.mem_cons_of_mem _ hx⟩

/-- Merging links leaves the chains of addresses tied together as classes. -/
theorem find_merged_eq_iff {n : Nat} {ls : List (Link n)} {a b : Fin n} :
    (ls.foldl merge (Partition.discrete n)).find a = (ls.foldl merge (Partition.discrete n)).find b ↔
      Relation.EqvGen (Tied ls) a b := by
  rw [foldl_merge, Partition.find_unions_discrete_eq_iff]
  constructor
  · refine fun h => h.mono fun x y hxy => ?_
    obtain ⟨l, hl, hxy⟩ := List.mem_flatMap.mp hxy
    exact ⟨l, hl, tied_of_mem_star hxy⟩
  · refine fun h => Setoid.eqvGen_le (s := Relation.EqvGen.setoid _) (fun x y hxy => ?_) h
    obtain ⟨l, hl, hx, hy⟩ := hxy
    exact (chain_star hx hy).mono fun x y hxy => List.mem_flatMap.mpr ⟨l, hl, hxy⟩

/-! ### Zones -/

/-- Addresses that a chain of links joins are equal, or those of cells that a chain of edges joins. An address
    that no cell has is in no link. -/
theorem chain_of_chain_tied {ls : List (Link sp.size)} (h : links s t sp = .ok ls) {a b : Fin sp.size}
    (hab : Relation.EqvGen (Tied ls) a b) : a = b ∨ ∃ v w, sp.address? v = some a.val ∧ sp.address? w = some b.val ∧
      Relation.EqvGen (Edge s t sp) v w := by
  induction hab with
  | rel a b hab => exact Or.inr (chain_of_tied h hab)
  | refl a => exact Or.inl rfl
  | symm a b _ ih =>
    rcases ih with rfl | ⟨v, w, hv, hw, hvw⟩
    · exact Or.inl rfl
    · exact Or.inr ⟨w, v, hw, hv, hvw.symm⟩
  | trans a b c _ _ ihab ihbc =>
    rcases ihab with rfl | ⟨v, w, hv, hw, hvw⟩
    · exact ihbc
    · rcases ihbc with rfl | ⟨w', u, hw', hu, hwu⟩
      · exact Or.inr ⟨v, w, hv, hw, hvw⟩
      · obtain rfl := Space.address?_inj hw hw'
        exact Or.inr ⟨v, u, hv, hu, hvw.trans _ _ _ hwu⟩

theorem chain_tied_iff {ls : List (Link sp.size)} (h : links s t sp = .ok ls) {v w : Variable}
    {a b : Fin sp.size} (hv : sp.address? v = some a.val) (hw : sp.address? w = some b.val) :
    Relation.EqvGen (Tied ls) a b ↔ Relation.EqvGen (Edge s t sp) v w := by
  constructor
  · intro hab
    rcases chain_of_chain_tied h hab with rfl | ⟨v', w', hv', hw', hvw⟩
    · rw [Space.address?_inj hv hw]
      exact .refl w
    · rw [Space.address?_inj hv hv', Space.address?_inj hw hw']
      exact hvw
  · intro hvw
    induction hvw generalizing a b with
    | rel v w hvw => exact .rel _ _ (tied_of_edge h hv hw hvw)
    | refl v =>
      rw [Fin.ext (Option.some.inj (hv.symm.trans hw))]
      exact .refl b
    | symm v w _ ih => exact (ih hw hv).symm
    | trans v u w hvu _ ihvu ihuw =>
      -- The cell in the middle has an address, since both ends of every edge have one.
      obtain ⟨c, hc⟩ := Option.isSome_iff_exists.mp ((addressed_eq_of_chain hvu).symm.trans (by simp [hv]))
      have hu : sp.address? u = some (Fin.mk c (Space.address?_lt hc)).val := hc
      exact (ihvu hv hu).trans _ _ _ (ihuw hu hw)

end Zone

namespace Zones
open Zone
variable {s : System} {t : Assignment} {inputs outputs : List Variable} {start rows : Nat} {z : Zones}

theorem make_eq_ok (h : make s t inputs outputs start rows = .ok z) :
    ∃ ls, Zone.links s t (Space.ofTable t (inputs ++ outputs) start rows) = .ok ls ∧
      z = ofLinks (Space.ofTable t (inputs ++ outputs) start rows) ls := by
  obtain ⟨ls, hls, hz⟩ := bind_eq_ok.mp h
  exact ⟨ls, hls, (Except.ok.inj hz).symm⟩

theorem space_eq (h : make s t inputs outputs start rows = .ok z) :
    z.space = Space.ofTable t (inputs ++ outputs) start rows := by
  obtain ⟨ls, -, rfl⟩ := make_eq_ok h
  rfl

theorem same_eq_ok {a b : Nat} (ha : a < z.size) (hb : b < z.size) :
    z.same a b = .ok (z.classes.find ⟨a, ha⟩ = z.classes.find ⟨b, hb⟩) := by
  have helem : ∀ {x} (hx : x < z.space.size), Partition.element? z.space.size x = .ok ⟨x, hx⟩ :=
    fun hx => dif_pos hx
  rw [same, helem ha, helem hb]
  rfl

theorem lt_size_of_same {a b : Nat} {r : Bool} (h : z.same a b = .ok r) : a < z.size ∧ b < z.size := by
  obtain ⟨a', ha, h⟩ := bind_eq_ok.mp h
  obtain ⟨b', hb, -⟩ := bind_eq_ok.mp h
  have hlt : ∀ {x y}, Partition.element? z.space.size x = .ok y → x < z.space.size := by
    intro x y hx
    unfold Partition.element? at hx
    split at hx
    · assumption
    · cases hx
  exact ⟨hlt ha, hlt hb⟩

/-- The ends of an edge lie in one zone, whatever the boundary. -/
theorem find_eq_of_edge (h : make s t inputs outputs start rows = .ok z) {v w : Variable}
    {a b : Fin z.space.size} (hv : z.space.address? v = some a.val) (hw : z.space.address? w = some b.val)
    (he : Edge s t z.space v w) : z.classes.find a = z.classes.find b := by
  obtain ⟨ls, hls, rfl⟩ := make_eq_ok h
  exact find_merged_eq_iff.mpr (.rel _ _ (tied_of_edge hls hv hw he))

/-- Two addresses lie in one zone exactly when a chain of edges joins the cells that have them. -/
theorem same_iff_chain (h : make s t inputs outputs start rows = .ok z)
    (habs : ∀ v ∈ inputs ++ outputs, v.relative = false) {a b : Nat} (ha : a < z.size) (hb : b < z.size) :
    ∃ v w, (∀ u, z.space.address? u = some a ↔ u = v) ∧ (∀ u, z.space.address? u = some b ↔ u = w) ∧
      ∃ r, z.same a b = .ok r ∧ (r = true ↔ Relation.EqvGen (Edge s t z.space) v w) := by
  obtain ⟨ls, hls, rfl⟩ := make_eq_ok h
  have htight : (Space.ofTable t (inputs ++ outputs) start rows).Tight := Space.tight_ofTable habs
  obtain ⟨v, hv⟩ := Space.exists_address? htight ha
  obtain ⟨w, hw⟩ := Space.exists_address? htight hb
  have only : ∀ {u x}, (Space.ofTable t (inputs ++ outputs) start rows).address? u = some x →
      ∀ u', (Space.ofTable t (inputs ++ outputs) start rows).address? u' = some x ↔ u' = u := by
    intro u x hu u'
    exact ⟨fun hu' => Space.address?_inj hu' hu, fun he => he ▸ hu⟩
  refine ⟨v, w, only hv, only hw, _, same_eq_ok ha hb, ?_⟩
  rw [decide_eq_true_eq]
  exact find_merged_eq_iff.trans (chain_tied_iff (a := ⟨a, ha⟩) (b := ⟨b, hb⟩) hls hv hw)

/-- A gate ties two witnesses together, and a copy the second of them to a public input. -/
theorem same_of_gate_and_copy :
    let s : System := { System.empty with
      gates := [⟨0, [.sub (.var (.witness 0 0)) (.var (.witness 1 0))]⟩]
      copies := [⟨⟨.witness, 1, .row 0⟩, ⟨.publicInput, 0, .row 0⟩⟩] }
    let t : Assignment := ⟨#[#[], #[]], #[], #[#[7]], #[#[1]]⟩
    let x : Variable := ⟨.witness, 0, .row 0⟩
    let y : Variable := ⟨.publicInput, 0, .row 0⟩
    ∃ z, make s t [x] [y] 0 2 = .ok z ∧ Relation.EqvGen (Edge s t z.space) x y ∧ z.same 0 4 = .ok true := by
  intro s t x y
  let sp : Space := ⟨0, 2, 2, 0, 1, 1, []⟩
  let links : List (Link sp.size) :=
    [[⟨0, by decide⟩, ⟨1, by decide⟩], [⟨1, by decide⟩, ⟨4, by decide⟩]]
  have hlinks : Zone.links s t sp = .ok links := by cbv
  have hmake : make s t [x] [y] 0 2 = .ok (ofLinks sp links) := by
    show (Zone.links s t sp >>= fun ls => .ok (ofLinks sp ls)) = _
    rw [hlinks]
    rfl
  let middle : Variable := ⟨.witness, 1, .row 0⟩
  have hgate : Edge s t sp x middle := by
    have hreads : Reads [.sub (.var (.witness 0 0)) (.var (.witness 1 0))] 0 x :=
      ⟨_, List.mem_cons_self, .witness 0 0, by decide, by decide⟩
    have hreads' : Reads [.sub (.var (.witness 0 0)) (.var (.witness 1 0))] 0 middle :=
      ⟨_, List.mem_cons_self, .witness 1 0, by decide, by decide⟩
    exact .gate List.mem_cons_self (by decide) (by decide) hreads hreads' (by decide) (by decide)
  have hcopy : Edge s t sp middle y := .copy List.mem_cons_self (by decide) (by decide)
  have hchain : Relation.EqvGen (Edge s t sp) x y := (Relation.EqvGen.rel _ _ hgate).trans _ _ _ (.rel _ _ hcopy)
  obtain ⟨v, w, hv, hw, r, hr, hiff⟩ := same_iff_chain hmake (by decide) (a := 0) (b := 4) (by decide) (by decide)
  obtain rfl := (hv x).mp (by decide)
  obtain rfl := (hw y).mp (by decide)
  exact ⟨_, hmake, hchain, by rw [hr, hiff.mpr hchain]⟩

end Zones
end Plonkish
