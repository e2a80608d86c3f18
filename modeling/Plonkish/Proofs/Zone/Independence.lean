import Mathlib
import Plonkish.Proofs.Satisfaction
import Plonkish.Proofs.Zone.Reachability

/-! Zones do not constrain each other. Take two satisfying tables that differ in witnesses and public inputs
    only, and a union of zones, and read its cells from the one table and all others from the other one.
    The cells that a constraint reads at one row lie in one zone, as far as they have addresses, and the
    two tables agree on those that have none. So every constraint sees one of the two tables
    (`agrees_or`), and the new table satisfies the system as well (`splice_satisfies`). -/

namespace Plonkish
namespace Assignment
variable {a b t : Assignment}

/-! ### Tables of one shape -/

def SameShape (a b : Assignment) : Prop :=
  ∀ kind, (a.columns kind).map Array.size = (b.columns kind).map Array.size

/-- Two tables differ at most in the values of witnesses and public inputs. -/
structure SameFixed (a b : Assignment) : Prop where
  shape : SameShape a b
  constants : ∀ column row, a.cell .constant column row = b.cell .constant column row
  selectors : ∀ column row, a.cell .selector column row = b.cell .selector column row

theorem SameFixed.refl (a : Assignment) : SameFixed a a := ⟨fun _ => rfl, fun _ _ => rfl, fun _ _ => rfl⟩

theorem SameFixed.symm (h : SameFixed a b) : SameFixed b a :=
  ⟨fun kind => (h.shape kind).symm, fun c r => (h.constants c r).symm, fun c r => (h.selectors c r).symm⟩

theorem SameFixed.trans {c : Assignment} (h : SameFixed a b) (h' : SameFixed b c) : SameFixed a c :=
  ⟨fun kind => (h.shape kind).trans (h'.shape kind), fun i r => (h.constants i r).trans (h'.constants i r),
    fun i r => (h.selectors i r).trans (h'.selectors i r)⟩

theorem SameShape.width (h : SameShape a b) (kind : ColumnKind) : a.width kind = b.width kind := by
  simpa [Assignment.width] using congrArg Array.size (h kind)

theorem SameShape.sizes (h : SameShape a b) (kind : ColumnKind) :
    (a.columns kind).toList.map Array.size = (b.columns kind).toList.map Array.size := by
  simpa using congrArg Array.toList (h kind)

theorem SameShape.height (h : SameShape a b) : a.height = b.height := by
  unfold Assignment.height
  simp only [h.sizes]

theorem SameFixed.isOn (h : SameFixed a b) (selector row : Nat) : a.isOn selector row = b.isOn selector row := by
  unfold Assignment.isOn
  rw [h.selectors]

/-! ### Agreement -/

def Agrees (a b : Assignment) (v : Variable) : Prop :=
  ∀ row, v.position = .row row → a.cell v.kind v.index row = b.cell v.kind v.index row

theorem Agrees.symm {v : Variable} (h : a.Agrees b v) : b.Agrees a v := fun row hrow => (h row hrow).symm

theorem get?_congr (h : ∀ kind, a.width kind = b.width kind) {kind : ColumnKind} {column row : Nat}
    (hcell : a.cell kind column row = b.cell kind column row) : a.get? kind column row = b.get? kind column row := by
  rw [get?, get?, h, hcell]

theorem value_congr (h : ∀ kind, a.width kind = b.width kind) {v : Variable} (hv : a.Agrees b v) :
    a.value v = b.value v := by
  obtain ⟨k, i, p⟩ := v
  cases p with
  | offset d => rfl
  | row r => exact get?_congr h (hv r rfl)

theorem valueAt_congr (h : ∀ kind, a.width kind = b.width kind) {v : Variable} {row : Nat}
    (hv : ∀ w, v.cellAt? row = some w → a.Agrees b w) : a.valueAt v row = b.valueAt v row := by
  unfold valueAt
  cases hr : v.row? row with
  | none => rfl
  | some r => exact get?_congr h (hv ⟨v.kind, v.index, .row r⟩ (by rw [Variable.cellAt?, hr]; rfl) r rfl)

theorem evaluate_congr_of_reads (h : ∀ kind, a.width kind = b.width kind) {xs : List Expr} {row : Nat}
    (hr : ∀ w, Zone.Reads xs row w → a.Agrees b w) {x : Expr} (hx : x ∈ xs) :
    x.evaluate (a.valueAt · row) = x.evaluate (b.valueAt · row) :=
  Expr.evaluate_congr fun v hv => valueAt_congr h fun w hw => hr w ⟨x, hx, v, hv, hw⟩

theorem entries_congr (h : SameFixed a b) {target : Target}
    (hc : ∀ option ∈ target.options, ∀ v ∈ option, v.kind = .constant) : a.entries target = b.entries target := by
  refine entries_of_isOn (h.isOn target.tag) fun option ho v hv row _ =>
    valueAt_congr h.shape.width fun w hw r hwr => ?_
  obtain ⟨r', -, rfl⟩ := Option.map_eq_some_iff.mp hw
  rw [show (⟨v.kind, v.index, .row r'⟩ : Variable).kind = .constant from hc option ho v hv]
  exact h.constants _ _

theorem finds_congr (h : SameFixed a b) {target : Target}
    (hc : ∀ option ∈ target.options, ∀ v ∈ option, v.kind = .constant) {xs : List Expr} {row : Nat}
    (hr : ∀ w, Zone.Reads xs row w → a.Agrees b w) {input : List Expr} (hi : ∀ x ∈ input, x ∈ xs)
    (hb : b.Finds target row input) : a.Finds target row input := by
  obtain ⟨entries, x, hentries, hx, hmem⟩ := hb
  refine ⟨entries, x, (entries_congr h hc).trans hentries, ?_, hmem⟩
  rw [← hx]
  exact mapM_congr fun y hy => evaluate_congr_of_reads h.shape.width hr (hi y hy)

end Assignment

namespace Zone
open Assignment
variable {s : System} {a b t : Assignment} {sp : Space} {S : Nat → Bool}

/-! ### Spliced tables -/

/-- The table that takes the witnesses and public inputs with addresses in a set from `a`, and all other
    cells from `b`. -/
def splice (sp : Space) (S : Nat → Bool) (a b : Assignment) : Assignment :=
  let mixed kind := (b.columns kind).mapIdx fun column values => values.mapIdx fun row x =>
    if (sp.address? ⟨kind, column, .row row⟩).any S then a.cell kind column row else x
  { b with witnesses := mixed .witness, publicInputs := mixed .publicInput }

theorem sameShape_splice (sp : Space) (S : Nat → Bool) (a b : Assignment) : (splice sp S a b).SameShape b := by
  intro kind
  cases kind with
  | constant => rfl
  | selector => rfl
  | witness => ext i <;> simp [splice, columns]
  | publicInput => ext i <;> simp [splice, columns]

theorem sameFixed_splice (sp : Space) (S : Nat → Bool) (a b : Assignment) : (splice sp S a b).SameFixed b :=
  ⟨sameShape_splice sp S a b, fun _ _ => rfl, fun _ _ => rfl⟩

theorem cell_splice (h : a.SameShape b) {kind : ColumnKind} (hk : kind = .witness ∨ kind = .publicInput)
    (column row : Nat) : (splice sp S a b).cell kind column row =
      if (sp.address? ⟨kind, column, .row row⟩).any S then a.cell kind column row else b.cell kind column row := by
  have hcolumns : (splice sp S a b).columns kind = (b.columns kind).mapIdx fun column values =>
      values.mapIdx fun row x =>
        if (sp.address? ⟨kind, column, .row row⟩).any S then a.cell kind column row else x := by
    rcases hk with rfl | rfl <;> rfl
  have hsize := congrArg (·[column]?) (h kind)
  simp only [Array.getElem?_map] at hsize
  unfold cell
  rw [hcolumns, Array.getElem?_mapIdx]
  cases hb : (b.columns kind)[column]? with
  | none =>
    have ha : (a.columns kind)[column]? = none := by simpa [hb] using hsize
    simp [ha]
  | some bs =>
    obtain ⟨as, ha, hlen⟩ : ∃ as, (a.columns kind)[column]? = some as ∧ as.size = bs.size := by
      simpa [hb] using hsize
    -- Below the stored cells both tables read as zero.
    by_cases hr : row < bs.size
    · simp [ha, hr, cell]
    · have has : as[row]? = none := Array.getElem?_eq_none (by omega)
      have hbs : bs[row]? = none := Array.getElem?_eq_none (by omega)
      simp [ha, has, hbs]

/-! ### One side for every constraint -/

/-- The tables agree on witnesses and public inputs that have no address in a window that covers them. -/
theorem agrees_of_unaddressed {boundary : List Variable} {rows : Nat} (h : a.SameFixed b) (hrows : a.height ≤ rows)
    {w : Variable} (hw : (Space.ofTable a boundary 0 rows).address? w = none) : a.Agrees b w := by
  have hrows' : b.height ≤ rows := h.shape.height ▸ hrows
  obtain ⟨kind, column, position⟩ := w
  rintro row rfl
  dsimp only
  obtain ⟨slots, hsp⟩ := Space.ofTable_eq a boundary 0 rows
  have hgrid : (Space.ofTable a boundary 0 rows).gridAddress? kind column row = none :=
    (Option.or_eq_none_iff.mp hw).1
  rw [hsp] at hgrid
  cases kind with
  | constant => exact h.constants column row
  | selector => exact h.selectors column row
  | witness =>
    by_cases hc : column < a.width .witness
    · have hr : rows ≤ row := by
        by_contra hr
        simp [Space.gridAddress?, Space.inWindow, hc, Nat.lt_of_not_le hr] at hgrid
      rw [cell_of_height_le (Nat.le_trans hrows hr), cell_of_height_le (Nat.le_trans hrows' hr)]
    · have hc := Nat.le_of_not_lt hc
      rw [cell_of_width_le hc, cell_of_width_le (h.shape.width .witness ▸ hc)]
  | publicInput =>
    by_cases hc : column < a.width .publicInput
    · have hr : ∀ size ∈ (a.columns .publicInput).toList.map Array.size, size ≤ row := by
        intro size hsize
        by_contra hr
        have hmax : size ≤ a.publicRows := List.le_max?_getD_of_mem hsize
        simp only [Space.gridAddress?, ite_eq_right_iff, reduceCtorEq, imp_false, not_and] at hgrid
        exact hgrid hc (by omega)
      rw [cell_eq_zero hr, cell_eq_zero (h.shape.sizes .publicInput ▸ hr)]
    · have hc := Nat.le_of_not_lt hc
      rw [cell_of_width_le hc, cell_of_width_le (h.shape.width .publicInput ▸ hc)]

theorem splice_agrees (h : a.SameFixed b) (ht : b.SameFixed t) {w : Variable}
    (hin : (sp.address? w).any S = true → a.Agrees t w) (hout : (sp.address? w).any S = false → b.Agrees t w) :
    (splice sp S a b).Agrees t w := by
  obtain ⟨kind, column, position⟩ := w
  rintro row rfl
  have hcell : kind = .witness ∨ kind = .publicInput →
      (splice sp S a b).cell kind column row = t.cell kind column row := by
    intro hk
    rw [cell_splice h.shape hk]
    split
    · rename_i hS
      exact hin hS row rfl
    · rename_i hS
      exact hout (Bool.not_eq_true _ ▸ hS) row rfl
  cases kind with
  | constant => exact ht.constants column row
  | selector => exact ht.selectors column row
  | witness => exact hcell (Or.inl rfl)
  | publicInput => exact hcell (Or.inr rfl)

/-- Cells whose addresses are in the set together or not at all are all those of one table. -/
theorem agrees_or (h : a.SameFixed b) {G : Variable → Prop}
    (hnone : ∀ w, G w → sp.address? w = none → a.Agrees b w)
    (hall : ∀ v w x y, G v → G w → sp.address? v = some x → sp.address? w = some y → S x = S y) :
    (∀ w, G w → (splice sp S a b).Agrees a w) ∨ ∀ w, G w → (splice sp S a b).Agrees b w := by
  by_cases hin : ∃ v x, G v ∧ sp.address? v = some x ∧ S x
  · -- One cell is read from `a`, so every cell with an address is.
    obtain ⟨v, x, hv, hx, hS⟩ := hin
    refine Or.inl fun w hw => splice_agrees h h.symm (fun _ _ _ => rfl) fun hany => Agrees.symm ?_
    cases hy : sp.address? w with
    | none => exact hnone w hw hy
    | some y =>
      have hSy := hall v w x y hv hw hx hy
      rw [hy, Option.any_some, ← hSy, hS] at hany
      cases hany
  · refine Or.inr fun w hw => splice_agrees h (.refl b) (fun hany => ?_) fun _ _ _ => rfl
    cases hy : sp.address? w with
    | none => exact hnone w hw hy
    | some y =>
      rw [hy, Option.any_some] at hany
      exact absurd ⟨w, y, hw, hy, hany⟩ hin

end Zone

namespace Zones
open Zone Assignment
variable {s : System} {a b : Assignment} {inputs outputs : List Variable} {start rows : Nat} {z : Zones}
  {S : Nat → Bool}

/-! ### Independence -/

theorem inWindow_of_isOn (hmake : make s a inputs outputs 0 rows = .ok z) (hrows : a.height ≤ rows)
    {selector row : Nat} (hon : a.isOn selector row) : z.space.inWindow row := by
  obtain ⟨slots, hsp⟩ := Space.ofTable_eq a (inputs ++ outputs) 0 rows
  have hlt := lt_height_of_isOn hon
  rw [space_eq hmake, hsp]
  simpa [Space.inWindow] using Nat.lt_of_lt_of_le hlt hrows

theorem eq_of_same_ofLinks {sp : Space} {links : List (Link sp.size)}
    (h : ∀ l ∈ links, ∀ x ∈ l, ∀ y ∈ l, S x.val = S y.val) (x y : Nat)
    (hxy : (ofLinks sp links).same x y = .ok true) : S x = S y := by
  obtain ⟨hx, hy⟩ := lt_size_of_same hxy
  rw [same_eq_ok hx hy, Except.ok.injEq, decide_eq_true_eq] at hxy
  refine Setoid.eqvGen_le (s := .ker fun c : Fin sp.size => S c.val) (fun c d hcd => ?_) (find_merged_eq_iff.mp hxy)
  obtain ⟨l, hl, hc, hd⟩ := hcd
  exact h l hl c hc d hd

theorem mem_iff_of_edge (hmake : make s a inputs outputs start rows = .ok z)
    (hS : ∀ x y, z.same x y = .ok true → S x = S y) {v w : Variable} {x y : Nat}
    (hx : z.space.address? v = some x) (hy : z.space.address? w = some y) (he : Edge s a z.space v w) :
    S x = S y := by
  refine hS x y ?_
  rw [same_eq_ok (Space.address?_lt hx) (Space.address?_lt hy)]
  exact congrArg Except.ok (decide_eq_true (find_eq_of_edge hmake hx hy he))

/-- Cells that edges join wherever they have addresses are read from one table. -/
theorem agrees_of_joined (h : a.SameFixed b) (hrows : a.height ≤ rows)
    (hmake : make s a inputs outputs 0 rows = .ok z) (hS : ∀ x y, z.same x y = .ok true → S x = S y)
    {G : Variable → Prop} (hG : ∀ v w, G v → G w → (z.space.address? v).isSome → (z.space.address? w).isSome →
      v = w ∨ Edge s a z.space v w ∨ Edge s a z.space w v) :
    (∀ w, G w → (splice z.space S a b).Agrees a w) ∨ ∀ w, G w → (splice z.space S a b).Agrees b w := by
  refine agrees_or h (fun w _ hw => agrees_of_unaddressed h hrows (space_eq hmake ▸ hw)) ?_
  intro v w x y hv hw hx hy
  rcases hG v w hv hw (by simp [hx]) (by simp [hy]) with rfl | he | he
  · rw [Option.some.inj (hx.symm.trans hy)]
  · exact mem_iff_of_edge hmake hS hx hy he
  · exact (mem_iff_of_edge hmake hS hy hx he).symm

/-- Two satisfying tables, spliced along a union of zones, satisfy the system. -/
theorem splice_satisfies (h : a.SameFixed b) (hrows : a.height ≤ rows)
    (hconst : ∀ id target, s.targets.get? id = some target →
      ∀ option ∈ target.options, ∀ v ∈ option, v.kind = .constant)
    (ha : s.firstViolation a = .ok none) (hb : s.firstViolation b = .ok none)
    (hmake : make s a inputs outputs 0 rows = .ok z) (hS : ∀ x y, z.same x y = .ok true → S x = S y) :
    s.firstViolation (splice z.space S a b) = .ok none := by
  rw [System.firstViolation_eq_none_iff] at ha hb ⊢
  have hmb := sameFixed_splice z.space S a b
  have hma := hmb.trans h.symm
  constructor
  · -- All that a gate reads in a row is of one table, and that table satisfies it.
    intro g hg row hon x hx
    have hona : a.isOn g.selector row := hma.isOn _ _ ▸ hon
    have hrow := inWindow_of_isOn hmake hrows hona
    rcases agrees_of_joined h hrows hmake hS (G := Reads g.constraints row) fun v w hv hw hva hwa =>
      Or.inr (Or.inl (.gate hg hrow hona hv hw hva hwa)) with hG | hG
    · rw [evaluate_congr_of_reads hma.shape.width hG hx]
      exact ha.gates g hg row hona x hx
    · rw [evaluate_congr_of_reads hmb.shape.width hG hx]
      exact hb.gates g hg row (hmb.isOn _ _ ▸ hon) x hx
  · -- The ends of a copy are tied, if both have addresses.
    intro c hc
    have ends : c.first ∈ [c.first, c.second] ∧ c.second ∈ [c.first, c.second] := by simp
    rcases agrees_of_joined h hrows hmake hS (G := (· ∈ [c.first, c.second])) fun v w hv hw hva hwa => by
      simp only [List.mem_cons, List.not_mem_nil, or_false] at hv hw
      rcases hv with rfl | rfl <;> rcases hw with rfl | rfl
      · exact Or.inl rfl
      · exact Or.inr (Or.inl (.copy hc hva hwa))
      · exact Or.inr (Or.inr (.copy hc hwa hva))
      · exact Or.inl rfl with hG | hG
    · rw [value_congr hma.shape.width (hG _ ends.1), value_congr hma.shape.width (hG _ ends.2)]
      exact ha.copies c hc
    · rw [value_congr hmb.shape.width (hG _ ends.1), value_congr hmb.shape.width (hG _ ends.2)]
      exact hb.copies c hc
  · intro g hg row hon q hq
    have hona : a.isOn g.tag row := hma.isOn _ _ ▸ hon
    have hrow := inWindow_of_isOn hmake hrows hona
    -- All queries of a lookup gate are read together, and the tables are constants.
    have hin : ∀ x ∈ q.input, x ∈ g.queries.flatMap Query.input := fun x hx =>
      List.mem_flatMap.mpr ⟨q, hq, hx⟩
    rcases agrees_of_joined h hrows hmake hS (G := Reads (g.queries.flatMap Query.input) row)
      fun v w hv hw hva hwa => Or.inr (Or.inl (.lookup hg hrow hona hv hw hva hwa)) with hG | hG
    · obtain ⟨target, ht, hf⟩ := ha.lookups g hg row hona q hq
      exact ⟨target, ht, finds_congr hma (hconst _ _ ht) hG hin hf⟩
    · obtain ⟨target, ht, hf⟩ := hb.lookups g hg row (hmb.isOn _ _ ▸ hon) q hq
      exact ⟨target, ht, finds_congr hmb (hconst _ _ ht) hG hin hf⟩

/-- A gate ties two witnesses together on each of two rows; one row is taken from each of two tables. -/
theorem splice_satisfies_of_two_rows :
    let s : System := { System.empty with
      gates := [⟨0, [.sub (.var (.witness 0 0)) (.var (.witness 1 0))]⟩] }
    let a : Assignment := ⟨#[#[5, 6], #[5, 6]], #[], #[], #[#[1, 1]]⟩
    let b : Assignment := ⟨#[#[7, 8], #[7, 8]], #[], #[], #[#[1, 1]]⟩
    ∃ z S, make s a [] [] 0 2 = .ok z ∧ (∀ x y, z.same x y = .ok true → S x = S y) ∧
      splice z.space S a b = ⟨#[#[5, 8], #[5, 8]], #[], #[], #[#[1, 1]]⟩ ∧
        s.firstViolation (splice z.space S a b) = .ok none := by
  intro s a b
  let sp : Space := ⟨0, 2, 2, 0, 0, 0, []⟩
  let links : List (Link sp.size) :=
    [[⟨0, by decide⟩, ⟨1, by decide⟩], [⟨2, by decide⟩, ⟨3, by decide⟩]]
  have hlinks : Zone.links s a sp = .ok links := by cbv
  have hmake : make s a [] [] 0 2 = .ok (ofLinks sp links) := by
    show (Zone.links s a sp >>= fun ls => .ok (ofLinks sp ls)) = _
    rw [hlinks]
    rfl
  have hfixed : a.SameFixed b := ⟨fun kind => by cases kind <;> simp [columns, a, b], fun _ _ => rfl, fun _ _ => rfl⟩
  have hsplit : ∀ l ∈ links, ∀ x ∈ l, ∀ y ∈ l, decide (x.val < 2) = decide (y.val < 2) := by decide
  have hS := eq_of_same_ofLinks (S := fun x => decide (x < 2)) hsplit
  exact ⟨_, _, hmake, hS, by decide, splice_satisfies hfixed (by decide)
    (fun _ _ h => by cases h) (by rfl) (by rfl) hmake hS⟩

end Zones
end Plonkish
