import Plonkish.Scalar
import Plonkish.Variable.Row

/-! The table that a circuit is assigned into: columns of four kinds, whose number is fixed and whose
    lengths grow as cells are written. A cell that was never written reads as zero. `cell` is the view of a
    table: what writes do to it is `cell_set` and `cell_enableRange`. -/

namespace Plonkish

/-- The columns of an assignment, by kind. -/
structure Assignment where
  witnesses : Array (Array Scalar)
  constants : Array (Array Scalar)
  publicInputs : Array (Array Scalar)
  selectors : Array (Array Scalar)
  deriving DecidableEq

namespace Assignment

/-- A table with empty columns. -/
def blank (witnesses constants publicInputs selectors : Nat) : Assignment where
  witnesses := .replicate witnesses #[]
  constants := .replicate constants #[]
  publicInputs := .replicate publicInputs #[]
  selectors := .replicate selectors #[]

def columns (t : Assignment) : ColumnKind → Array (Array Scalar)
  | .witness => t.witnesses
  | .constant => t.constants
  | .publicInput => t.publicInputs
  | .selector => t.selectors

def modify (t : Assignment) (kind : ColumnKind) (f : Array (Array Scalar) → Array (Array Scalar)) :
    Assignment :=
  match kind with
  | .witness => { t with witnesses := f t.witnesses }
  | .constant => { t with constants := f t.constants }
  | .publicInput => { t with publicInputs := f t.publicInputs }
  | .selector => { t with selectors := f t.selectors }

def width (t : Assignment) (kind : ColumnKind) : Nat := (t.columns kind).size

/-- The value of a cell; zero where nothing was written. -/
def cell (t : Assignment) (kind : ColumnKind) (column row : Nat) : Scalar :=
  (t.columns kind)[column]?.bind (·[row]?) |>.getD 0

/-- The number of rows of the longest column. -/
def height (t : Assignment) : Nat :=
  (ColumnKind.all.flatMap fun kind => (t.columns kind).toList.map Array.size).max?.getD 0

/-- The number of rows of the longest public input column. -/
def publicRows (t : Assignment) : Nat := ((t.columns .publicInput).toList.map Array.size).max?.getD 0

theorem columns_modify (t : Assignment) (k l : ColumnKind)
    (f : Array (Array Scalar) → Array (Array Scalar)) :
    (t.modify k f).columns l = if l = k then f (t.columns l) else t.columns l := by
  cases k <;> cases l <;> rfl

/-! ### Reading -/

/-- All stored values of a column that exists. -/
def column? (t : Assignment) (kind : ColumnKind) (column : Nat) : Except Fault (Array Scalar) :=
  match (t.columns kind)[column]? with
  | some values => .ok values
  | none => .error (.missingColumn kind column (t.width kind))

/-- The value of a cell of a column that exists. -/
def get? (t : Assignment) (kind : ColumnKind) (column row : Nat) : Except Fault Scalar :=
  if column < t.width kind then .ok (t.cell kind column row)
  else .error (.missingColumn kind column (t.width kind))

/-- The values of `count` rows of a column from a row on. Without rows the column need not exist. -/
def readDown (t : Assignment) (kind : ColumnKind) (column row count : Nat) :
    Except Fault (List Scalar) :=
  if count = 0 then .ok []
  else if column < t.width kind then .ok ((List.range' row count).map (t.cell kind column))
  else .error (.missingColumn kind column (t.width kind))

def value (t : Assignment) (v : Variable) : Except Fault Scalar := do
  let row ← v.absoluteRow
  t.get? v.kind v.index row

/-- The value of a variable for a gate active at `row`; above the first row everything is zero. -/
def valueAt (t : Assignment) (v : Variable) (row : Nat) : Except Fault Scalar :=
  match v.row? row with
  | some r => t.get? v.kind v.index r
  | none => .ok 0

/-- Whether a selector has a column and is not zero at `row`. -/
def isOn (t : Assignment) (selector row : Nat) : Bool := t.cell .selector selector row ≠ 0

/-- Whether a selector is not zero at `row`; its column has to exist. -/
def enabled? (t : Assignment) (selector row : Nat) : Except Fault Bool :=
  (t.get? .selector selector row).map fun x => x ≠ 0

/-- The number of stored cells of a selector; below them it is off. -/
def marks (t : Assignment) (selector : Nat) : Nat :=
  ((t.columns .selector)[selector]?.map Array.size).getD 0

/-- Those of `count` rows from `first` on at which a selector is on. Rows below the stored cells are not
    looked at. -/
def activeRows (t : Assignment) (selector first count : Nat) : List Nat :=
  (List.range' first (min count (t.marks selector - first))).filter (t.isOn selector)

theorem lt_marks_of_isOn {t : Assignment} {selector row : Nat} (h : t.isOn selector row) :
    row < t.marks selector := by
  have hne : t.cell .selector selector row ≠ 0 := of_decide_eq_true h
  unfold cell at hne
  unfold marks
  cases hc : (t.columns .selector)[selector]? with
  | none => simp [hc] at hne
  | some values =>
    rw [hc] at hne
    by_cases hr : row < values.size
    · exact hr
    · simp [Array.getElem?_eq_none (Nat.le_of_not_lt hr)] at hne

/-- The rows left out are off. -/
theorem activeRows_eq (t : Assignment) (selector first count : Nat) :
    t.activeRows selector first count = (List.range' first count).filter (t.isOn selector) := by
  have hsplit := List.range'_append_1 (s := first) (m := min count (t.marks selector - first))
    (n := count - min count (t.marks selector - first))
  rw [Nat.add_sub_of_le (Nat.min_le_left ..)] at hsplit
  have hnil : (List.range' (first + min count (t.marks selector - first))
      (count - min count (t.marks selector - first))).filter (t.isOn selector) = [] := by
    rw [List.filter_eq_nil_iff]
    intro row hrow hon
    have hlt := lt_marks_of_isOn hon
    have hle := List.mem_range'_1.1 hrow
    omega
  rw [← hsplit, List.filter_append, hnil, List.append_nil]
  rfl

theorem mem_activeRows {t : Assignment} {selector first count row : Nat} :
    row ∈ t.activeRows selector first count ↔
      first ≤ row ∧ row < first + count ∧ t.isOn selector row := by
  rw [activeRows_eq, List.mem_filter, List.mem_range'_1, and_assoc]

/-! ### Writing -/

/-- Writes one value of a column, after filling it with zeros up to that row. -/
def writeRow (values : Array Scalar) (row : Nat) (x : Scalar) : Array Scalar :=
  (values ++ Array.replicate (row + 1 - values.size) 0).setIfInBounds row x

/-- Writes one value on `count` rows of a column from a row on. -/
def writeRows (values : Array Scalar) (row : Nat) (x : Scalar) : Nat → Array Scalar
  | 0 => values
  | count + 1 => writeRows (writeRow values row x) (row + 1) x count

/-- Writes a cell of a column that exists. -/
def set (t : Assignment) (kind : ColumnKind) (column row : Nat) (x : Scalar) :
    Except Fault Assignment :=
  if column < t.width kind then
    .ok (t.modify kind fun cs => cs.modify column fun values => writeRow values row x)
  else .error (.missingColumn kind column (t.width kind))

def write (t : Assignment) (v : Variable) (x : Scalar) : Except Fault Assignment := do
  let row ← v.absoluteRow
  t.set v.kind v.index row x

def writeDown (t : Assignment) (kind : ColumnKind) (column row : Nat) :
    List Scalar → Except Fault Assignment
  | [] => .ok t
  | x :: xs => do
    let t ← t.set kind column row x
    t.writeDown kind column (row + 1) xs

def enable (t : Assignment) (selector row : Nat) : Except Fault Assignment :=
  t.set .selector selector row 1

/-- Turns a selector on from one row to before another. Without such rows its column need not exist. -/
def enableRange (t : Assignment) (selector first stop : Nat) : Except Fault Assignment :=
  if stop ≤ first then .ok t
  else if selector < t.width .selector then
    .ok (t.modify .selector fun cs =>
      cs.modify selector fun values => writeRows values first 1 (stop - first))
  else .error (.missingColumn .selector selector (t.width .selector))

def replace (t : Assignment) (kind : ColumnKind) (column : Nat) (values : Array Scalar) :
    Except Fault Assignment :=
  if column < t.width kind then .ok (t.modify kind fun cs => cs.setIfInBounds column values)
  else .error (.missingTarget kind column)

/-! ### The view of a write -/

theorem getElem?_writeRow (values : Array Scalar) (row r : Nat) (x : Scalar) :
    (writeRow values row x)[r]?.getD 0 = if r = row then x else values[r]?.getD 0 := by
  unfold writeRow
  rw [Array.getElem?_setIfInBounds]
  by_cases h : row = r
  · subst h
    have hlt : row < (values ++ Array.replicate (row + 1 - values.size) (0 : Scalar)).size := by
      rw [Array.size_append, Array.size_replicate]
      omega
    simp only [hlt, if_true, Option.getD_some]
  · have h' : ¬ r = row := fun he => h he.symm
    simp only [h, h', if_false]
    rw [Array.getElem?_append]
    split
    · rfl
    · rename_i hr
      rw [Array.getElem?_replicate, Array.getElem?_eq_none (Nat.le_of_not_lt hr)]
      split <;> rfl

theorem getElem?_writeRows (values : Array Scalar) (row : Nat) (x : Scalar) (count r : Nat) :
    (writeRows values row x count)[r]?.getD 0 =
      if row ≤ r ∧ r < row + count then x else values[r]?.getD 0 := by
  induction count generalizing values row with
  | zero =>
    have h : ¬ (row ≤ r ∧ r < row + 0) := by omega
    rw [if_neg h]
    rfl
  | succ count ih =>
    rw [writeRows, ih, getElem?_writeRow]
    by_cases hr : r = row
    · subst hr
      simp
    · by_cases hin : row + 1 ≤ r ∧ r < row + 1 + count
      · rw [if_pos hin, if_pos (by omega)]
      · rw [if_neg hin, if_neg hr, if_neg (by omega)]

/-- The cells of a table whose column at one place was changed. -/
theorem cell_modify {t : Assignment} {kind : ColumnKind} {column : Nat}
    {f : Array Scalar → Array Scalar} (hc : column < t.width kind) (k : ColumnKind) (c r : Nat) :
    (t.modify kind fun cs => cs.modify column f).cell k c r =
      if k = kind ∧ c = column then (f (t.columns kind)[column])[r]?.getD 0 else t.cell k c r := by
  unfold cell
  rw [columns_modify]
  by_cases hk : k = kind
  · subst hk
    rw [if_pos rfl, Array.getElem?_modify]
    by_cases hcol : column = c
    · subst hcol
      have hsome : (t.columns k)[column]? = some (t.columns k)[column] :=
        Array.getElem?_eq_getElem hc
      rw [if_pos rfl, hsome]
      simp
    · have hcol' : ¬ c = column := fun he => hcol he.symm
      simp [hcol, hcol']
  · simp [hk]

theorem getD_column {t : Assignment} {kind : ColumnKind} {column : Nat} (hc : column < t.width kind)
    (r : Nat) : (t.columns kind)[column][r]?.getD 0 = t.cell kind column r := by
  have hsome : (t.columns kind)[column]? = some (t.columns kind)[column] :=
    Array.getElem?_eq_getElem hc
  simp [cell, hsome]

/-- A write changes its own cell and no other. -/
theorem cell_set {t t' : Assignment} {kind : ColumnKind} {column row : Nat} {x : Scalar}
    (h : t.set kind column row x = .ok t') (k : ColumnKind) (c r : Nat) :
    t'.cell k c r = if k = kind ∧ c = column ∧ r = row then x else t.cell k c r := by
  unfold set at h
  split at h
  · rename_i hc
    obtain rfl := Except.ok.inj h
    rw [cell_modify hc]
    by_cases hkc : k = kind ∧ c = column
    · obtain ⟨rfl, rfl⟩ := hkc
      simp only [getElem?_writeRow, getD_column, true_and, if_true]
    · rw [if_neg hkc, if_neg fun h => hkc ⟨h.1, h.2.1⟩]
  · cases h

/-- A range turned on holds one at its own cells; no other cell changes. -/
theorem cell_enableRange {t t' : Assignment} {selector first stop : Nat}
    (h : t.enableRange selector first stop = .ok t') (k : ColumnKind) (c r : Nat) :
    t'.cell k c r =
      if k = .selector ∧ c = selector ∧ first ≤ r ∧ r < stop then 1 else t.cell k c r := by
  unfold enableRange at h
  split at h
  · obtain rfl := Except.ok.inj h
    rw [if_neg (by omega)]
  · split at h
    · rename_i hlt hc
      obtain rfl := Except.ok.inj h
      rw [cell_modify hc]
      have hstop : first + (stop - first) = stop := by omega
      by_cases hkc : k = .selector ∧ c = selector
      · obtain ⟨rfl, rfl⟩ := hkc
        simp only [getElem?_writeRows, getD_column, hstop, true_and, if_true]
      · rw [if_neg hkc, if_neg fun h => hkc ⟨h.1, h.2.1⟩]
    · cases h

/-- A column that is replaced holds its new values, and zero below them; no other column changes. -/
theorem cell_replace {t t' : Assignment} {kind : ColumnKind} {column : Nat} {values : Array Scalar}
    (h : t.replace kind column values = .ok t') (k : ColumnKind) (c r : Nat) :
    t'.cell k c r = if k = kind ∧ c = column then values[r]?.getD 0 else t.cell k c r := by
  unfold replace at h
  split at h
  · rename_i hc
    have hc' : column < (t.columns kind).size := hc
    obtain rfl := Except.ok.inj h
    unfold cell
    rw [columns_modify]
    by_cases hk : k = kind
    · subst hk
      rw [if_pos rfl, Array.getElem?_setIfInBounds]
      by_cases hcol : column = c
      · subst hcol
        simp [hc']
      · simp [hcol, eq_comm (a := c)]
    · simp [hk]
  · cases h

/-- A write keeps the number of columns of every kind. -/
theorem width_set {t t' : Assignment} {kind : ColumnKind} {column row : Nat} {x : Scalar}
    (h : t.set kind column row x = .ok t') (k : ColumnKind) : t'.width k = t.width k := by
  unfold set at h
  split at h
  · obtain rfl := Except.ok.inj h
    unfold width
    rw [columns_modify]
    split
    · rw [Array.size_modify]
    · rfl
  · cases h

theorem width_replace {t t' : Assignment} {kind : ColumnKind} {column : Nat} {values : Array Scalar}
    (h : t.replace kind column values = .ok t') (k : ColumnKind) : t'.width k = t.width k := by
  unfold replace at h
  split at h
  · obtain rfl := Except.ok.inj h
    unfold width
    rw [columns_modify]
    split
    · rw [Array.size_setIfInBounds]
    · rfl
  · cases h

end Assignment
end Plonkish
