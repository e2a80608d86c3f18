import Plonkish.Sorted.Map

/-! Finite sets listed in ascending order without repetitions: maps whose values say nothing. A set
    built from a list has exactly the members of the list (`SortedSet.mem_ofList`). -/

namespace Plonkish

/-- Strictly ascending elements. -/
abbrev SortedSet (κ : Type) [LT κ] := SortedMap κ Unit

namespace SortedSet
variable {κ : Type} [LT κ]

def toList (s : SortedSet κ) : List κ := s.keys

theorem pairwise_toList (s : SortedSet κ) : s.toList.Pairwise (· < ·) :=
  List.pairwise_map.2 s.ascending

variable [LE κ] [DecidableLT κ] [Std.IsLinearOrder κ] [Std.LawfulOrderLT κ]

/-- Adds an element, if it is new. -/
def add (s : SortedSet κ) (k : κ) : SortedSet κ := s.insert k ()

def ofList (l : List κ) : SortedSet κ := l.foldl add SortedMap.empty

variable [DecidableEq κ]

omit [LE κ] [DecidableLT κ] [Std.IsLinearOrder κ] [Std.LawfulOrderLT κ] [DecidableEq κ] in
theorem mem_toList {s : SortedSet κ} {x : κ} : x ∈ s.toList ↔ (x, ()) ∈ s.entries := by
  constructor
  · intro h
    obtain ⟨⟨y, _⟩, he, rfl⟩ := List.mem_map.1 h
    exact he
  · exact fun h => List.mem_map.2 ⟨(x, ()), h, rfl⟩

omit [DecidableLT κ] in
theorem ext_toList {s t : SortedSet κ} (h : ∀ x, x ∈ s.toList ↔ x ∈ t.toList) : s = t := by
  refine SortedMap.ext_get? fun x => Option.ext fun _ => ?_
  rw [SortedMap.get?_eq_some_iff, SortedMap.get?_eq_some_iff, ← mem_toList, ← mem_toList, h]

@[simp] theorem mem_toList_add {s : SortedSet κ} {k x : κ} :
    x ∈ (s.add k).toList ↔ x = k ∨ x ∈ s.toList := by
  rw [mem_toList, mem_toList, ← SortedMap.get?_eq_some_iff, ← SortedMap.get?_eq_some_iff, add,
    SortedMap.get?_insert]
  by_cases h : x = k <;> simp [h]

theorem mem_toList_foldl_add {l : List κ} {s : SortedSet κ} {x : κ} :
    x ∈ (l.foldl add s).toList ↔ x ∈ l ∨ x ∈ s.toList := by
  induction l generalizing s with
  | nil => simp
  | cons k l ih =>
    rw [List.foldl_cons, ih, mem_toList_add, List.mem_cons]
    grind

theorem mem_ofList {l : List κ} {x : κ} : x ∈ (ofList l).toList ↔ x ∈ l := by
  rw [ofList, mem_toList_foldl_add]
  simp [toList, SortedMap.keys, SortedMap.empty]

end SortedSet
end Plonkish
