/-! Finite maps listed in ascending order of their keys. An entry is inserted in place, and a later
    value under the same key replaces an earlier one. Two maps with the same look-ups are equal
    (`SortedMap.ext_get?`), so the order of insertions leaves no trace. -/

namespace Plonkish

/-- Entries with strictly ascending keys. -/
structure SortedMap (κ α : Type) [LT κ] where
  entries : List (κ × α)
  ascending : entries.Pairwise fun a b => a.1 < b.1

namespace SortedMap
variable {κ α : Type} [LT κ]

def empty : SortedMap κ α := ⟨[], .nil⟩

def keys (m : SortedMap κ α) : List κ := m.entries.map Prod.fst

def values (m : SortedMap κ α) : List α := m.entries.map Prod.snd

/-- The value of the first entry with a key. -/
def lookup [DecidableEq κ] (k : κ) : List (κ × α) → Option α
  | [] => none
  | e :: rest => if k = e.1 then some e.2 else lookup k rest

def get? [DecidableEq κ] (m : SortedMap κ α) (k : κ) : Option α := lookup k m.entries

def contains [DecidableEq κ] (m : SortedMap κ α) (k : κ) : Bool := (m.get? k).isSome

/-! ### Insertion -/

/-- Puts an entry in its place, over one with the same key. -/
def insertEntry [DecidableLT κ] (k : κ) (a : α) : List (κ × α) → List (κ × α)
  | [] => [(k, a)]
  | e :: rest =>
    if k < e.1 then (k, a) :: e :: rest
    else if e.1 < k then e :: insertEntry k a rest
    else (k, a) :: rest

variable [LE κ] [DecidableLT κ] [Std.IsLinearOrder κ] [Std.LawfulOrderLT κ]

omit [LE κ] [Std.IsLinearOrder κ] [Std.LawfulOrderLT κ] in
theorem mem_of_mem_insertEntry {k : κ} {a : α} {e : κ × α} :
    ∀ {l : List (κ × α)}, e ∈ insertEntry k a l → e = (k, a) ∨ e ∈ l
  | [], h => by simpa [insertEntry] using h
  | f :: rest, h => by
    unfold insertEntry at h
    split at h
    · simpa using h
    · split at h
      · rcases List.mem_cons.1 h with rfl | h
        · simp
        · rcases mem_of_mem_insertEntry h with h | h <;> simp [h]
      · rcases List.mem_cons.1 h with h | h <;> simp [h]

theorem pairwise_insertEntry {k : κ} {a : α} : ∀ {l : List (κ × α)},
    l.Pairwise (fun a b => a.1 < b.1) → (insertEntry k a l).Pairwise fun a b => a.1 < b.1
  | [], _ => by simp [insertEntry]
  | e :: rest, h => by
    have hrest := (List.pairwise_cons.1 h).2
    have hhead := (List.pairwise_cons.1 h).1
    unfold insertEntry
    split
    · refine List.pairwise_cons.2 ⟨fun f hf => ?_, h⟩
      rcases List.mem_cons.1 hf with rfl | hf
      · assumption
      · exact Std.lt_trans ‹k < e.1› (hhead f hf)
    · split
      · refine List.pairwise_cons.2 ⟨fun f hf => ?_, pairwise_insertEntry hrest⟩
        rcases mem_of_mem_insertEntry hf with rfl | hf
        · assumption
        · exact hhead f hf
      · have hk : k = e.1 := by grind
        exact List.pairwise_cons.2 ⟨fun f hf => hk ▸ hhead f hf, hrest⟩

/-- Enters a value under a key, over any earlier one. -/
def insert (m : SortedMap κ α) (k : κ) (a : α) : SortedMap κ α :=
  ⟨insertEntry k a m.entries, pairwise_insertEntry m.ascending⟩

/-- The map of a list of entries, where a later entry replaces an earlier one. -/
def ofList (l : List (κ × α)) : SortedMap κ α := l.foldl (fun m e => m.insert e.1 e.2) empty

/-! ### Look-up -/

variable [DecidableEq κ]

omit [LE κ] [DecidableLT κ] [Std.IsLinearOrder κ] [Std.LawfulOrderLT κ] in
@[simp] theorem get?_empty (k : κ) : (empty : SortedMap κ α).get? k = none := rfl

theorem lookup_insertEntry {k l : κ} {a : α} : ∀ {es : List (κ × α)},
    lookup l (insertEntry k a es) = if l = k then some a else lookup l es
  | [] => rfl
  | e :: rest => by
    unfold insertEntry
    split
    · rfl
    · split
      · rw [lookup, lookup, lookup_insertEntry]
        by_cases h : l = e.1
        · have : l ≠ k := by grind
          simp [h, h ▸ this]
        · simp [h]
      · have hk : k = e.1 := by grind
        subst hk
        simp only [lookup]
        split <;> rfl

@[simp] theorem get?_insert (m : SortedMap κ α) (k l : κ) (a : α) :
    (m.insert k a).get? l = if l = k then some a else m.get? l := lookup_insertEntry

/-- The map of a list without repeated keys has the entries of the list. -/
theorem get?_ofList {l : List (κ × α)} (h : (l.map Prod.fst).Nodup) {k : κ} {a : α} :
    (ofList l).get? k = some a ↔ (k, a) ∈ l := by
  have hfold : ∀ {m : SortedMap κ α}, (l.foldl (fun m e => m.insert e.1 e.2) m).get? k = some a ↔
      (k, a) ∈ l ∨ k ∉ l.map Prod.fst ∧ m.get? k = some a := by
    induction l with
    | nil => simp
    | cons e rest ih =>
      intro m
      obtain ⟨hnew, hrest⟩ := List.nodup_cons.mp h
      rw [List.foldl_cons, ih hrest, get?_insert, List.mem_cons, List.map_cons, List.mem_cons, Prod.ext_iff]
      by_cases hk : k = e.1
      · have hnot : (e.1, a) ∉ rest := fun hmem => hnew (List.mem_map.mpr ⟨_, hmem, rfl⟩)
        simp [hk, hnew, hnot, eq_comm]
      · simp [hk]
  simpa [ofList] using hfold (m := empty)

omit [DecidableLT κ] [Std.IsLinearOrder κ] in
theorem get?_eq_some_iff {m : SortedMap κ α} {k : κ} {a : α} :
    m.get? k = some a ↔ (k, a) ∈ m.entries := by
  obtain ⟨es, hes⟩ := m
  unfold get?
  induction es with
  | nil => simp [lookup]
  | cons e rest ih =>
    have hhead := (List.pairwise_cons.1 hes).1
    have hrest := ih (List.pairwise_cons.1 hes).2
    simp only [lookup, List.mem_cons] at hrest ⊢
    by_cases h : k = e.1
    · subst h
      have hnot : (e.1, a) ∉ rest := fun hm => Std.lt_irrefl (hhead (e.1, a) hm)
      simp only [if_true, Option.some.injEq, hnot, or_false]
      exact ⟨fun h => by rw [← h], fun h => by rw [← h]⟩
    · simp only [h, if_false, hrest]
      exact ⟨Or.inr, fun hm => hm.resolve_left fun he => h (by rw [← he])⟩

omit [DecidableLT κ] [DecidableEq κ] [Std.IsLinearOrder κ] in
theorem nodup_keys (m : SortedMap κ α) : m.keys.Nodup :=
  (List.pairwise_map.2 m.ascending).imp fun h => Std.ne_of_lt h

omit [DecidableLT κ] [DecidableEq κ] in
theorem entries_eq_of_mem_iff : ∀ {l l' : List (κ × α)}, l.Pairwise (fun a b => a.1 < b.1) →
    l'.Pairwise (fun a b => a.1 < b.1) → (∀ e, e ∈ l ↔ e ∈ l') → l = l'
  | [], [], _, _, _ => rfl
  | [], e :: _, _, _, h => absurd ((h e).2 List.mem_cons_self) List.not_mem_nil
  | e :: _, [], _, _, h => absurd ((h e).1 List.mem_cons_self) List.not_mem_nil
  | e :: l, f :: l', hl, hl', h => by
    obtain ⟨he, ht⟩ := List.pairwise_cons.1 hl
    obtain ⟨hf, ht'⟩ := List.pairwise_cons.1 hl'
    have hef : e = f := by
      rcases List.mem_cons.1 ((h e).1 List.mem_cons_self) with hef | hm
      · exact hef
      · rcases List.mem_cons.1 ((h f).2 List.mem_cons_self) with hfe | hm'
        · exact hfe.symm
        · exact absurd (Std.lt_trans (hf e hm) (he f hm')) Std.lt_irrefl
    subst hef
    have hne : ∀ g, g ∈ l → g ≠ e := fun g hg hge => Std.lt_irrefl (hge ▸ he g hg)
    have hne' : ∀ g, g ∈ l' → g ≠ e := fun g hg hge => Std.lt_irrefl (hge ▸ hf g hg)
    congr 1
    refine entries_eq_of_mem_iff ht ht' fun g => ⟨fun hg => ?_, fun hg => ?_⟩
    · exact (List.mem_cons.1 ((h g).1 (List.mem_cons_of_mem _ hg))).resolve_left (hne g hg)
    · exact (List.mem_cons.1 ((h g).2 (List.mem_cons_of_mem _ hg))).resolve_left (hne' g hg)

omit [DecidableLT κ] in
theorem ext_get? {m m' : SortedMap κ α} (h : ∀ k, m.get? k = m'.get? k) : m = m' := by
  have hes : m.entries = m'.entries := entries_eq_of_mem_iff m.ascending m'.ascending fun e => by
    rw [← get?_eq_some_iff, ← get?_eq_some_iff, h]
  cases m
  cases m'
  simp_all

end SortedMap
end Plonkish
