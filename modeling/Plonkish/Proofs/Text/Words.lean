import Mathlib

/-! Texts that are put together can be taken apart again where characters of two kinds meet. A number ends at the first
    character that is no digit (`number_append_inj`), a line at the end of a line (`lines_inj`), and the words between
    separators at the character that every separator has and no word does (`intercalate_inj`). -/

namespace Plonkish

/-! ### Kinds of characters -/

/-- Characters of one kind end where the first character of another kind stands. -/
theorem append_inj_of_kind {p : Char → Bool} {a b rest rest' : List Char} (ha : ∀ c ∈ a, p c) (hb : ∀ c ∈ b, p c)
    (hrest : ∀ c ∈ rest.head?, ¬ p c) (hrest' : ∀ c ∈ rest'.head?, ¬ p c) (h : a ++ rest = b ++ rest') :
    a = b ∧ rest = rest' := by
  have hnil : ∀ {l : List Char}, (∀ c ∈ l.head?, ¬ p c) → l.takeWhile p = [] := by
    intro l hl
    cases l with
    | nil => rfl
    | cons c l => exact List.takeWhile_cons_of_neg (hl c rfl)
  have htaken := congrArg (List.takeWhile p) h
  rw [List.takeWhile_append_of_pos ha, List.takeWhile_append_of_pos hb, hnil hrest, hnil hrest', List.append_nil,
    List.append_nil] at htaken
  subst htaken
  exact ⟨rfl, List.append_cancel_left h⟩

/-- Before a mark that neither text has, the texts are the same, and so is what follows it. -/
theorem append_mark_inj {mark : Char} {a b rest rest' : List Char} (ha : mark ∉ a) (hb : mark ∉ b)
    (h : a ++ mark :: rest = b ++ mark :: rest') : a = b ∧ rest = rest' := by
  have hkind : ∀ {l : List Char}, mark ∉ l → ∀ c ∈ l, (c != mark) = true := by
    intro l hl c hc
    exact bne_iff_ne.mpr fun he => hl (he ▸ hc)
  have hmark : ∀ {l : List Char}, ∀ c ∈ (mark :: l).head?, ¬ (c != mark) = true := by
    intro l c hc
    simpa using hc.symm
  obtain ⟨hab, hrest⟩ := append_inj_of_kind (hkind ha) (hkind hb) hmark hmark h
  exact ⟨hab, (List.cons.inj hrest).2⟩

/-! ### Numbers -/

/-- A number is written in digits. -/
theorem isDigit_of_mem_repr {n : Nat} {c : Char} (h : c ∈ n.repr.toList) : c.isDigit := by
  rw [Nat.toList_repr] at h
  exact Nat.isDigit_of_mem_toDigits (by decide) (by decide) h

theorem ne_of_isDigit {c d : Char} (h : c.isDigit) (hd : d.isDigit = false) : c ≠ d := by
  rintro rfl
  rw [h] at hd
  cases hd

theorem isDigit_head_repr (n : Nat) (rest : List Char) : ∀ c ∈ (n.repr.toList ++ rest).head?, c.isDigit := by
  intro c hc
  obtain ⟨d, l, hl⟩ := List.exists_cons_of_ne_nil (l := n.repr.toList) (by simp)
  rw [hl] at hc
  obtain rfl : d = c := Option.some.inj hc
  exact isDigit_of_mem_repr (hl ▸ List.mem_cons_self)

theorem repr_toList_inj {m n : Nat} (h : m.repr.toList = n.repr.toList) : m = n :=
  Nat.repr_inj.mp (String.toList_inj.mp h)

/-- A number ends where a word stands that does not begin with a digit. -/
theorem number_append_inj {m n : Nat} {word rest rest' : List Char} {c : Char} (hword : word.head? = some c)
    (hc : c.isDigit = false) (h : m.repr.toList ++ (word ++ rest) = n.repr.toList ++ (word ++ rest')) :
    m = n ∧ rest = rest' := by
  have hhead : ∀ {rest : List Char}, ∀ e ∈ (word ++ rest).head?, ¬ e.isDigit = true := by
    intro rest e he
    rw [List.head?_append, hword] at he
    obtain rfl := Option.some.inj he
    simp [hc]
  obtain ⟨hnumber, hrest⟩ := append_inj_of_kind (fun _ => isDigit_of_mem_repr) (fun _ => isDigit_of_mem_repr)
    hhead hhead h
  exact ⟨repr_toList_inj hnumber, List.append_cancel_left hrest⟩

/-! ### Separators -/

theorem mem_intercalate {sep : List Char} {c : Char} :
    ∀ {xs : List (List Char)}, c ∈ sep.intercalate xs → c ∈ sep ∨ ∃ x ∈ xs, c ∈ x
  | [], h => by simp at h
  | [x], h => Or.inr ⟨x, List.mem_singleton_self x, by simpa using h⟩
  | x :: x' :: xs, h => by
    rw [List.intercalate_cons_cons, List.append_assoc] at h
    rcases List.mem_append.mp h with h | h
    · exact Or.inr ⟨x, List.mem_cons_self, h⟩
    · rcases List.mem_append.mp h with h | h
      · exact Or.inl h
      · exact (mem_intercalate h).imp_right fun ⟨y, hy, hc⟩ => ⟨y, List.mem_cons_of_mem x hy, hc⟩

/-- Equally many words, none of which has the character that marks a separator. -/
theorem intercalate_inj (before after : List Char) {mark : Char} (hbefore : mark ∉ before) :
    ∀ {xs ys : List (List Char)}, xs.length = ys.length → (∀ x ∈ xs, mark ∉ x) → (∀ y ∈ ys, mark ∉ y) →
      (before ++ mark :: after).intercalate xs = (before ++ mark :: after).intercalate ys → xs = ys
  | [], [], _, _, _, _ => rfl
  | [x], [y], _, _, _, h => by simpa using h
  | x :: x' :: xs, y :: y' :: ys, hlength, hxs, hys, h => by
    obtain ⟨hx, hxs⟩ := List.forall_mem_cons.mp hxs
    obtain ⟨hy, hys⟩ := List.forall_mem_cons.mp hys
    have hword : ∀ {z : List Char}, mark ∉ z → mark ∉ z ++ before := fun hz hmem =>
      (List.mem_append.mp hmem).elim hz hbefore
    have hsplit : ∀ {z rest : List Char},
        z ++ (before ++ mark :: after) ++ rest = z ++ before ++ mark :: (after ++ rest) := by simp
    rw [List.intercalate_cons_cons, List.intercalate_cons_cons, hsplit, hsplit] at h
    obtain ⟨hhead, htail⟩ := append_mark_inj (hword hx) (hword hy) h
    rw [List.append_cancel_right hhead,
      intercalate_inj before after hbefore (Nat.succ.inj hlength) hxs hys (List.append_cancel_left htail)]

/-- Lines with an end after each of them. -/
theorem lines_inj : ∀ {ls ms : List (List Char)}, (∀ l ∈ ls, '\n' ∉ l) → (∀ m ∈ ms, '\n' ∉ m) →
    ls.flatMap (· ++ ['\n']) = ms.flatMap (· ++ ['\n']) → ls = ms
  | [], [], _, _, _ => rfl
  | [], m :: ms, _, _, h => by simp at h
  | l :: ls, [], _, _, h => by simp at h
  | l :: ls, m :: ms, hls, hms, h => by
    obtain ⟨hl, hls⟩ := List.forall_mem_cons.mp hls
    obtain ⟨hm, hms⟩ := List.forall_mem_cons.mp hms
    rw [List.flatMap_cons, List.flatMap_cons, List.append_assoc, List.append_assoc] at h
    obtain ⟨hhead, htail⟩ := append_mark_inj hl hm h
    rw [hhead, lines_inj hls hms htail]

end Plonkish
