import Mathlib
import Plonkish.Proofs.Expr.Leaves
import Plonkish.Proofs.Text.Words

/-! The text of an expression tells what it reads and what it is worth. Products and negations are written without
    parentheses, so a text does not tell the tree: it is a row of factors, each of them an operand behind some minus
    signs (`times_text`). But it tells the factors. An operand is a number, a variable, a zero that is left blank, or
    a sum or difference in parentheses, and however the text goes on, it ends where a space or a closing parenthesis
    follows it (`apart_of_mem_factors`). So trees with one text have the same factors, which are read in one order
    and have one product (`evaluate_of_text`). -/

namespace Plonkish

/-! ### Numbers -/

namespace Scalar

theorem toList_operand (x : Scalar) : x.operand.toList = if x = 0 then [] else x.val.repr.toList := by
  unfold operand
  split <;> rfl

theorem isDigit_of_mem_operand {x : Scalar} {c : Char} (h : c ∈ x.operand.toList) : c.isDigit := by
  rw [toList_operand] at h
  split at h
  · cases h
  · exact isDigit_of_mem_repr h

theorem operand_inj {x y : Scalar} (h : x.operand.toList = y.operand.toList) : x = y := by
  have hblank : ∀ n : Nat, n.repr.toList ≠ [] := by simp
  rw [toList_operand, toList_operand] at h
  by_cases hx : x = 0 <;> by_cases hy : y = 0 <;> simp only [hx, hy, if_true, if_false] at h
  · exact hx.trans hy.symm
  · exact absurd h.symm (hblank _)
  · exact absurd h (hblank _)
  · exact Fin.ext (repr_toList_inj h)

end Scalar

/-! ### Variables -/

namespace Variable

/-- The part of the text of a variable that says where in its column it points. -/
def placeText : Position → List Char
  | .offset d => '[' :: (if d < 0 then '-' else '+') :: (d.natAbs.repr.toList ++ [']'])
  | .row r => '@' :: r.repr.toList

theorem toList_text (v : Variable) :
    v.text.toList = v.kind.sigil.toList ++ (v.index.repr.toList ++ placeText v.position) := by
  obtain ⟨k, i, d | r⟩ := v
  · by_cases hd : d < 0
    · have habs : (-d).toNat = d.natAbs := by omega
      simp [text, placeText, hd, Int.repr_eq_if, Int.not_le.mpr hd, habs]
    · have habs : d.toNat = d.natAbs := by omega
      simp [text, placeText, hd, Int.repr_eq_if, Int.not_lt.mp hd, habs]
  · simp [text, placeText]

theorem placeText_inj {p q : Position} (h : placeText p = placeText q) : p = q := by
  cases p with
  | offset d =>
    cases q with
    | offset e =>
      obtain ⟨hsign, hdigits⟩ := List.cons.inj (List.cons.inj h).2
      have habs := repr_toList_inj (List.append_cancel_right hdigits)
      have hneg : d < 0 ↔ e < 0 := by
        by_cases hd : d < 0 <;> by_cases he : e < 0 <;> simp [hd, he] at hsign ⊢
      exact congrArg Position.offset (by omega)
    | row r => exact absurd (List.cons.inj h).1 (by decide)
  | row r =>
    cases q with
    | offset e => exact absurd (List.cons.inj h).1 (by decide)
    | row r' => exact congrArg Position.row (repr_toList_inj (List.cons.inj h).2)

theorem sigil_inj {k l : ColumnKind} (h : k.sigil.toList = l.sigil.toList) : k = l := by
  cases k <;> cases l <;> simp_all [ColumnKind.sigil]

/-- A sigil is made of letters. -/
theorem ne_of_mem_sigil {k : ColumnKind} : ∀ c ∈ k.sigil.toList, ¬ c.isDigit ∧ c ∉ [' ', ')', '(', '-'] := by
  cases k <;> simp [ColumnKind.sigil]

theorem head_text (v : Variable) : ∃ c rest, v.text.toList = c :: rest ∧ c ∈ v.kind.sigil.toList := by
  obtain ⟨c, rest, hc⟩ := List.exists_cons_of_ne_nil (l := v.kind.sigil.toList)
    (by cases v.kind <;> simp [ColumnKind.sigil])
  exact ⟨c, _, by rw [toList_text, hc]; rfl, hc ▸ List.mem_cons_self⟩

/-- The letters of a variable end where its number begins, and the number where the place begins. -/
theorem text_inj {v w : Variable} (h : v.text.toList = w.text.toList) : v = w := by
  have hindex : ∀ u : Variable, ∀ c ∈ (u.index.repr.toList ++ placeText u.position).head?, ¬ (!c.isDigit) := by
    intro u c hc
    simpa using isDigit_head_repr _ _ c hc
  have hplace : ∀ p : Position, ∀ c ∈ (placeText p).head?, ¬ c.isDigit := by
    rintro (d | r) c hc <;> obtain rfl := Option.some.inj hc <;> decide
  have hsigil : ∀ k : ColumnKind, ∀ c ∈ k.sigil.toList, (!c.isDigit) := by
    intro k c hc
    simpa using (ne_of_mem_sigil c hc).1
  rw [toList_text, toList_text] at h
  obtain ⟨hkind, h⟩ := append_inj_of_kind (hsigil v.kind) (hsigil w.kind) (hindex v) (hindex w) h
  obtain ⟨hnumber, h⟩ := append_inj_of_kind (fun _ => isDigit_of_mem_repr) (fun _ => isDigit_of_mem_repr)
    (hplace v.position) (hplace w.position) h
  have hkind := sigil_inj hkind
  have hindex := repr_toList_inj hnumber
  have hposition := placeText_inj h
  cases v
  cases w
  simp_all

/-- The text of a variable has no space and no closing parenthesis. -/
theorem ne_of_mem_text {v : Variable} : ∀ c ∈ v.text.toList, c ≠ ' ' ∧ c ≠ ')' := by
  have hdigit : ∀ {c : Char}, c.isDigit → c ≠ ' ' ∧ c ≠ ')' := fun h =>
    ⟨ne_of_isDigit h (by decide), ne_of_isDigit h (by decide)⟩
  intro c hc
  rw [toList_text] at hc
  rcases List.mem_append.mp hc with hc | hc
  · have hne := (ne_of_mem_sigil c hc).2
    simp at hne
    exact ⟨hne.1, hne.2.1⟩
  · rcases List.mem_append.mp hc with hc | hc
    · exact hdigit (isDigit_of_mem_repr hc)
    · unfold placeText at hc
      split at hc
      · rename_i d _
        simp only [List.mem_cons, List.mem_append, List.not_mem_nil, or_false] at hc
        rcases hc with rfl | rfl | hc | rfl
        · decide
        · split <;> decide
        · exact hdigit (isDigit_of_mem_repr hc)
        · decide
      · rcases List.mem_cons.mp hc with rfl | hc
        · decide
        · exact hdigit (isDigit_of_mem_repr hc)

end Variable

namespace Expr
variable {x x' y y' z : Expr} {rest rest' : List Char}

/-! ### Operands -/

/-- Two expressions read the same variables in the same order and have the same value. -/
structure Alike (x y : Expr) : Prop where
  leaves : x.leaves = y.leaves
  denote : ∀ read, x.denote read = y.denote read

/-- An expression that is neither a product nor a negation. -/
def IsOperand : Expr → Prop
  | mul _ _ | neg _ => False
  | _ => True

/-- An operand that is written without parentheses. -/
def IsWord : Expr → Prop
  | constant _ | var _ => True
  | _ => False

/-- A difference or a sum. -/
def group : Bool → Expr → Expr → Expr
  | true => sub
  | false => add

theorem isOperand_cases (hx : x.IsOperand) : x.IsWord ∨ ∃ minus y z, x = group minus y z := by
  cases x with
  | constant | var => exact Or.inl trivial
  | add y z => exact Or.inr ⟨false, y, z, rfl⟩
  | sub y z => exact Or.inr ⟨true, y, z, rfl⟩
  | mul | neg => exact hx.elim

theorem toList_text_group (minus : Bool) (x y : Expr) : (group minus x y).text.toList =
    '(' :: (x.text.toList ++ ' ' :: (if minus then '-' else '+') :: ' ' :: (y.text.toList ++ [')'])) := by
  cases minus <;> simp [group, text]

theorem Alike.group {minus : Bool} (hx : Alike x x') (hy : Alike y y') :
    Alike (group minus x y) (group minus x' y') := by
  have hleaves : x.leaves ++ y.leaves = x'.leaves ++ y'.leaves := by rw [hx.leaves, hy.leaves]
  cases minus with
  | true => exact ⟨hleaves, fun read => congrArg₂ (· - ·) (hx.denote read) (hy.denote read)⟩
  | false => exact ⟨hleaves, fun read => congrArg₂ (· + ·) (hx.denote read) (hy.denote read)⟩

/-- A text goes on with a space or a closing parenthesis, if it goes on. -/
def Stops (rest : List Char) : Prop := ∀ c ∈ rest.head?, c = ' ' ∨ c = ')'

theorem ne_of_mem_word (hx : x.IsWord) : ∀ c ∈ x.text.toList, c ≠ ' ' ∧ c ≠ ')' := by
  intro c hc
  cases x with
  | constant a =>
    have hdigit := Scalar.isDigit_of_mem_operand hc
    exact ⟨ne_of_isDigit hdigit (by decide), ne_of_isDigit hdigit (by decide)⟩
  | var v => exact Variable.ne_of_mem_text c hc
  | add | sub | mul | neg => exact hx.elim

theorem head_word (hx : x.IsWord) (hrest : Stops rest) : ∀ c ∈ (x.text.toList ++ rest).head?, c ≠ '(' ∧ c ≠ '-' := by
  -- A word begins with a digit or with a letter; an empty one leaves the first character to the rest.
  have hword : ∀ c ∈ x.text.toList.head?, c ≠ '(' ∧ c ≠ '-' := by
    intro c hc
    cases x with
    | constant a =>
      have hdigit := Scalar.isDigit_of_mem_operand (List.mem_of_mem_head? hc)
      exact ⟨ne_of_isDigit hdigit (by decide), ne_of_isDigit hdigit (by decide)⟩
    | var v =>
      obtain ⟨d, l, hl, hd⟩ := v.head_text
      rw [text, hl] at hc
      obtain rfl : d = c := Option.some.inj hc
      have hne := (Variable.ne_of_mem_sigil d hd).2
      simp at hne
      exact ⟨hne.2.2.1, hne.2.2.2⟩
    | add | sub | mul | neg => exact hx.elim
  intro c hc
  cases htext : x.text.toList with
  | nil =>
    rw [htext] at hc
    rcases hrest c hc with rfl | rfl <;> decide
  | cons d l =>
    rw [htext] at hc hword
    exact hword c hc

/-- Words are told from each other, and from what follows them. -/
theorem word_inj (hx : x.IsWord) (hy : y.IsWord) (hrest : Stops rest) (hrest' : Stops rest')
    (h : x.text.toList ++ rest = y.text.toList ++ rest') : x = y ∧ rest = rest' := by
  have hin : ∀ {z : Expr}, z.IsWord → ∀ c ∈ z.text.toList, (c ≠ ' ' && c ≠ ')') := by
    intro z hz c hc
    simpa using ne_of_mem_word hz c hc
  have hout : ∀ {l : List Char}, Stops l → ∀ c ∈ l.head?, ¬ (c ≠ ' ' && c ≠ ')') := by
    intro l hl c hc
    rcases hl c hc with rfl | rfl <;> decide
  obtain ⟨h, hrests⟩ := append_inj_of_kind (hin hx) (hin hy) (hout hrest) (hout hrest') h
  refine ⟨?_, hrests⟩
  -- A number, if it is written at all, begins with a digit, and a variable with a letter.
  have hmixed : ∀ (a : Scalar) (v : Variable), a.operand.toList ≠ v.text.toList := by
    intro a v he
    obtain ⟨c, l, hl, hc⟩ := v.head_text
    have hdigit := Scalar.isDigit_of_mem_operand (x := a) (c := c) (by rw [he, hl]; exact List.mem_cons_self)
    exact (Variable.ne_of_mem_sigil c hc).1 hdigit
  cases x with
  | constant a =>
    cases y with
    | constant b => exact congrArg constant (Scalar.operand_inj h)
    | var v => exact absurd h (hmixed a v)
    | add | sub | mul | neg => exact hy.elim
  | var v =>
    cases y with
    | constant b => exact absurd h.symm (hmixed b v)
    | var w => exact congrArg var (Variable.text_inj h)
    | add | sub | mul | neg => exact hy.elim
  | add | sub | mul | neg => exact hx.elim

/-! ### Factors -/

/-- An operand of a product behind a number of minus signs. -/
structure Factor where
  minuses : Nat
  operand : Expr

namespace Factor

def text (f : Factor) : List Char := List.replicate f.minuses '-' ++ f.operand.text.toList

def denote (read : Variable → Scalar) (f : Factor) : Scalar := (-1) ^ f.minuses * f.operand.denote read

end Factor

/-- Puts a minus sign before the first factor. -/
def negated : List Factor → List Factor
  | [] => []
  | f :: fs => ⟨f.minuses + 1, f.operand⟩ :: fs

/-- The factors of an expression. -/
def factors : Expr → List Factor
  | mul x y => x.factors ++ y.factors
  | neg x => negated x.factors
  | constant c => [⟨0, constant c⟩]
  | var v => [⟨0, var v⟩]
  | add x y => [⟨0, add x y⟩]
  | sub x y => [⟨0, sub x y⟩]

/-- Factors as they are written after another one. -/
def times (fs : List Factor) : List Char := fs.flatMap fun f => ' ' :: '*' :: ' ' :: f.text

theorem factors_ne_nil (x : Expr) : x.factors ≠ [] := by
  induction x with
  | mul x y ihx ihy => simp [factors, ihx]
  | neg x ih =>
    obtain ⟨f, fs, h⟩ := List.exists_cons_of_ne_nil ih
    simp [factors, h, negated]
  | constant | var | add | sub => simp [factors]

/-- An expression is written as its factors are. -/
theorem times_factors (x : Expr) : times x.factors = ' ' :: '*' :: ' ' :: x.text.toList := by
  induction x with
  | mul x y ihx ihy =>
    rw [factors, times, List.flatMap_append]
    change times x.factors ++ times y.factors = _
    rw [ihx, ihy]
    simp [text]
  | neg x ih =>
    obtain ⟨f, fs, h⟩ := List.exists_cons_of_ne_nil x.factors_ne_nil
    rw [h] at ih
    rw [factors, h]
    simp only [times, negated, List.flatMap_cons, Factor.text, List.replicate_succ, List.cons_append, List.cons.injEq,
      true_and] at ih ⊢
    simp [text, ← ih]
  | constant | var | add | sub => simp [factors, times, Factor.text]

/-- A minus sign changes no operand. -/
theorem exists_of_mem_negated {fs : List Factor} {f : Factor} (h : f ∈ negated fs) :
    ∃ g ∈ fs, g.operand = f.operand := by
  cases fs with
  | nil => cases h
  | cons g fs =>
    rcases List.mem_cons.mp h with rfl | h
    · exact ⟨g, List.mem_cons_self, rfl⟩
    · exact ⟨f, List.mem_cons_of_mem _ h, rfl⟩

/-- What holds of words, and of sums and differences whose operands have such factors, holds of the operands of all
    factors. -/
theorem operand_of_mem_factors {P : Expr → Prop} (hword : ∀ x, x.IsWord → P x)
    (hgroup : ∀ minus x y, (∀ f ∈ x.factors, P f.operand) → (∀ f ∈ y.factors, P f.operand) → P (group minus x y))
    (x : Expr) : ∀ f ∈ x.factors, P f.operand := by
  induction x with
  | mul x y ihx ihy => exact fun f hf => (List.mem_append.mp hf).elim (ihx f) (ihy f)
  | neg x ih =>
    intro f hf
    obtain ⟨g, hg, he⟩ := exists_of_mem_negated hf
    exact he ▸ ih g hg
  | constant | var => exact List.forall_mem_singleton.mpr (hword _ trivial)
  | add x y ihx ihy => exact List.forall_mem_singleton.mpr (hgroup false x y ihx ihy)
  | sub x y ihx ihy => exact List.forall_mem_singleton.mpr (hgroup true x y ihx ihy)

theorem isOperand_of_isWord (hx : x.IsWord) : x.IsOperand := by
  cases x with
  | constant | var => trivial
  | add | sub | mul | neg => exact hx.elim

theorem isOperand_group (minus : Bool) (x y : Expr) : (group minus x y).IsOperand := by
  cases minus <;> trivial

theorem isOperand_of_mem_factors (x : Expr) : ∀ f ∈ x.factors, f.operand.IsOperand :=
  x.operand_of_mem_factors (fun _ => isOperand_of_isWord) fun minus y z _ _ => isOperand_group minus y z

/-! ### What factors are worth -/

theorem leaves_eq_flatMap (x : Expr) : x.leaves = x.factors.flatMap (·.operand.leaves) := by
  induction x with
  | mul x y ihx ihy => rw [leaves, factors, List.flatMap_append, ihx, ihy]
  | neg x ih =>
    obtain ⟨f, fs, h⟩ := List.exists_cons_of_ne_nil x.factors_ne_nil
    rw [leaves, ih, factors, h]
    rfl
  | constant | var | add | sub => simp [factors]

open Fin.CommRing in
/-- An expression has the value of its factors multiplied. -/
theorem denote_eq_prod (read : Variable → Scalar) (x : Expr) :
    x.denote read = (x.factors.map (Factor.denote read)).prod := by
  induction x with
  | mul x y ihx ihy => rw [denote, factors, List.map_append, List.prod_append, ihx, ihy]
  | neg x ih =>
    obtain ⟨f, fs, h⟩ := List.exists_cons_of_ne_nil x.factors_ne_nil
    rw [denote, ih, factors, h, negated, List.map_cons, List.map_cons, List.prod_cons, List.prod_cons, Factor.denote,
      Factor.denote, pow_succ]
    ring
  | constant | var | add | sub => simp [factors, Factor.denote]

/-- Factors with equally many minus signs and operands that are alike. -/
structure Factor.Alike (f g : Factor) : Prop where
  minuses : f.minuses = g.minuses
  operand : Expr.Alike f.operand g.operand

theorem Factor.Alike.denote {f g : Factor} (h : f.Alike g) (read : Variable → Scalar) :
    f.denote read = g.denote read := by
  rw [Factor.denote, Factor.denote, h.minuses, h.operand.denote]

theorem map_eq_of_forall₂ {α β : Type} {R : α → α → Prop} {F : α → β} (hF : ∀ a b, R a b → F a = F b)
    {as bs : List α} (h : List.Forall₂ R as bs) : as.map F = bs.map F := by
  induction h with
  | nil => rfl
  | cons hab _ ih => rw [List.map_cons, List.map_cons, hF _ _ hab, ih]

theorem alike_of_factors (h : List.Forall₂ Factor.Alike x.factors y.factors) : Alike x y where
  leaves := by
    rw [leaves_eq_flatMap, leaves_eq_flatMap, List.flatMap_def, List.flatMap_def,
      map_eq_of_forall₂ (fun _ _ hfg => hfg.operand.leaves) h]
  denote read := by
    rw [denote_eq_prod, denote_eq_prod, map_eq_of_forall₂ (fun _ _ hfg => hfg.denote read) h]

/-! ### Where an operand ends -/

/-- The text of an expression is told from that of every operand, and from what follows it. -/
def Apart (x : Expr) : Prop := ∀ y : Expr, y.IsOperand → ∀ rest rest', Stops rest → Stops rest' →
  x.text.toList ++ rest = y.text.toList ++ rest' → Alike x y ∧ rest = rest'

/-- A text goes on, but not with a factor. -/
structure Ends (rest : List Char) : Prop where
  stops : Stops rest
  noFactor : ∀ l, rest ≠ ' ' :: '*' :: l

theorem head_group (minus : Bool) (x y : Expr) (rest : List Char) :
    ((group minus x y).text.toList ++ rest).head? = some '(' := by
  rw [toList_text_group]
  rfl

theorem head_operand (hx : x.IsOperand) (hrest : Stops rest) : ∀ c ∈ (x.text.toList ++ rest).head?, c ≠ '-' := by
  intro c hc
  rcases isOperand_cases hx with hword | ⟨minus, y, z, rfl⟩
  · exact (head_word hword hrest c hc).2
  · rw [head_group] at hc
    obtain rfl : '(' = c := Option.some.inj hc
    decide

theorem stops_times (fs : List Factor) (hrest : Stops rest) : Stops (times fs ++ rest) := by
  cases fs with
  | nil => exact hrest
  | cons f fs =>
    intro c hc
    obtain rfl : ' ' = c := Option.some.inj hc
    exact Or.inl rfl

/-- The minus signs of a factor end where its operand begins. -/
theorem alike_of_factor {f g : Factor} (hf : Apart f.operand) (hf' : f.operand.IsOperand) (hg : g.operand.IsOperand)
    (hrest : Stops rest) (hrest' : Stops rest') (h : f.text ++ rest = g.text ++ rest') : f.Alike g ∧ rest = rest' := by
  rw [Factor.text, Factor.text, List.append_assoc, List.append_assoc] at h
  obtain ⟨hminuses, h⟩ := append_inj_of_kind (p := (· = '-')) (by simp) (by simp)
    (by simpa using head_operand hf' hrest) (by simpa using head_operand hg hrest') h
  obtain ⟨halike, hrests⟩ := hf _ hg _ _ hrest hrest' h
  exact ⟨⟨by simpa using congrArg List.length hminuses, halike⟩, hrests⟩

/-- Rows of factors are told from each other, factor by factor. -/
theorem forall₂_of_times {fs gs : List Factor} (hfs : ∀ f ∈ fs, Apart f.operand ∧ f.operand.IsOperand)
    (hgs : ∀ g ∈ gs, g.operand.IsOperand) (hrest : Ends rest) (hrest' : Ends rest')
    (h : times fs ++ rest = times gs ++ rest') : List.Forall₂ Factor.Alike fs gs ∧ rest = rest' := by
  induction fs generalizing gs with
  | nil =>
    cases gs with
    | nil => exact ⟨.nil, h⟩
    | cons g gs => exact absurd h (hrest.noFactor _)
  | cons f fs ih =>
    cases gs with
    | nil => exact absurd h.symm (hrest'.noFactor _)
    | cons g gs =>
      obtain ⟨hf, hfs⟩ := List.forall_mem_cons.mp hfs
      obtain ⟨hg, hgs⟩ := List.forall_mem_cons.mp hgs
      simp only [times, List.flatMap_cons, List.cons_append, List.append_assoc, List.cons.injEq, true_and] at h
      obtain ⟨halike, h⟩ := alike_of_factor hf.1 hf.2 hg (stops_times fs hrest.stops) (stops_times gs hrest'.stops) h
      obtain ⟨hall, hrests⟩ := ih hfs hgs h
      exact ⟨.cons halike hall, hrests⟩

/-- So are expressions whose operands are. -/
theorem alike_of_apart (hx : ∀ f ∈ x.factors, Apart f.operand) (hrest : Ends rest) (hrest' : Ends rest')
    (h : x.text.toList ++ rest = y.text.toList ++ rest') : Alike x y ∧ rest = rest' := by
  have htimes : times x.factors ++ rest = times y.factors ++ rest' := by
    rw [times_factors, times_factors]
    simp only [List.cons_append, h]
  obtain ⟨hall, hrests⟩ := forall₂_of_times (fun f hf => ⟨hx f hf, x.isOperand_of_mem_factors f hf⟩)
    y.isOperand_of_mem_factors hrest hrest' htimes
  exact ⟨alike_of_factors hall, hrests⟩

theorem apart_word (hx : x.IsWord) : Apart x := by
  intro y hy rest rest' hrest hrest' h
  rcases isOperand_cases hy with hword | ⟨minus, u, v, rfl⟩
  · obtain ⟨rfl, hrests⟩ := word_inj hx hword hrest hrest' h
    exact ⟨⟨rfl, fun _ => rfl⟩, hrests⟩
  · have hhead : '(' ∈ (x.text.toList ++ rest).head? := h ▸ head_group minus u v rest'
    exact absurd rfl (head_word hx hrest _ hhead).1

theorem ends_paren (l : List Char) : Ends (')' :: l) where
  stops c hc := Or.inr (Option.some.inj hc).symm
  noFactor l' h := absurd (List.cons.inj h).1 (by decide)

theorem ends_sign (minus : Bool) (l : List Char) : Ends (' ' :: (if minus then '-' else '+') :: l) where
  stops c hc := Or.inl (Option.some.inj hc).symm
  noFactor l' h := absurd (List.cons.inj (List.cons.inj h).2).1 (by cases minus <;> decide)

/-- The sign between two operands of a sum or a difference is the first one that follows no factor. -/
theorem apart_group (minus : Bool) (hx : ∀ f ∈ x.factors, Apart f.operand)
    (hy : ∀ f ∈ y.factors, Apart f.operand) : Apart (group minus x y) := by
  intro z hz rest rest' hrest hrest' h
  rcases isOperand_cases hz with hword | ⟨minus', x', y', rfl⟩
  · have hhead : '(' ∈ (z.text.toList ++ rest').head? := h ▸ head_group minus x y rest
    exact absurd rfl (head_word hword hrest' _ hhead).1
  · simp only [toList_text_group, List.cons_append, List.append_assoc, List.nil_append, List.cons.injEq, true_and] at h
    obtain ⟨hxx, h⟩ := alike_of_apart hx (ends_sign minus _) (ends_sign minus' _) h
    simp only [List.cons.injEq, true_and] at h
    obtain ⟨hsign, h⟩ := h
    obtain ⟨hyy, hrests⟩ := alike_of_apart hy (ends_paren _) (ends_paren _) h
    have hminus : minus = minus' := by
      cases minus <;> cases minus' <;> first | rfl | exact absurd hsign (by decide)
    subst hminus
    exact ⟨hxx.group hyy, (List.cons.inj hrests).2⟩

theorem apart_of_mem_factors (x : Expr) : ∀ f ∈ x.factors, Apart f.operand :=
  x.operand_of_mem_factors (fun _ => apart_word) fun minus _ _ => apart_group minus

theorem ends_nil : Ends [] := ⟨fun _ hc => (nomatch hc), fun _ h => (nomatch h)⟩

theorem alike_of_text (h : x.text = y.text) : Alike x y :=
  (alike_of_apart x.apart_of_mem_factors ends_nil ends_nil (by rw [h])).1

/-! ### Readings -/

/-- An expression is evaluated by reading its leaves from left to right, and it is worth its value with what was
    read. -/
theorem evaluate_eq_mapM {ε : Type} (read : Variable → Except ε Scalar) (x : Expr) :
    x.evaluate read = (x.leaves.mapM read).map fun _ => x.denote fun v => (read v).toOption.getD 0 := by
  induction x with
  | constant c => rfl
  | var v =>
    rw [evaluate, leaves, denote, List.mapM_cons]
    cases read v <;> rfl
  | neg x ih =>
    rw [evaluate, leaves, denote, ih, ← Scalar.opposite_eq_neg]
    cases x.leaves.mapM read <;> rfl
  | add x y ihx ihy =>
    rw [evaluate, leaves, denote, ihx, ihy, List.mapM_append]
    cases x.leaves.mapM read <;> cases y.leaves.mapM read <;> rfl
  | sub x y ihx ihy =>
    rw [evaluate, leaves, denote, ihx, ihy, List.mapM_append, ← Scalar.minus_eq_sub]
    cases x.leaves.mapM read <;> cases y.leaves.mapM read <;> rfl
  | mul x y ihx ihy =>
    rw [evaluate, leaves, denote, ihx, ihy, List.mapM_append]
    cases x.leaves.mapM read <;> cases y.leaves.mapM read <;> rfl

/-- Expressions with one text visit the same variables in the same order and have the same value under every reading,
    or fail at the same variable where the reading fails. -/
theorem evaluate_of_text (h : x.text = y.text) : x.occurrences = y.occurrences ∧
    ∀ (ε : Type) (read : Variable → Except ε Scalar), x.evaluate read = y.evaluate read := by
  have halike := alike_of_text h
  refine ⟨?_, fun ε read => ?_⟩
  · rw [occurrences_eq_leaves, occurrences_eq_leaves, halike.leaves]
  · rw [evaluate_eq_mapM, evaluate_eq_mapM, halike.leaves, halike.denote]

/-- The minus sign may stand for the opposite of a product or of its first factor, and what follows the binary one for
    zero or for the opposite of zero times zero. -/
theorem evaluate_of_two_trees :
    let v : Expr := var (.witness 0 0)
    let w : Expr := var (.witness 1 (-1))
    let x : Expr := sub (neg (mul v (mul w (constant 7)))) (neg (mul (constant 0) (constant 0)))
    let y : Expr := sub (mul (mul (neg v) w) (constant 7)) (mul (neg (constant 0)) (constant 0))
    x.text = "(-w0[+0] * w1[-1] * 7 - - * )" ∧ x.text = y.text ∧ x ≠ y ∧
      x.occurrences = [.witness 0 0, .witness 1 (-1)] ∧ y.occurrences = [.witness 0 0, .witness 1 (-1)] ∧
      ∀ (ε : Type) (read : Variable → Except ε Scalar), x.evaluate read = y.evaluate read := by
  intro v w x y
  have htext : x.text = y.text := by cbv
  have hx : x.occurrences = [.witness 0 0, .witness 1 (-1)] := by
    rw [occurrences_eq_leaves]
    rfl
  obtain ⟨hoccurrences, hvalue⟩ := evaluate_of_text htext
  exact ⟨by cbv, htext, by decide, hx, hoccurrences ▸ hx, hvalue⟩

end Expr
end Plonkish
