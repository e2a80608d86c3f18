import Mathlib.Data.List.Basic

/-! Opening runs of steps that may fault. A run that ends well is a run whose every step ends well: one
    equation for each way of chaining steps, after which nobody unfolds the chaining. A run whose steps know
    one fault only faults when one of them does (`Faults`). -/

namespace Plonkish
variable {ε α β : Type}

theorem bind_eq_ok {x : Except ε α} {f : α → Except ε β} {b : β} :
    (x >>= f) = .ok b ↔ ∃ a, x = .ok a ∧ f a = .ok b := by
  cases x <;> simp [bind, Except.bind]

theorem map_eq_ok {x : Except ε α} {f : α → β} {b : β} : x.map f = .ok b ↔ ∃ a, x = .ok a ∧ f a = b := by
  cases x <;> simp [Except.map]

/-- A search ends well without a find exactly when it ends so at every element. -/
theorem findSomeM?_eq_ok_none {f : α → Except ε (Option β)} {l : List α} :
    l.findSomeM? f = .ok none ↔ ∀ a ∈ l, f a = .ok none := by
  induction l with
  | nil => simp [pure, Except.pure]
  | cons a l ih =>
    rw [List.findSomeM?_cons, bind_eq_ok, List.forall_mem_cons, ← ih]
    constructor
    · rintro ⟨o, ha, hl⟩
      cases o with
      | none => exact ⟨ha, hl⟩
      | some b => cases hl
    · exact fun ⟨ha, hl⟩ => ⟨none, ha, hl⟩

theorem mapM_eq_ok {f : α → Except ε β} {l : List α} {r : List β} :
    l.mapM f = .ok r ↔ l.map f = r.map .ok := by
  induction l generalizing r with
  | nil => cases r <;> simp [pure, Except.pure]
  | cons a l ih =>
    rw [List.mapM_cons, bind_eq_ok, List.map_cons]
    constructor
    · rintro ⟨b, ha, h⟩
      obtain ⟨r', hl, h⟩ := bind_eq_ok.mp h
      obtain rfl := Except.ok.inj h
      rw [List.map_cons, ha, ih.mp hl]
    · intro h
      cases r with
      | nil => simp at h
      | cons b r =>
        rw [List.map_cons, List.cons.injEq] at h
        exact ⟨b, h.1, bind_eq_ok.mpr ⟨r, ih.mpr h.2, rfl⟩⟩

theorem mem_of_mapM_eq_ok {f : α → Except ε β} {l : List α} {r : List β} (h : l.mapM f = .ok r) {b : β} :
    b ∈ r ↔ ∃ a ∈ l, f a = .ok b := by
  have hmem : (Except.ok b : Except ε β) ∈ r.map .ok ↔ b ∈ r := by simp
  rw [← hmem, ← mapM_eq_ok.mp h, List.mem_map]

theorem exists_mapM_eq_ok {f : α → Except ε β} {l : List α} :
    (∃ r, l.mapM f = .ok r) ↔ ∀ a ∈ l, ∃ b, f a = .ok b := by
  induction l with
  | nil => simp [pure, Except.pure]
  | cons a l ih =>
    rw [List.forall_mem_cons, ← ih]
    constructor
    · rintro ⟨_, h⟩
      rw [List.mapM_cons] at h
      obtain ⟨b, ha, h⟩ := bind_eq_ok.mp h
      obtain ⟨r', hl, -⟩ := bind_eq_ok.mp h
      exact ⟨⟨b, ha⟩, r', hl⟩
    · rintro ⟨⟨b, ha⟩, r, hl⟩
      refine ⟨b :: r, ?_⟩
      rw [List.mapM_cons]
      exact bind_eq_ok.mpr ⟨b, ha, bind_eq_ok.mpr ⟨r, hl, rfl⟩⟩

theorem mapM_congr {f g : α → Except ε β} {l : List α} (h : ∀ a ∈ l, f a = g a) : l.mapM f = l.mapM g := by
  induction l with
  | nil => rfl
  | cons a l ih =>
    rw [List.mapM_cons, List.mapM_cons, h a List.mem_cons_self, ih fun b hb => h b (List.mem_cons_of_mem _ hb)]

theorem findSomeM?_congr {f g : α → Except ε (Option β)} {l : List α} (h : ∀ a ∈ l, f a = g a) :
    l.findSomeM? f = l.findSomeM? g := by
  induction l with
  | nil => rfl
  | cons a l ih =>
    rw [List.findSomeM?_cons, List.findSomeM?_cons, h a List.mem_cons_self,
      ih fun b hb => h b (List.mem_cons_of_mem _ hb)]

/-! ### Runs with one fault -/

/-- A run knows no fault but one, and it ends with that one exactly if a condition holds. -/
def Faults (x : Except ε α) (e : ε) (P : Prop) : Prop := ∀ e', x = .error e' ↔ e' = e ∧ P

namespace Faults
variable {e : ε} {P Q : Prop}

theorem ok (a : α) : Faults (.ok a) e False := fun _ => iff_of_false nofun And.right

theorem error (e : ε) : Faults (.error e : Except ε α) e True := fun e' => by simp [eq_comm]

theorem congr {x : Except ε α} (h : Faults x e P) (hPQ : P ↔ Q) : Faults x e Q := fun e' => by rw [h e', hPQ]

theorem error_iff {x : Except ε α} (h : Faults x e P) : x = .error e ↔ P := by simp [h e]

theorem ok_iff {x : Except ε α} (h : Faults x e P) : (∃ a, x = .ok a) ↔ ¬ P := by
  rw [← h.error_iff]
  cases hx : x with
  | ok a => simp
  | error e' => simp [((h e').mp hx).1]

theorem map {x : Except ε α} (h : Faults x e P) (f : α → β) : Faults (x.map f) e P := fun e' => by
  rw [← h e']
  cases x <;> simp [Except.map]

/-- A step before others that fault alike, whatever it answers. -/
theorem bind {x : Except ε α} {f : α → Except ε β} (h : Faults x e P) (hf : ∀ a, Faults (f a) e Q) :
    Faults (x >>= f) e (P ∨ Q) := by
  intro e'
  cases hx : x with
  | ok a =>
    have hP : ¬ P := h.ok_iff.mp ⟨a, hx⟩
    have hok : ((.ok a : Except ε α) >>= f) = f a := rfl
    simpa [hok, hP] using hf a e'
  | error e'' =>
    obtain ⟨rfl, hP⟩ := (h e'').mp hx
    have herror : ((.error e'' : Except ε α) >>= f) = .error e'' := rfl
    simp [herror, hP, eq_comm]

theorem mapM {f : α → Except ε β} {l : List α} {R : α → Prop} (h : ∀ a ∈ l, Faults (f a) e (R a)) :
    Faults (l.mapM f) e (∃ a ∈ l, R a) := by
  induction l with
  | nil => exact (ok []).congr (by simp)
  | cons a l ih =>
    rw [List.mapM_cons]
    refine ((h a List.mem_cons_self).bind fun b =>
      ((ih fun a ha => h a (List.mem_cons_of_mem _ ha)).bind fun bs => ok (b :: bs))).congr ?_
    simp

end Faults

/-! ### Runs without some faults -/

/-- A run does not end with a fault of some kind. -/
def Spares (bad : ε → Prop) (x : Except ε α) : Prop := ∀ e, x = .error e → ¬ bad e

namespace Spares
variable {bad : ε → Prop} {x : Except ε α}

theorem ok (a : α) : Spares bad (.ok a : Except ε α) := nofun

theorem error {e : ε} (h : ¬ bad e) : Spares bad (.error e : Except ε α) := fun _ he => Except.error.inj he ▸ h

theorem bind {f : α → Except ε β} (h : Spares bad x) (hf : ∀ a, x = .ok a → Spares bad (f a)) :
    Spares bad (x >>= f) := by
  cases hx : x with
  | ok a => exact hf a hx
  | error e => exact error (h e hx)

theorem map (h : Spares bad x) (f : α → β) : Spares bad (x.map f) := by
  cases hx : x with
  | ok a => exact ok (f a)
  | error e => exact error (h e hx)

theorem mapM {f : α → Except ε β} {l : List α} (h : ∀ a ∈ l, Spares bad (f a)) : Spares bad (l.mapM f) := by
  induction l with
  | nil => exact ok []
  | cons a l ih =>
    rw [List.mapM_cons]
    exact (h a List.mem_cons_self).bind fun b _ =>
      (ih fun a ha => h a (List.mem_cons_of_mem _ ha)).bind fun bs _ => ok (b :: bs)

theorem foldlM {f : β → α → Except ε β} {l : List α} (h : ∀ b a, Spares bad (f b a)) (b : β) :
    Spares bad (l.foldlM f b) := by
  induction l generalizing b with
  | nil => exact ok b
  | cons a l ih => exact (h b a).bind fun b _ => ih b

end Spares

end Plonkish
