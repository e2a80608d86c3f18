import Plonkish.Proofs.Calls

/-! Ranks kept as bytes. A union raises no rank but that of the first root, and only where it joins two roots of equal
    rank (`rankOf_union`). With bytes for ranks it adds one to a byte there, and the last byte has no successor. But a
    rank is at most the logarithm of the number of elements, so as long as the elements are numbered by words of 64
    bits every rank is below 64: no run of calls meets the last byte, and its bytes are the ranks
    (`exists_bytesAll`). -/

namespace Plonkish
namespace Partition
variable {n : Nat} {p q : Partition n} {bytes : Vector UInt8 n} {c : Call} {calls : List Call}

/-! ### What a union raises -/

/-- Two elements with different roots of equal rank. -/
def Level (p : Partition n) (i j : Fin n) : Prop :=
  p.find i ≠ p.find j ∧ p.rankOf (p.find i) = p.rankOf (p.find j)

instance (p : Partition n) (i j : Fin n) : Decidable (p.Level i j) :=
  inferInstanceAs (Decidable (p.find i ≠ p.find j ∧ p.rankOf (p.find i) = p.rankOf (p.find j)))

theorem rankOf_union (p : Partition n) (i j k : Fin n) :
    (p.union i j).2.rankOf k = if p.Level i j ∧ k = p.find i then p.rankOf k + 1 else p.rankOf k := by
  have hrank : ∀ k, ((p.compress i).compress j).rankOf k = p.rankOf k := fun _ => rfl
  unfold Partition.union
  simp only [find_compress p, hrank]
  split
  · rename_i hsame
    rw [if_neg fun h => h.1.1 hsame.symm]
    exact hrank k
  · rename_i hne
    split
    · rename_i hlow
      rw [if_neg fun h => Nat.ne_of_lt hlow h.1.2]
      exact hrank k
    · split
      · rename_i hhigh
        rw [if_neg fun h => Nat.ne_of_gt hhigh h.1.2]
        exact hrank k
      · rename_i hlow hhigh
        have hlevel : p.Level i j := ⟨Ne.symm hne, by omega⟩
        rw [rankOf_hangRaise, hrank, hrank]
        by_cases hk : k = p.find i
        · rw [if_pos hk, if_pos ⟨hlevel, hk⟩, hk]
        · rw [if_neg hk, if_neg fun h => hk h.2]

theorem Heavy.rankOf_le_log2 (h : p.Heavy) (i : Fin n) : p.rankOf i ≤ n.log2 :=
  (Nat.le_log2 i.pos.ne').mpr (h.two_pow_rankOf_le i)

/-- Words of 64 bits number the elements. -/
theorem Heavy.rankOf_lt (h : p.Heavy) (hword : n < 2 ^ 64) (i : Fin n) : p.rankOf i < 64 :=
  Nat.lt_of_le_of_lt (h.rankOf_le_log2 i) ((Nat.log2_lt i.pos.ne').mpr hword)

/-! ### Bytes -/

/-- The byte that follows; the last one has none. -/
def raise? (b : UInt8) : Option UInt8 := if b.toNat + 1 < UInt8.size then some (b + 1) else none

/-- A union with bytes for ranks. Where two roots with equal bytes are joined, the byte of the first one is raised. -/
def unionBytes (p : Partition n) (bytes : Vector UInt8 n) (i j : Fin n) : Option (Vector UInt8 n) :=
  let r := p.find i
  let s := p.find j
  if r ≠ s ∧ bytes[r.val] = bytes[s.val] then (raise? bytes[r.val]).map fun b => bytes.set r.val b r.isLt
  else some bytes

/-- What a call makes of the bytes. -/
def Call.runBytes (p : Partition n) (bytes : Vector UInt8 n) : Call → Option (Vector UInt8 n)
  | union i j => if h : i < n ∧ j < n then p.unionBytes bytes ⟨i, h.1⟩ ⟨j, h.2⟩ else none
  | flatten _ => some bytes
  | find _ => some bytes
  | same _ _ => some bytes

/-- What calls one after the other make of the bytes. -/
def bytesAll (p : Partition n) (bytes : Vector UInt8 n) : List Call → Option (Vector UInt8 n)
  | [] => some bytes
  | c :: calls => do
    let bytes ← c.runBytes p bytes
    let (_, p) ← (c.run p).toOption
    p.bytesAll bytes calls

/-- The bytes are the ranks. -/
def HasBytes (p : Partition n) (bytes : Vector UInt8 n) : Prop := ∀ i, (h : i < n) → bytes[i].toNat = p.rankOf ⟨i, h⟩

theorem hasBytes_discrete (n : Nat) : (discrete n).HasBytes (Vector.replicate n 0) := by
  intro i h
  simp [rankOf, discrete]

theorem raise?_eq_some {b : UInt8} (h : b.toNat < 64) : ∃ b', raise? b = some b' ∧ b'.toNat = b.toNat + 1 := by
  have hsize : b.toNat + 1 < UInt8.size := by
    unfold UInt8.size
    omega
  exact ⟨b + 1, if_pos hsize, by rw [UInt8.toNat_add]; exact Nat.mod_eq_of_lt hsize⟩

/-- Where all ranks are small, a union finds the byte that it raises one of them to. -/
theorem exists_unionBytes (hsmall : ∀ i, p.rankOf i < 64) (h : p.HasBytes bytes) (i j : Fin n) :
    ∃ bytes', p.unionBytes bytes i j = some bytes' ∧ (p.union i j).2.HasBytes bytes' := by
  -- Roots with equal bytes are those of equal rank.
  have hlevel : p.find i ≠ p.find j ∧ bytes[(p.find i).val] = bytes[(p.find j).val] ↔ p.Level i j := by
    rw [Level, ← h _ (p.find i).isLt, ← h _ (p.find j).isLt, UInt8.toNat_inj]
  unfold unionBytes
  by_cases hraise : p.Level i j
  · obtain ⟨b, hb, hnext⟩ := raise?_eq_some (b := bytes[(p.find i).val]) (h _ (p.find i).isLt ▸ hsmall _)
    refine ⟨bytes.set (p.find i).val b (p.find i).isLt, ?_, fun k hk => ?_⟩
    · simp only [hlevel, if_pos hraise, hb, Option.map_some]
    · rw [rankOf_union, Vector.getElem_set]
      by_cases hroot : (⟨k, hk⟩ : Fin n) = p.find i
      · rw [if_pos (congrArg Fin.val hroot.symm), if_pos ⟨hraise, hroot⟩, hnext, h _ (p.find i).isLt, hroot]
      · rw [if_neg fun he => hroot (Fin.ext he.symm), if_neg fun he => hroot he.2, h k hk]
  · refine ⟨bytes, if_neg (hlevel.not.mpr hraise), fun k hk => ?_⟩
    rw [rankOf_union, if_neg fun he => hraise he.1, h k hk]

theorem exists_runBytes (hsmall : ∀ i, p.rankOf i < 64) (h : p.HasBytes bytes) {a : Answer n}
    (hrun : c.run p = .ok (a, q)) : ∃ bytes', c.runBytes p bytes = some bytes' ∧ q.HasBytes bytes' := by
  obtain ⟨i, j, rfl, -, rfl⟩ | ⟨i, rfl, -, rfl⟩ | ⟨i, rfl, -, rfl⟩ | ⟨i, j, rfl, -, rfl⟩ := run_cases hrun
  · obtain ⟨bytes', hbytes, hnext⟩ := exists_unionBytes hsmall h i j
    exact ⟨bytes', by rw [Call.runBytes, dif_pos ⟨i.isLt, j.isLt⟩, hbytes], hnext⟩
  · exact ⟨bytes, rfl, h⟩
  · exact ⟨bytes, rfl, h⟩
  · exact ⟨bytes, rfl, h⟩

theorem exists_bytesAll (hword : n < 2 ^ 64) (hheavy : p.Heavy) (h : p.HasBytes bytes)
    (hcalls : callAll p calls = .ok q) : ∃ bytes', p.bytesAll bytes calls = some bytes' ∧ q.HasBytes bytes' := by
  induction calls generalizing p bytes with
  | nil =>
    obtain rfl := Except.ok.inj hcalls
    exact ⟨bytes, rfl, h⟩
  | cons c calls ih =>
    obtain ⟨_, hstep, hrest⟩ := bind_eq_ok.mp hcalls
    obtain ⟨⟨a, p₁⟩, hrun, rfl⟩ := map_eq_ok.mp hstep
    obtain ⟨bytes₁, hbytes, hnext⟩ := exists_runBytes (hheavy.rankOf_lt hword) h hrun
    obtain ⟨bytes', hall, hlast⟩ := ih (heavy_run hrun hheavy) hnext hrest
    refine ⟨bytes', ?_, hlast⟩
    rw [bytesAll, hbytes, hrun]
    exact hall

/-- After any calls of elements that there are, the rank rises from every element that is no root to its parent, a root
    of rank `k` has at least `2 ^ k` elements in its class, and no rank is above the logarithm of the number of
    elements. If words of 64 bits number the elements, the ranks are below 64, and bytes kept in their place are never
    raised past the last one and hold the ranks. -/
theorem ranks_of_callAll (n : Nat) (calls : List Call) (hbelow : ∀ c ∈ calls, c.Below n) :
    ∃ p, callAll (discrete n) calls = .ok p ∧
      (∀ i, ¬ p.IsRoot i → p.rankOf i < p.rankOf (p.parentOf i)) ∧
      (∀ r, p.IsRoot r → 2 ^ p.rankOf r ≤ (p.members r).card) ∧
      (∀ i, p.rankOf i ≤ n.log2) ∧
      (n < 2 ^ 64 → (∀ i, p.rankOf i < 64) ∧
        ∃ bytes, (discrete n).bytesAll (Vector.replicate n 0) calls = some bytes ∧ p.HasBytes bytes) := by
  obtain ⟨p, hcalls, hheavy, -⟩ := exists_callAll hbelow (heavy_discrete n) fun _ _ =>
    (eq_equivalence.comap (discrete n).find).eqvGen_iff.symm
  exact ⟨p, hcalls, fun i => rankOf_lt_parentOf, hheavy, hheavy.rankOf_le_log2, fun hword =>
    ⟨hheavy.rankOf_lt hword, exists_bytesAll hword (heavy_discrete n) (hasBytes_discrete n) hcalls⟩⟩

/-- Three unions of four elements raise the rank of their root to two, and its byte with it. -/
theorem ranks_of_three_unions :
    let calls : List Call := [.union 0 1, .union 2 3, .flatten 3, .union 1 3, .flatten 3]
    (∀ c ∈ calls, c.Below 4) ∧ 4 < 2 ^ 64 ∧ ∃ p : Partition 4, callAll (discrete 4) calls = .ok p ∧
      p.rankOf 0 = 2 ∧ 2 ^ 2 ≤ (p.members 0).card ∧ p.rankOf 3 < p.rankOf (p.parentOf 3) ∧
      ∃ bytes, (discrete 4).bytesAll (Vector.replicate 4 0) calls = some bytes ∧ bytes[0].toNat = 2 := by
  intro calls
  have hbelow : ∀ c ∈ calls, c.Below 4 := by decide
  have hword : 4 < 2 ^ 64 := by decide
  obtain ⟨p, hp, hlinks, hclasses, -, hbytes⟩ := ranks_of_callAll 4 calls hbelow
  obtain ⟨-, bytes, hall, hhas⟩ := hbytes hword
  have hseen : (callAll (discrete 4) calls).map (fun p => (p.parentOf 0, p.rankOf 0, p.parentOf 3)) =
      .ok (0, 2, 0) := by decide +kernel
  rw [hp] at hseen
  obtain ⟨hroot, hrank, hparent⟩ : p.parentOf 0 = 0 ∧ p.rankOf 0 = 2 ∧ p.parentOf 3 = 0 := by
    simpa only [Prod.mk.injEq] using Except.ok.inj hseen
  refine ⟨hbelow, hword, p, hp, hrank, hrank ▸ hclasses 0 hroot, hlinks 3 ?_, bytes, hall,
    (hhas 0 (by decide)).trans hrank⟩
  intro h
  exact absurd (hparent.symm.trans h) (by decide)

end Partition
end Plonkish
