import Ece116c.Predict.WarmUp

/-! Freedom from self-aliasing: under different histories a branch uses different entries of the
    global tables and, since the histories of a run are parts of one another, of `choice_tab`. -/

namespace Predict

section Index

variable {h h' pc : BitVec 32} {i : Fin 4}

theorem historyLength_le_tableBits : ∀ i, historyLength i ≤ tableBits i
  | 0 | 1 | 2 | 3 => by decide

/-- The shift puts a history into the highest bits of its index. -/
theorem globalIndex_inj (hh : h.toNat < 2 ^ historyLength i) (hh' : h'.toNat < 2 ^ historyLength i)
    (heq : globalIndex i h pc = globalIndex i h' pc) : h = h' := by
  have hsum := Nat.add_sub_of_le (historyLength_le_tableBits i)
  have hbits := tableBits_lt i
  have hroom : ∀ x : BitVec 32, x.toNat < 2 ^ historyLength i →
      (x <<< (tableBits i - historyLength i)).toNat < 2 ^ tableBits i := by
    intro x hx
    rw [← hsum, Nat.add_sub_cancel_left]
    exact Bits.shiftLeft_lt hx
  have hshift := Bits.xor_mask_inj hbits (hroom h hh) (hroom h' hh') heq
  exact Bits.shiftLeft_inj (by omega) hh hh' hshift

/-- The index into `choice_tab`. -/
def choiceIndex (pc long medium : BitVec 32) : BitVec 32 :=
  (pc ^^^ long ^^^ (medium <<< 3)) &&& mask choiceBits

theorem choiceIndex_inj (hh : h.toNat < 2 ^ historyLength 0) (hh' : h'.toNat < 2 ^ historyLength 0)
    (heq : choiceIndex pc h (h &&& mask (historyLength 1)) =
      choiceIndex pc h' (h' &&& mask (historyLength 1))) : h = h' := by
  have hmix : ∀ x m : BitVec 32, pc ^^^ x ^^^ (m <<< 3) = (x ^^^ (m <<< 3)) ^^^ pc := by
    intro x m
    rw [BitVec.xor_assoc, BitVec.xor_comm]
  have hroom : ∀ x : BitVec 32, x.toNat < 2 ^ historyLength 0 →
      (x ^^^ ((x &&& mask (historyLength 1)) <<< 3)).toNat < 2 ^ choiceBits := by
    intro x hx
    have hlow := mask_lt (by decide : historyLength 1 < 32) x
    have hshift : ((x &&& mask (historyLength 1)) <<< 3).toNat < 2 ^ choiceBits :=
      lt_trans (Bits.shiftLeft_lt hlow) (by decide)
    rw [BitVec.toNat_xor]
    exact Nat.xor_lt_two_pow (lt_trans hx (by decide)) hshift
  rw [choiceIndex, choiceIndex, hmix, hmix] at heq
  have hxor := Bits.xor_mask_inj (by decide : choiceBits < 32) (hroom h hh) (hroom h' hh') heq
  exact Bits.xor_shift_low_inj (by decide) hxor

end Index

section Reachable

variable {p : MyPredictor} {due : Bool}

/-- In a run every history has its length. -/
theorem Reachable.history_lt (hp : Reachable due p) (i : Fin 4) :
    (p.history i).toNat < 2 ^ historyLength i := by
  obtain ⟨l, hrep, -⟩ := hp.rep
  rw [hrep.history_shorter i]
  exact Nat.mod_lt _ (Nat.two_pow_pos _)

/-- And the medium one is the lower part of the long one. -/
theorem Reachable.historyMedium_eq (hp : Reachable due p) :
    p.historyMedium = p.historyLong &&& mask (historyLength 1) := by
  obtain ⟨l, hrep, -⟩ := hp.rep
  apply BitVec.eq_of_toNat_eq
  rw [mask_toNat (by decide)]
  exact hrep.history_shorter 1

theorem lookup_choiceIndex (p : MyPredictor) (b : BranchInfo) :
    (p.lookup b).choiceIndex = choiceIndex (b.address >>> 2) p.historyLong p.historyMedium := rfl

end Reachable

/-- Freedom from self-aliasing: at two states of any runs, `predict` gives a branch different
    indices into global table `i` when its histories `i` differ, and different indices into
    `choice_tab` when its long histories do. -/
theorem no_self_aliasing {due due' : Bool} {p q : MyPredictor} (hp : Reachable due p)
    (hq : Reachable due' q) {b : BranchInfo} (hb : b.conditional = true) :
    (∀ i, p.history i ≠ q.history i → (p.predict b).u.index i ≠ (q.predict b).u.index i) ∧
    (p.historyLong ≠ q.historyLong →
      (p.predict b).u.choiceIndex ≠ (q.predict b).u.choiceIndex) := by
  rw [predict_u p hb, predict_u q hb]
  constructor
  · intro i hne heq
    exact hne (globalIndex_inj (hp.history_lt i) (hq.history_lt i) heq)
  · intro hne heq
    rw [lookup_choiceIndex, lookup_choiceIndex, hp.historyMedium_eq, hq.historyMedium_eq] at heq
    exact hne (choiceIndex_inj (hp.history_lt 0) (hq.history_lt 0) heq)

/-- A branch before and after it was taken. -/
theorem no_self_aliasing_taken :
    let p := MyPredictor.new ⟨⟨false, 0⟩, fun _ => 0, 0, 0, 0, fun _ => false, false, 0⟩ ⟨0, 0, 0⟩
    let q := p.branch ⟨true, 64, ⟨8, 0, 1⟩⟩
    (p.predict ⟨8, 0, 1⟩).u.choiceIndex ≠ (q.predict ⟨8, 0, 1⟩).u.choiceIndex := by
  intro p q
  have hp : Reachable false p := Reachable.new _ _
  have hq : Reachable false q := (hp.predict _).update _ _
  exact (no_self_aliasing hp hq (by decide)).2 (by decide)

end Predict
