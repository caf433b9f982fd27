import Ece116c.Cpusim.Machine
import Ece116c.Lib.Rv32i

/-! What `decode` reads out of a word, as slices: every field is a slice of the instruction, and
    the immediate is the sign extension of the slices of its format. -/

namespace Cpusim

open Bits

/-! ### Fields -/

/-- A field of `n` bits at `k`, as `decode` reads it. -/
theorem field_eq (w : BitVec 32) (k n : ℕ) {mask : BitVec 32}
    (hm : mask = (BitVec.allOnes n).setWidth 32) :
    ((w >>> k) &&& mask).setWidth 8 = (w.extractLsb' k n).setWidth 8 := by
  rw [shift_mask w k n hm]
  exact BitVec.setWidth_setWidth_of_le _ (by decide)

namespace CPU

variable (w : BitVec 32)

theorem decode_opcode : (decode w).opcode = (w.extractLsb' 0 7).setWidth 8 := by
  have h : w &&& 0x7F#32 = (w.extractLsb' 0 7).setWidth 32 := low_mask w 7 rfl
  have h8 : ((w.extractLsb' 0 7).setWidth 32).setWidth 8 = (w.extractLsb' 0 7).setWidth 8 :=
    BitVec.setWidth_setWidth_of_le _ (by decide)
  rw [decode, h, h8]

theorem decode_opcode_of {w : BitVec 32} {o : BitVec 7} (h : w.extractLsb' 0 7 = o) :
    (decode w).opcode = o.setWidth 8 := by
  rw [decode_opcode, h]

theorem decode_funct3 : (decode w).funct3 = (w.extractLsb' 12 3).setWidth 8 :=
  field_eq w 12 3 rfl

theorem decode_funct7 : (decode w).funct7 = (w.extractLsb' 25 7).setWidth 8 :=
  field_eq w 25 7 rfl

theorem decode_rs1 : (decode w).rs1 = (w.extractLsb' 15 5).setWidth 8 := field_eq w 15 5 rfl

theorem decode_rs2 : (decode w).rs2 = (w.extractLsb' 20 5).setWidth 8 := field_eq w 20 5 rfl

theorem decode_rd : (decode w).rd = (w.extractLsb' 7 5).setWidth 8 := field_eq w 7 5 rfl

end CPU

/-! ### Immediates -/

section Immediates

variable {w : BitVec 32}

theorem opcode_eq : (w &&& 0x7F#32).setWidth 8 = (w.extractLsb' 0 7).setWidth 8 :=
  CPU.decode_opcode w

theorem opcode_iff {a b : BitVec 7} : a.setWidth 8 = b.setWidth 8 ↔ a = b :=
  setWidth_inj (by decide)

/-- The test of the sign bit and the `|=` are sign extension. -/
theorem signFill_eq {n : ℕ} (x : BitVec n) (hn : 0 < n) (hw : n ≤ 32) {sign high : BitVec 32}
    (hs : sign = BitVec.twoPow 32 (n - 1)) (hh : high = BitVec.allOnes 32 <<< n) :
    signFill (x.setWidth 32) sign high = x.signExtend 32 := sign_or x hn hw hs hh

theorem generate_i (h : w.extractLsb' 0 7 = 0x13#7 ∨ w.extractLsb' 0 7 = 0x03#7) :
    generate w = (w.extractLsb' 20 12).signExtend 32 := by
  have hp : (w >>> 20) &&& 0xFFF#32 = (w.extractLsb' 20 12).setWidth 32 := shift_mask w 20 12 rfl
  have hs : signFill ((w >>> 20) &&& 0xFFF#32) 0x800#32 0xFFFFF000#32 =
      (w.extractLsb' 20 12).signExtend 32 := by
    rw [hp]
    exact signFill_eq _ (by decide) (by decide) rfl rfl
  rw [generate, opcode_eq]
  rcases h with h | h <;> simpa [h] using hs

theorem generate_s (h : w.extractLsb' 0 7 = 0x23#7) :
    generate w = (w.extractLsb' 25 7 ++ w.extractLsb' 7 5).signExtend 32 := by
  have hhi : (w >>> 25) &&& 0x7F#32 = (w.extractLsb' 25 7).setWidth 32 := shift_mask w 25 7 rfl
  have hlo : (w >>> 7) &&& 0x1F#32 = (w.extractLsb' 7 5).setWidth 32 := shift_mask w 7 5 rfl
  have hs : signFill ((((w >>> 25) &&& 0x7F#32) <<< 5) ||| ((w >>> 7) &&& 0x1F#32))
      0x800#32 0xFFFFF000#32 = (w.extractLsb' 25 7 ++ w.extractLsb' 7 5).signExtend 32 := by
    rw [hhi, hlo, shift_or]
    exact signFill_eq _ (by decide) (by decide) rfl rfl
  rw [generate, opcode_eq]
  simpa [h] using hs

/-- The parts of a branch offset, in place. -/
theorem branch_parts (a : BitVec 1) (b : BitVec 1) (c : BitVec 6) (d : BitVec 4) :
    (a.setWidth 32 <<< 12) ||| (b.setWidth 32 <<< 11) ||| (c.setWidth 32 <<< 5) |||
      (d.setWidth 32 <<< 1) = ((a ++ (b ++ (c ++ d))) ++ 0#1).setWidth 32 := by
  have hz : ∀ x : BitVec 32, x <<< 1 ||| (0#1).setWidth 32 = x <<< 1 := fun x => by simp
  have ha : a.setWidth 32 <<< 12 = (a.setWidth 32 <<< 11) <<< 1 := BitVec.shiftLeft_add _ 11 1
  have hb : b.setWidth 32 <<< 11 = (b.setWidth 32 <<< 10) <<< 1 := BitVec.shiftLeft_add _ 10 1
  have hc : c.setWidth 32 <<< 5 = (c.setWidth 32 <<< 4) <<< 1 := BitVec.shiftLeft_add _ 4 1
  rw [← shift_or, ← shift_or (w := 32) a, ← shift_or, ← shift_or, hz]
  rw [ha, hb, hc, ← BitVec.shiftLeft_or_distrib, ← BitVec.shiftLeft_or_distrib,
    ← BitVec.shiftLeft_or_distrib, BitVec.or_assoc, BitVec.or_assoc]

theorem generate_b (h : w.extractLsb' 0 7 = 0x63#7) :
    generate w = ((w.extractLsb' 31 1 ++ (w.extractLsb' 7 1 ++ (w.extractLsb' 25 6 ++
      w.extractLsb' 8 4))) ++ 0#1).signExtend 32 := by
  have h12 : (w >>> 31) &&& 0x1#32 = (w.extractLsb' 31 1).setWidth 32 := shift_mask w 31 1 rfl
  have h11 : (w >>> 7) &&& 0x1#32 = (w.extractLsb' 7 1).setWidth 32 := shift_mask w 7 1 rfl
  have h10 : (w >>> 25) &&& 0x3F#32 = (w.extractLsb' 25 6).setWidth 32 := shift_mask w 25 6 rfl
  have h4 : (w >>> 8) &&& 0xF#32 = (w.extractLsb' 8 4).setWidth 32 := shift_mask w 8 4 rfl
  have hs : signFill (((w.extractLsb' 31 1 ++ (w.extractLsb' 7 1 ++ (w.extractLsb' 25 6 ++
      w.extractLsb' 8 4))) ++ 0#1).setWidth 32) 0x1000#32 0xFFFFE000#32 = _ :=
    signFill_eq _ (by decide) (by decide) rfl rfl
  rw [generate, opcode_eq, h12, h11, h10, h4, branch_parts]
  simpa [h] using hs

theorem generate_u (h : w.extractLsb' 0 7 = 0x37#7) :
    generate w = w.extractLsb' 12 20 ++ 0#12 := by
  have hp : (w >>> 12) &&& 0xFFFFF#32 = (w.extractLsb' 12 20).setWidth 32 := shift_mask w 12 20 rfl
  have hs : ((w >>> 12) &&& 0xFFFFF#32) <<< 12 = w.extractLsb' 12 20 ++ 0#12 := by
    have h0 : (w.extractLsb' 12 20).setWidth 32 <<< 12 ||| (0#12).setWidth 32 =
      (w.extractLsb' 12 20 ++ 0#12).setWidth 32 := shift_or _ _
    rw [hp]
    simpa using h0
  rw [generate, opcode_eq]
  simpa [h] using hs

/-- The other formats have no immediate. -/
theorem generate_other (h13 : w.extractLsb' 0 7 ≠ 0x13#7) (h03 : w.extractLsb' 0 7 ≠ 0x03#7)
    (h23 : w.extractLsb' 0 7 ≠ 0x23#7) (h63 : w.extractLsb' 0 7 ≠ 0x63#7)
    (h37 : w.extractLsb' 0 7 ≠ 0x37#7) : generate w = 0 := by
  have n13 : (w.extractLsb' 0 7).setWidth 8 ≠ 0x13#8 := mt (opcode_iff (b := 0x13#7)).mp h13
  have n03 : (w.extractLsb' 0 7).setWidth 8 ≠ 0x03#8 := mt (opcode_iff (b := 0x03#7)).mp h03
  have n23 : (w.extractLsb' 0 7).setWidth 8 ≠ 0x23#8 := mt (opcode_iff (b := 0x23#7)).mp h23
  have n63 : (w.extractLsb' 0 7).setWidth 8 ≠ 0x63#8 := mt (opcode_iff (b := 0x63#7)).mp h63
  have n37 : (w.extractLsb' 0 7).setWidth 8 ≠ 0x37#8 := mt (opcode_iff (b := 0x37#7)).mp h37
  rw [generate, opcode_eq]
  simp [n13, n03, n23, n63, n37]

end Immediates

end Cpusim
