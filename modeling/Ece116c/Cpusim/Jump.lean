import Ece116c.Cpusim.Refine

/-! Jumps through a register. `generate` has no case for the opcode of `jalr`, so the offset that
    the controller selects is zero. -/

namespace Cpusim

open Rv32i Bits

/-- Executing `jalr` goes to the even address below base and offset and links. -/
def JumpsAndLinks (cpu : CPU) (rd rs1 : BitVec 5) (imm : BitVec 12) : Prop :=
  ∃ cpu', cpu.execute (CPU.decode (iType 0x67 0x0 rd rs1 imm)) = some (cpu', true) ∧
    cpu'.nextPC = (cpu.effective rs1 imm &&& ~~~1#32).setWidth 64 ∧
    (∀ i, cpu'.regFile.registers i =
      if i = rd ∧ rd ≠ 0 then (cpu.currentPC + 4).setWidth 32 else cpu.regFile.registers i) ∧
    cpu'.memory = cpu.memory ∧ cpu'.currentPC = cpu.currentPC

/-- The offset stays inside the pair of bytes that the base is in. -/
def OffsetIdle (base : BitVec 32) (imm : BitVec 12) : Prop :=
  imm = 0 ∨ imm = 1 ∧ base.toNat % 2 = 0 ∨ imm = -1 ∧ base.toNat % 2 = 1

instance (base : BitVec 32) (imm : BitVec 12) : Decidable (OffsetIdle base imm) := by
  unfold OffsetIdle
  infer_instance

/-- Clearing bit 0 takes an offset out only inside the pair. -/
theorem even_add_iff (x d : BitVec 32) : x &&& ~~~1#32 = (x + d) &&& ~~~1#32 ↔
    d = 0 ∨ d = 1 ∧ x.toNat % 2 = 0 ∨ d = -1 ∧ x.toNat % 2 = 1 := by
  have h0 : (0 : BitVec 32).toNat = 0 := rfl
  have h1 : (1 : BitVec 32).toNat = 1 := rfl
  have hn : (-1 : BitVec 32).toNat = 2 ^ 32 - 1 := rfl
  have hx := x.isLt
  have hd := d.isLt
  rw [← BitVec.toNat_inj, ← BitVec.toNat_inj (x := d), ← BitVec.toNat_inj (x := d) (y := 1),
    ← BitVec.toNat_inj (x := d) (y := -1), toNat_even, toNat_even, BitVec.toNat_add, h0, h1, hn]
  omega

theorem offsetIdle_iff (base : BitVec 32) (imm : BitVec 12) : OffsetIdle base imm ↔
    base &&& ~~~1#32 = (base + imm.signExtend 32) &&& ~~~1#32 := by
  have h0 : imm.signExtend 32 = (0 : BitVec 12).signExtend 32 ↔ imm = 0 :=
    signExtend_inj (by decide)
  have h1 : imm.signExtend 32 = (1 : BitVec 12).signExtend 32 ↔ imm = 1 :=
    signExtend_inj (by decide)
  have hn : imm.signExtend 32 = (-1 : BitVec 12).signExtend 32 ↔ imm = -1 :=
    signExtend_inj (by decide)
  rw [even_add_iff, OffsetIdle, ← h0, ← h1, ← hn]
  rfl

/-- **A jump through a register.** It goes where it should, with the right link, if and only if
    its offset makes no difference. -/
theorem jump_and_link (cpu : CPU) (rd rs1 : BitVec 5) (imm : BitVec 12) :
    JumpsAndLinks cpu rd rs1 imm ↔ OffsetIdle (cpu.regFile.registers rs1) imm := by
  rw [JumpsAndLinks, execute_iType_link, offsetIdle_iff]
  constructor
  · rintro ⟨cpu', hx, hpc, -⟩
    cases hx
    exact (setWidth_inj (by decide)).mp hpc
  · intro h
    exact ⟨_, rfl, congrArg (BitVec.setWidth 64) h, write_registers _ _ _, rfl, rfl⟩

/-- `jalr x1, 8(x0)` jumps to 0. -/
theorem jump_and_link_lost : ¬JumpsAndLinks CPU.init 1 0 8 := by
  rw [JumpsAndLinks, execute_iType_link]
  rintro ⟨cpu', hx, hpc, -⟩
  cases hx
  exact absurd hpc (by decide)

end Cpusim
