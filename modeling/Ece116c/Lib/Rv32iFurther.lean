import Ece116c.Lib.Rv32i

/-! The further instructions of RV32I, and words taken apart into the fields of a format.

    `fence`, `ecall` and `ebreak`, which concern the environment, are left out. -/

namespace Rv32i

/-! ### Instructions -/

/-- The registers and immediates of an instruction; a shift amount is in the place of `rs2`, and
    jumps and branches keep their offset from bit 1 on. -/
structure Operands where
  rd : BitVec 5
  rs1 : BitVec 5
  rs2 : BitVec 5
  imm : BitVec 12
  uimm : BitVec 20
  deriving DecidableEq, Repr

inductive Further
  | auipc | jal | beq | blt | bge | bltu | bgeu | lb | lh | lhu | sb | sh | slti | xori | andi
  | slli | srli | srai | add | sll | slt | sltu | xor | srl | or
  deriving DecidableEq, Repr

def jType (opcode : BitVec 7) (rd : BitVec 5) (imm : BitVec 20) : BitVec 32 :=
  imm.extractLsb' 19 1 ++ imm.extractLsb' 0 10 ++ imm.extractLsb' 10 1 ++ imm.extractLsb' 11 8 ++
    rd ++ opcode

def Further.encode (x : Operands) : Further → BitVec 32
  | auipc => uType 0x17 x.rd x.uimm
  | jal => jType 0x6F x.rd x.uimm
  | beq => bType 0x63 0x0 x.rs1 x.rs2 x.imm
  | blt => bType 0x63 0x4 x.rs1 x.rs2 x.imm
  | bge => bType 0x63 0x5 x.rs1 x.rs2 x.imm
  | bltu => bType 0x63 0x6 x.rs1 x.rs2 x.imm
  | bgeu => bType 0x63 0x7 x.rs1 x.rs2 x.imm
  | lb => iType 0x03 0x0 x.rd x.rs1 x.imm
  | lh => iType 0x03 0x1 x.rd x.rs1 x.imm
  | lhu => iType 0x03 0x5 x.rd x.rs1 x.imm
  | sb => sType 0x23 0x0 x.rs1 x.rs2 x.imm
  | sh => sType 0x23 0x1 x.rs1 x.rs2 x.imm
  | slti => iType 0x13 0x2 x.rd x.rs1 x.imm
  | xori => iType 0x13 0x4 x.rd x.rs1 x.imm
  | andi => iType 0x13 0x7 x.rd x.rs1 x.imm
  | slli => rType 0x13 0x1 0x00 x.rd x.rs1 x.rs2
  | srli => rType 0x13 0x5 0x00 x.rd x.rs1 x.rs2
  | srai => rType 0x13 0x5 0x20 x.rd x.rs1 x.rs2
  | add => rType 0x33 0x0 0x00 x.rd x.rs1 x.rs2
  | sll => rType 0x33 0x1 0x00 x.rd x.rs1 x.rs2
  | slt => rType 0x33 0x2 0x00 x.rd x.rs1 x.rs2
  | sltu => rType 0x33 0x3 0x00 x.rd x.rs1 x.rs2
  | xor => rType 0x33 0x4 0x00 x.rd x.rs1 x.rs2
  | srl => rType 0x33 0x5 0x00 x.rd x.rs1 x.rs2
  | or => rType 0x33 0x6 0x00 x.rd x.rs1 x.rs2

/-- The halfword at an address, lowest byte first. -/
def load16 (mem : BitVec 32 → BitVec 8) (a : BitVec 32) : BitVec 16 := mem (a + 1) ++ mem a

def store16 (mem : BitVec 32 → BitVec 8) (a v : BitVec 32) : BitVec 32 → BitVec 8 :=
  Function.update (Function.update mem a (v.extractLsb' 0 8)) (a + 1) (v.extractLsb' 8 8)

/-- Go to a branch target, or to the next instruction. -/
def State.branch (s : State) (taken : Bool) (imm : BitVec 12) : State :=
  { s with pc := if taken then s.pc + (imm ++ 0#1).signExtend 32 else s.pc + 4 }

def Further.exec (x : Operands) (s : State) : Further → State
  | auipc => s.write x.rd (s.pc + (x.uimm ++ 0#12))
  | jal =>
    { s with regs := s.regs.set x.rd (s.pc + 4), pc := s.pc + (x.uimm ++ 0#1).signExtend 32 }
  | beq => s.branch (s.regs.get x.rs1 == s.regs.get x.rs2) x.imm
  | blt => s.branch ((s.regs.get x.rs1).slt (s.regs.get x.rs2)) x.imm
  | bge => s.branch (!(s.regs.get x.rs1).slt (s.regs.get x.rs2)) x.imm
  | bltu => s.branch ((s.regs.get x.rs1).ult (s.regs.get x.rs2)) x.imm
  | bgeu => s.branch (!(s.regs.get x.rs1).ult (s.regs.get x.rs2)) x.imm
  | lb => s.write x.rd ((s.mem (s.addr x.rs1 x.imm)).signExtend 32)
  | lh => s.write x.rd ((load16 s.mem (s.addr x.rs1 x.imm)).signExtend 32)
  | lhu => s.write x.rd ((load16 s.mem (s.addr x.rs1 x.imm)).setWidth 32)
  | sb =>
    { s with
      mem := Function.update s.mem (s.addr x.rs1 x.imm) ((s.regs.get x.rs2).extractLsb' 0 8)
      pc := s.pc + 4 }
  | sh =>
    { s with mem := store16 s.mem (s.addr x.rs1 x.imm) (s.regs.get x.rs2), pc := s.pc + 4 }
  | slti => s.write x.rd (if (s.regs.get x.rs1).slt (x.imm.signExtend 32) then 1 else 0)
  | xori => s.write x.rd (s.regs.get x.rs1 ^^^ x.imm.signExtend 32)
  | andi => s.write x.rd (s.regs.get x.rs1 &&& x.imm.signExtend 32)
  | slli => s.write x.rd (s.regs.get x.rs1 <<< x.rs2.toNat)
  | srli => s.write x.rd (s.regs.get x.rs1 >>> x.rs2.toNat)
  | srai => s.write x.rd ((s.regs.get x.rs1).sshiftRight x.rs2.toNat)
  | add => s.write x.rd (s.regs.get x.rs1 + s.regs.get x.rs2)
  | sll => s.write x.rd (s.regs.get x.rs1 <<< ((s.regs.get x.rs2).toNat % 32))
  | slt => s.write x.rd (if (s.regs.get x.rs1).slt (s.regs.get x.rs2) then 1 else 0)
  | sltu => s.write x.rd (if s.regs.get x.rs1 < s.regs.get x.rs2 then 1 else 0)
  | xor => s.write x.rd (s.regs.get x.rs1 ^^^ s.regs.get x.rs2)
  | srl => s.write x.rd (s.regs.get x.rs1 >>> ((s.regs.get x.rs2).toNat % 32))
  | or => s.write x.rd (s.regs.get x.rs1 ||| s.regs.get x.rs2)

/-! ### Words as encodings -/

section Words

open Bits

variable (w : BitVec 32)

/-- Every word is its fields in the places of the R format. -/
theorem eq_rType : w = rType (w.extractLsb' 0 7) (w.extractLsb' 12 3) (w.extractLsb' 25 7)
    (w.extractLsb' 7 5) (w.extractLsb' 15 5) (w.extractLsb' 20 5) := by
  rw [rType, BitVec.extractLsb'_append_extractLsb'_eq_extractLsb' (show 25 = 20 + 5 from rfl),
    BitVec.extractLsb'_append_extractLsb'_eq_extractLsb' (show 20 = 15 + 5 from rfl),
    BitVec.extractLsb'_append_extractLsb'_eq_extractLsb' (show 15 = 12 + 3 from rfl),
    BitVec.extractLsb'_append_extractLsb'_eq_extractLsb' (show 12 = 7 + 5 from rfl),
    BitVec.extractLsb'_append_extractLsb'_eq_extractLsb' (show 7 = 0 + 7 from rfl)]
  exact slice_all.symm

theorem eq_iType : w = iType (w.extractLsb' 0 7) (w.extractLsb' 12 3) (w.extractLsb' 7 5)
    (w.extractLsb' 15 5) (w.extractLsb' 20 12) := by
  rw [iType, BitVec.extractLsb'_append_extractLsb'_eq_extractLsb' (show 20 = 15 + 5 from rfl),
    BitVec.extractLsb'_append_extractLsb'_eq_extractLsb' (show 15 = 12 + 3 from rfl),
    BitVec.extractLsb'_append_extractLsb'_eq_extractLsb' (show 12 = 7 + 5 from rfl),
    BitVec.extractLsb'_append_extractLsb'_eq_extractLsb' (show 7 = 0 + 7 from rfl)]
  exact slice_all.symm

theorem eq_uType : w = uType (w.extractLsb' 0 7) (w.extractLsb' 7 5) (w.extractLsb' 12 20) := by
  rw [uType, BitVec.extractLsb'_append_extractLsb'_eq_extractLsb' (show 12 = 7 + 5 from rfl),
    BitVec.extractLsb'_append_extractLsb'_eq_extractLsb' (show 7 = 0 + 7 from rfl)]
  exact slice_all.symm

/-- The two parts of a store's offset, put together. -/
theorem eq_sType : w = sType (w.extractLsb' 0 7) (w.extractLsb' 12 3) (w.extractLsb' 15 5)
    (w.extractLsb' 20 5) (w.extractLsb' 25 7 ++ w.extractLsb' 7 5) := by
  have hhi : (w.extractLsb' 25 7 ++ w.extractLsb' 7 5).extractLsb' 5 7 = w.extractLsb' 25 7 :=
    slice_skip slice_all
  have hlo : (w.extractLsb' 25 7 ++ w.extractLsb' 7 5).extractLsb' 0 5 = w.extractLsb' 7 5 :=
    slice_low
  rw [sType, hhi, hlo]
  exact eq_rType w

/-- The four parts of a branch offset, put together. -/
theorem eq_bType : w = bType (w.extractLsb' 0 7) (w.extractLsb' 12 3) (w.extractLsb' 15 5)
    (w.extractLsb' 20 5) (w.extractLsb' 31 1 ++ (w.extractLsb' 7 1 ++ (w.extractLsb' 25 6 ++
      w.extractLsb' 8 4))) := by
  have h12 : (w.extractLsb' 31 1 ++ (w.extractLsb' 7 1 ++ (w.extractLsb' 25 6 ++
      w.extractLsb' 8 4))).extractLsb' 11 1 = w.extractLsb' 31 1 := slice_skip slice_all
  have h11 : (w.extractLsb' 31 1 ++ (w.extractLsb' 7 1 ++ (w.extractLsb' 25 6 ++
      w.extractLsb' 8 4))).extractLsb' 10 1 = w.extractLsb' 7 1 := by
    rw [BitVec.extractLsb'_append_eq_of_add_le (by decide)]
    exact slice_skip slice_all
  have h10 : (w.extractLsb' 31 1 ++ (w.extractLsb' 7 1 ++ (w.extractLsb' 25 6 ++
      w.extractLsb' 8 4))).extractLsb' 4 6 = w.extractLsb' 25 6 := by
    rw [BitVec.extractLsb'_append_eq_of_add_le (by decide),
      BitVec.extractLsb'_append_eq_of_add_le (by decide)]
    exact slice_skip slice_all
  have h4 : (w.extractLsb' 31 1 ++ (w.extractLsb' 7 1 ++ (w.extractLsb' 25 6 ++
      w.extractLsb' 8 4))).extractLsb' 0 4 = w.extractLsb' 8 4 := by
    rw [BitVec.extractLsb'_append_eq_of_add_le (by decide),
      BitVec.extractLsb'_append_eq_of_add_le (by decide)]
    exact slice_low
  rw [bType, h12, h11, h10, h4,
    BitVec.extractLsb'_append_extractLsb'_eq_extractLsb' (show 31 = 25 + 6 from rfl),
    BitVec.extractLsb'_append_extractLsb'_eq_extractLsb' (show 25 = 20 + 5 from rfl),
    BitVec.extractLsb'_append_extractLsb'_eq_extractLsb' (show 20 = 15 + 5 from rfl),
    BitVec.extractLsb'_append_extractLsb'_eq_extractLsb' (show 15 = 12 + 3 from rfl),
    BitVec.extractLsb'_append_extractLsb'_eq_extractLsb' (show 12 = 8 + 4 from rfl),
    BitVec.extractLsb'_append_extractLsb'_eq_extractLsb' (show 8 = 7 + 1 from rfl),
    BitVec.extractLsb'_append_extractLsb'_eq_extractLsb' (show 7 = 0 + 7 from rfl)]
  exact slice_all.symm

variable {w} {opcode : BitVec 7} {funct3 : BitVec 3}

theorem exists_rType {funct7 : BitVec 7} (ho : w.extractLsb' 0 7 = opcode)
    (h3 : w.extractLsb' 12 3 = funct3) (h7 : w.extractLsb' 25 7 = funct7) :
    ∃ rd rs1 rs2, w = rType opcode funct3 funct7 rd rs1 rs2 :=
  ⟨_, _, _, ho ▸ h3 ▸ h7 ▸ eq_rType w⟩

theorem exists_iType (ho : w.extractLsb' 0 7 = opcode) (h3 : w.extractLsb' 12 3 = funct3) :
    ∃ rd rs1 imm, w = iType opcode funct3 rd rs1 imm :=
  ⟨_, _, _, ho ▸ h3 ▸ eq_iType w⟩

theorem exists_sType (ho : w.extractLsb' 0 7 = opcode) (h3 : w.extractLsb' 12 3 = funct3) :
    ∃ rs1 rs2 imm, w = sType opcode funct3 rs1 rs2 imm :=
  ⟨_, _, _, ho ▸ h3 ▸ eq_sType w⟩

theorem exists_bType (ho : w.extractLsb' 0 7 = opcode) (h3 : w.extractLsb' 12 3 = funct3) :
    ∃ rs1 rs2 imm, w = bType opcode funct3 rs1 rs2 imm :=
  ⟨_, _, _, ho ▸ h3 ▸ eq_bType w⟩

theorem exists_uType (ho : w.extractLsb' 0 7 = opcode) : ∃ rd imm, w = uType opcode rd imm :=
  ⟨_, _, ho ▸ eq_uType w⟩

end Words

end Rv32i
