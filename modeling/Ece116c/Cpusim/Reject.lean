import Ece116c.Cpusim.Refine
import Ece116c.Lib.Rv32iFurther

/-! Which words `execute` turns down. The controller goes by the opcode and `getALUOperation` by
    the function codes of two opcodes only, so a branch, load, store or register operation that the
    processor does not have can run as one that it has. -/

namespace Cpusim

open Rv32i Bits

/-! ### The flag -/

/-- The operation that the controller and `getALUOperation` choose. -/
def aluOperation (parts : InstructionParts) : ALUOperation :=
  getALUOperation (setControlSignals parts.opcode).aluOp parts

theorem aluOp_of_valid {parts : InstructionParts} (h : aluOperation parts ≠ .invalid) :
    (setControlSignals parts.opcode).aluOp ≠ .invalid := by
  intro h0
  rw [aluOperation, h0] at h
  exact h rfl

/-- A valid operation never returns false. -/
theorem execute_valid {cpu cpu' : CPU} {parts : InstructionParts} {b : Bool}
    (h : aluOperation parts ≠ .invalid) (hx : cpu.execute parts = some (cpu', b)) : b = true := by
  rw [CPU.execute, if_neg (aluOp_of_valid h)] at hx
  simp only [aluOperation] at h
  simp only [if_neg h, Option.bind_eq_some_iff, Option.map_eq_some_iff, Prod.mk.injEq] at hx
  obtain ⟨-, -, -, -, -, hb⟩ := hx
  exact hb.symm

/-- `execute` turns a word down exactly for an invalid operation. -/
theorem execute_false_iff (cpu : CPU) (parts : InstructionParts) :
    cpu.execute parts = some (cpu, false) ↔ aluOperation parts = .invalid := by
  refine ⟨fun hx => ?_, cpu.execute_invalid⟩
  by_contra h
  exact absurd (execute_valid h hx) (by decide)

/-! ### Words by their fields -/

/-- The opcodes and function codes with a valid operation. -/
def AcceptedAt (opcode : BitVec 7) (funct3 : BitVec 3) (funct7 : BitVec 7) : Prop :=
  (opcode = 0x33 ∨ opcode = 0x13) ∧
    (opcode = 0x13 ∧ funct3 = 0x0 ∨ funct3 = 0x3 ∨ funct3 = 0x6 ∨ funct3 = 0x7 ∨
      (funct3 = 0x0 ∨ funct3 = 0x5) ∧ funct7 = 0x20) ∨
  opcode = 0x03 ∨ opcode = 0x23 ∨ opcode = 0x63 ∨ opcode = 0x37 ∨ opcode = 0x67

/-- Register operations 3, 6 and 7 with another `funct7`, loads but `lw` and `lbu`, stores but `sw`
    and `sh`, branches but `bne`, and `jalr` with another `funct3`. -/
def MisreadAt (opcode : BitVec 7) (funct3 : BitVec 3) (funct7 : BitVec 7) : Prop :=
  opcode = 0x33 ∧ (funct3 = 0x3 ∨ funct3 = 0x6 ∨ funct3 = 0x7) ∧ funct7 ≠ 0x00 ∨
  opcode = 0x03 ∧ funct3 ≠ 0x2 ∧ funct3 ≠ 0x4 ∨
  opcode = 0x23 ∧ funct3 ≠ 0x1 ∧ funct3 ≠ 0x2 ∨
  opcode = 0x63 ∧ funct3 ≠ 0x1 ∨
  opcode = 0x67 ∧ funct3 ≠ 0x0

def Accepted (w : BitVec 32) : Prop :=
  AcceptedAt (w.extractLsb' 0 7) (w.extractLsb' 12 3) (w.extractLsb' 25 7)

def Misread (w : BitVec 32) : Prop :=
  MisreadAt (w.extractLsb' 0 7) (w.extractLsb' 12 3) (w.extractLsb' 25 7)

instance (w : BitVec 32) : Decidable (Misread w) := by
  unfold Misread MisreadAt
  infer_instance

/-- The function codes that `getALUOperation` knows. -/
theorem func_valid_iff (parts : InstructionParts) : getALUOperation .func parts ≠ .invalid ↔
    parts.opcode = 0x13 ∧ parts.funct3 = 0x0 ∨ parts.funct3 = 0x3 ∨ parts.funct3 = 0x6 ∨
      parts.funct3 = 0x7 ∨ (parts.funct3 = 0x0 ∨ parts.funct3 = 0x5) ∧ parts.funct7 = 0x20 := by
  unfold getALUOperation
  split_ifs <;> simp_all

/-- The opcodes that the controller knows. -/
theorem valid_iff (parts : InstructionParts) : aluOperation parts ≠ .invalid ↔
    (parts.opcode = 0x33 ∨ parts.opcode = 0x13) ∧ getALUOperation .func parts ≠ .invalid ∨
      parts.opcode = 0x03 ∨ parts.opcode = 0x23 ∨ parts.opcode = 0x63 ∨ parts.opcode = 0x37 ∨
      parts.opcode = 0x67 := by
  unfold aluOperation setControlSignals
  split_ifs with h33 h13 h03 h23 h63 h37 h67
  · simp [h33]
  · simp [h13]
  · simp [h03, getALUOperation]
  · simp [h23, getALUOperation]
  · simp [h63, getALUOperation]
  · simp [h37, getALUOperation]
  · simp [h67, getALUOperation]
  · exact iff_of_false (fun h => h rfl) (by tauto)

theorem code3_iff {a b : BitVec 3} : a.setWidth 8 = b.setWidth 8 ↔ a = b :=
  setWidth_inj (by decide)

theorem aluOperation_decode (w : BitVec 32) :
    aluOperation (CPU.decode w) ≠ .invalid ↔ Accepted w := by
  have h13 : (w.extractLsb' 0 7).setWidth 8 = 0x13#8 ↔ _ = 0x13#7 := opcode_iff (b := 0x13#7)
  have h33 : (w.extractLsb' 0 7).setWidth 8 = 0x33#8 ↔ _ = 0x33#7 := opcode_iff (b := 0x33#7)
  have h03 : (w.extractLsb' 0 7).setWidth 8 = 0x03#8 ↔ _ = 0x03#7 := opcode_iff (b := 0x03#7)
  have h23 : (w.extractLsb' 0 7).setWidth 8 = 0x23#8 ↔ _ = 0x23#7 := opcode_iff (b := 0x23#7)
  have h63 : (w.extractLsb' 0 7).setWidth 8 = 0x63#8 ↔ _ = 0x63#7 := opcode_iff (b := 0x63#7)
  have h37 : (w.extractLsb' 0 7).setWidth 8 = 0x37#8 ↔ _ = 0x37#7 := opcode_iff (b := 0x37#7)
  have h67 : (w.extractLsb' 0 7).setWidth 8 = 0x67#8 ↔ _ = 0x67#7 := opcode_iff (b := 0x67#7)
  have f0 : (w.extractLsb' 12 3).setWidth 8 = 0x0#8 ↔ _ = 0x0#3 := code3_iff (b := 0x0#3)
  have f3 : (w.extractLsb' 12 3).setWidth 8 = 0x3#8 ↔ _ = 0x3#3 := code3_iff (b := 0x3#3)
  have f5 : (w.extractLsb' 12 3).setWidth 8 = 0x5#8 ↔ _ = 0x5#3 := code3_iff (b := 0x5#3)
  have f6 : (w.extractLsb' 12 3).setWidth 8 = 0x6#8 ↔ _ = 0x6#3 := code3_iff (b := 0x6#3)
  have f7 : (w.extractLsb' 12 3).setWidth 8 = 0x7#8 ↔ _ = 0x7#3 := code3_iff (b := 0x7#3)
  have f20 : (w.extractLsb' 25 7).setWidth 8 = 0x20#8 ↔ _ = 0x20#7 := opcode_iff (b := 0x20#7)
  rw [valid_iff, func_valid_iff, CPU.decode_opcode, CPU.decode_funct3, CPU.decode_funct7, Accepted,
    AcceptedAt]
  simp only [BitVec.ofNat_eq_ofNat, h13, h33, h03, h23, h63, h37, h67, f0, f3, f5, f6, f7, f20]

/-! ### Further instructions -/

/-- Executing any encoding of the instruction does what the manual says. -/
def Executes (i : Further) : Prop :=
  ∀ (x : Operands) (cpu : CPU) (s : State), At cpu s →
    ∃ cpu', cpu.execute (CPU.decode (i.encode x)) = some (cpu', true) ∧ Rep cpu' (i.exec x s)

theorem executes_andi : Executes .andi := by
  intro x cpu s h
  have ho : ∀ parts : InstructionParts, parts.opcode = 0x13 → parts.funct3 = 0x7 →
      getALUOperation .func parts = .and := fun parts ho hf => by simp [getALUOperation, ho, hf]
  exact exec_i h x.rd x.rs1 x.imm 0x7 (by decide) fun parts hp hf _ => ho parts hp hf

/-- A shift amount is the low half of an I-type immediate. -/
theorem executes_srai : Executes .srai := by
  intro x cpu s h
  have ho : ∀ parts : InstructionParts, parts.opcode = 0x13 → parts.funct3 = 0x5 →
      parts.funct7 = 0x20 → getALUOperation .func parts = .sra :=
    fun parts ho hf hf7 => by simp [getALUOperation, ho, hf, hf7]
  have hi : (0x20#7 ++ x.rs2).extractLsb' 5 7 = 0x20#7 := slice_skip slice_all
  have ha : ∀ b : BitVec 5, ((0x20#7 ++ b).signExtend 32 &&& 0x1F#32).toNat = b.toNat := by decide
  have hx := exec_i h x.rd x.rs1 (0x20#7 ++ x.rs2) 0x5 (by decide)
    fun parts hp hf hf7 => ho parts hp hf (by rw [hf7, hi]; rfl)
  rwa [compute, ha] at hx

theorem executes_sltu : Executes .sltu := by
  intro x cpu s h
  have ho : ∀ parts : InstructionParts, parts.opcode = 0x33 → parts.funct3 = 0x3 →
      parts.funct7 = 0x00 → getALUOperation .func parts = .sltu :=
    fun parts ho hf _ => by simp [getALUOperation, ho, hf]
  exact exec_r h x.rd x.rs1 x.rs2 0x3 0x00 (by decide) ho

theorem executes_or : Executes .or := by
  intro x cpu s h
  have ho : ∀ parts : InstructionParts, parts.opcode = 0x33 → parts.funct3 = 0x6 →
      parts.funct7 = 0x00 → getALUOperation .func parts = .or :=
    fun parts ho hf _ => by simp [getALUOperation, ho, hf]
  exact exec_r h x.rd x.rs1 x.rs2 0x6 0x00 (by decide) ho

/-- Registers zero but for `x1 = -1`. -/
def probeRegs : Regs := Regs.init.set 1 (-1)

/-- Operands that tell the instruction from what is executed in its place. -/
def probe : Further → Operands
  | .blt => ⟨0, 0, 1, 8, 0⟩
  | .bltu => ⟨0, 1, 0, 8, 0⟩
  | .sb | .sh => ⟨0, 0, 1, 0, 0⟩
  | _ => ⟨1, 0, 0, 8, 0⟩

/-- What shows in the processor, and what should show. -/
theorem Executes.observed {i : Further} (h : Executes i) (x : Operands) :
    (CPU.execute ⟨⟨probeRegs.get⟩, Memory.init, 0, 0⟩ (CPU.decode (i.encode x))).map (fun r =>
      (r.1.nextPC, r.1.regFile.registers 1, r.1.memory.memory 1, r.1.memory.memory 2, r.2)) =
      some ((i.exec x ⟨probeRegs, fun _ => 0, 0⟩).pc.setWidth 64,
        (i.exec x ⟨probeRegs, fun _ => 0, 0⟩).regs.get 1,
        (i.exec x ⟨probeRegs, fun _ => 0, 0⟩).mem 1,
        (i.exec x ⟨probeRegs, fun _ => 0, 0⟩).mem 2, true) := by
  obtain ⟨cpu', hx, hregs, hmem, hpc⟩ := h x ⟨⟨probeRegs.get⟩, Memory.init, 0, 0⟩
    ⟨probeRegs, fun _ => 0, 0⟩ ⟨rfl, rfl, rfl⟩
  rw [hx, Option.map_some, hregs, hmem, hpc]

/-- Of the further instructions the processor has four. -/
theorem executes_iff (i : Further) :
    Executes i ↔ i = .andi ∨ i = .srai ∨ i = .sltu ∨ i = .or := by
  constructor
  · intro h
    have hx := h.observed (probe i)
    cases i <;> first | decide | exact absurd hx (by decide)
  · rintro (rfl | rfl | rfl | rfl)
    · exact executes_andi
    · exact executes_srai
    · exact executes_sltu
    · exact executes_or

/-! ### What is executed and what is turned down -/

/-- An encoding of one of the thirteen instructions. -/
def Implemented (w : BitVec 32) : Prop :=
  (∃ i : Instr, w = i.encode) ∨ ∃ x, w = Further.sh.encode x

/-- An encoding of a further instruction that is executed as the manual has it; the opcodes of
    `fence`, `ecall` and `ebreak` are turned down. -/
def FurtherRight (w : BitVec 32) : Prop := ∃ i x, w = Further.encode x i ∧ Executes i

/-- The function codes of loads, stores, branches and `jalr` are not looked at before they run. -/
theorem Misread.accepted {w : BitVec 32} (h : Misread w) : Accepted w := by
  obtain ⟨ho, h3, -⟩ | ⟨ho, -⟩ | ⟨ho, -⟩ | ⟨ho, -⟩ | ⟨ho, -⟩ := h
  · obtain h3 | h3 | h3 := h3 <;> simp [Accepted, AcceptedAt, ho, h3]
  all_goals simp [Accepted, AcceptedAt, ho]

/-- An encoding with an opcode and a `funct3` that are never misread. -/
theorem Fields.not_misread {o : BitVec 7} {f3 : BitVec 3} {rs1 : BitVec 5} {w : BitVec 32}
    (h : Fields o f3 rs1 w) (hs : ∀ f7, ¬MisreadAt o f3 f7) : ¬Misread w := by
  rw [Misread, h.opcode, h.funct3]
  exact hs _

/-- Nor is a register operation with `funct7` zero. -/
theorem not_misread_rType (f3 : BitVec 3) (rd rs1 rs2 : BitVec 5) :
    ¬Misread (rType 0x33 f3 0x00 rd rs1 rs2) := by
  rw [Misread, (rType_fields _ _ _ _ _ _).opcode, rType_funct7]
  simp [MisreadAt]

theorem Implemented.not_misread {w : BitVec 32} (h : Implemented w) : ¬Misread w := by
  obtain ⟨i, rfl⟩ | ⟨x, rfl⟩ := h
  · cases i with
    | lui rd u =>
      rw [Misread, Instr.encode, uType_opcode]
      simp [MisreadAt]
    | addi | ori | sltiu | lw | lbu | jalr =>
      exact Fields.not_misread (iType_fields _ _ _ _ _) fun _ => by simp [MisreadAt]
    | and rd rs1 rs2 => exact not_misread_rType 0x7 rd rs1 rs2
    | sub | sra => exact Fields.not_misread (rType_fields _ _ _ _ _ _) fun _ => by simp [MisreadAt]
    | sw => exact Fields.not_misread (sType_fields _ _ _ _ _) fun _ => by simp [MisreadAt]
    | bne => exact Fields.not_misread (bType_fields _ _ _ _ _) fun _ => by simp [MisreadAt]
  · exact Fields.not_misread (sType_fields _ _ _ _ _) fun _ => by simp [MisreadAt]

theorem FurtherRight.not_misread {w : BitVec 32} (h : FurtherRight w) : ¬Misread w := by
  obtain ⟨i, x, rfl, hx⟩ := h
  obtain rfl | rfl | rfl | rfl := (executes_iff i).mp hx
  · exact Fields.not_misread (iType_fields _ _ _ _ _) fun _ => by simp [MisreadAt]
  · exact Fields.not_misread (rType_fields _ _ _ _ _ _) fun _ => by simp [MisreadAt]
  · exact not_misread_rType 0x3 x.rd x.rs1 x.rs2
  · exact not_misread_rType 0x6 x.rd x.rs1 x.rs2

section Cases

variable {w : BitVec 32}

theorem accepted_register (ho : w.extractLsb' 0 7 = 0x33)
    (h3 : w.extractLsb' 12 3 = 0x3 ∨ w.extractLsb' 12 3 = 0x6 ∨ w.extractLsb' 12 3 = 0x7 ∨
      (w.extractLsb' 12 3 = 0x0 ∨ w.extractLsb' 12 3 = 0x5) ∧ w.extractLsb' 25 7 = 0x20) :
    Implemented w ∨ FurtherRight w ∨ Misread w := by
  by_cases h7 : w.extractLsb' 25 7 = 0x00
  · obtain h3 | h3 | h3 | ⟨-, h20⟩ := h3
    · obtain ⟨rd, rs1, rs2, rfl⟩ := exists_rType ho h3 h7
      exact .inr (.inl ⟨.sltu, ⟨rd, rs1, rs2, 0, 0⟩, rfl, executes_sltu⟩)
    · obtain ⟨rd, rs1, rs2, rfl⟩ := exists_rType ho h3 h7
      exact .inr (.inl ⟨.or, ⟨rd, rs1, rs2, 0, 0⟩, rfl, executes_or⟩)
    · obtain ⟨rd, rs1, rs2, rfl⟩ := exists_rType ho h3 h7
      exact .inl (.inl ⟨.and rd rs1 rs2, rfl⟩)
    · exact absurd (h7.symm.trans h20) (by decide)
  · obtain h3 | h3 | h3 | ⟨h3 | h3, h20⟩ := h3
    · exact .inr (.inr (.inl ⟨ho, .inl h3, h7⟩))
    · exact .inr (.inr (.inl ⟨ho, .inr (.inl h3), h7⟩))
    · exact .inr (.inr (.inl ⟨ho, .inr (.inr h3), h7⟩))
    · obtain ⟨rd, rs1, rs2, rfl⟩ := exists_rType ho h3 h20
      exact .inl (.inl ⟨.sub rd rs1 rs2, rfl⟩)
    · obtain ⟨rd, rs1, rs2, rfl⟩ := exists_rType ho h3 h20
      exact .inl (.inl ⟨.sra rd rs1 rs2, rfl⟩)

theorem accepted_immediate (ho : w.extractLsb' 0 7 = 0x13)
    (h3 : w.extractLsb' 12 3 = 0x0 ∨ w.extractLsb' 12 3 = 0x3 ∨ w.extractLsb' 12 3 = 0x6 ∨
      w.extractLsb' 12 3 = 0x7 ∨ w.extractLsb' 12 3 = 0x5 ∧ w.extractLsb' 25 7 = 0x20) :
    Implemented w ∨ FurtherRight w := by
  obtain h3 | h3 | h3 | h3 | ⟨h3, h20⟩ := h3
  · obtain ⟨rd, rs1, imm, rfl⟩ := exists_iType ho h3
    exact .inl (.inl ⟨.addi rd rs1 imm, rfl⟩)
  · obtain ⟨rd, rs1, imm, rfl⟩ := exists_iType ho h3
    exact .inl (.inl ⟨.sltiu rd rs1 imm, rfl⟩)
  · obtain ⟨rd, rs1, imm, rfl⟩ := exists_iType ho h3
    exact .inl (.inl ⟨.ori rd rs1 imm, rfl⟩)
  · obtain ⟨rd, rs1, imm, rfl⟩ := exists_iType ho h3
    exact .inr ⟨.andi, ⟨rd, rs1, 0, imm, 0⟩, rfl, executes_andi⟩
  · obtain ⟨rd, rs1, rs2, rfl⟩ := exists_rType ho h3 h20
    exact .inr ⟨.srai, ⟨rd, rs1, rs2, 0, 0⟩, rfl, executes_srai⟩

theorem accepted_load (ho : w.extractLsb' 0 7 = 0x03) : Implemented w ∨ Misread w := by
  by_cases h2 : w.extractLsb' 12 3 = 0x2
  · obtain ⟨rd, rs1, imm, rfl⟩ := exists_iType ho h2
    exact .inl (.inl ⟨.lw rd rs1 imm, rfl⟩)
  by_cases h4 : w.extractLsb' 12 3 = 0x4
  · obtain ⟨rd, rs1, imm, rfl⟩ := exists_iType ho h4
    exact .inl (.inl ⟨.lbu rd rs1 imm, rfl⟩)
  · exact .inr (.inr (.inl ⟨ho, h2, h4⟩))

theorem accepted_store (ho : w.extractLsb' 0 7 = 0x23) : Implemented w ∨ Misread w := by
  by_cases h1 : w.extractLsb' 12 3 = 0x1
  · obtain ⟨rs1, rs2, imm, rfl⟩ := exists_sType ho h1
    exact .inl (.inr ⟨⟨0, rs1, rs2, imm, 0⟩, rfl⟩)
  by_cases h2 : w.extractLsb' 12 3 = 0x2
  · obtain ⟨rs1, rs2, imm, rfl⟩ := exists_sType ho h2
    exact .inl (.inl ⟨.sw rs1 rs2 imm, rfl⟩)
  · exact .inr (.inr (.inr (.inl ⟨ho, h1, h2⟩)))

theorem accepted_branch (ho : w.extractLsb' 0 7 = 0x63) : Implemented w ∨ Misread w := by
  by_cases h1 : w.extractLsb' 12 3 = 0x1
  · obtain ⟨rs1, rs2, imm, rfl⟩ := exists_bType ho h1
    exact .inl (.inl ⟨.bne rs1 rs2 imm, rfl⟩)
  · exact .inr (.inr (.inr (.inr (.inl ⟨ho, h1⟩))))

theorem accepted_jump (ho : w.extractLsb' 0 7 = 0x67) : Implemented w ∨ Misread w := by
  by_cases h0 : w.extractLsb' 12 3 = 0x0
  · obtain ⟨rd, rs1, imm, rfl⟩ := exists_iType ho h0
    exact .inl (.inl ⟨.jalr rd rs1 imm, rfl⟩)
  · exact .inr (.inr (.inr (.inr (.inr ⟨ho, h0⟩))))

/-- Everything executed is an instruction of the processor or misread. -/
theorem accepted_cases (h : Accepted w) : Implemented w ∨ FurtherRight w ∨ Misread w := by
  obtain ⟨ho | ho, ⟨h13, h0⟩ | h3⟩ | ho | ho | ho | ho | ho := h
  · exact absurd (ho.symm.trans h13) (by decide)
  · exact accepted_register ho h3
  · exact (accepted_immediate ho (.inl h0)).imp_right .inl
  · exact (accepted_immediate ho (by tauto)).imp_right .inl
  · exact (accepted_load ho).imp_right .inr
  · exact (accepted_store ho).imp_right .inr
  · exact (accepted_branch ho).imp_right .inr
  · obtain ⟨rd, imm, rfl⟩ := exists_uType ho
    exact .inl (.inl ⟨.lui rd imm, rfl⟩)
  · exact (accepted_jump ho).imp_right .inr

end Cases

/-- **What is turned down.** A word that is neither an instruction of the processor nor a further
    one that it executes as the manual has it is turned down, with nothing changed, if and only if
    it is not misread. -/
theorem turns_down_iff (cpu : CPU) (w : BitVec 32) :
    (¬Implemented w → ¬FurtherRight w → cpu.execute (CPU.decode w) = some (cpu, false)) ↔
      ¬Misread w := by
  rw [execute_false_iff, ← not_ne_iff, aluOperation_decode]
  constructor
  · intro h hm
    exact h (fun hi => hi.not_misread hm) (fun hf => hf.not_misread hm) hm.accepted
  · intro hm hi hf ha
    obtain h | h | h := accepted_cases ha
    · exact hi h
    · exact hf h
    · exact hm h

/-- `beq x0, x0, 8` runs as a `bne`. -/
theorem turns_down_beq : ¬Implemented 0x00000463 ∧ ¬FurtherRight 0x00000463 ∧
    CPU.init.execute (CPU.decode 0x00000463) ≠ some (CPU.init, false) := by
  have hm : Misread 0x00000463 := by decide
  refine ⟨fun hi => hi.not_misread hm, fun hf => hf.not_misread hm, fun hx => ?_⟩
  exact (aluOperation_decode _).mpr hm.accepted ((execute_false_iff _ _).mp hx)

end Cpusim
