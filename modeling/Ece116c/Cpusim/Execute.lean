import Ece116c.Cpusim.Machine
import Ece116c.Lib.Bits

/-! What `fetch` assembles, and what `execute` does: one lemma for each way the controller can set
    its signals. -/

namespace Cpusim

namespace CPU

/-- The registers, memory and `next_PC` a true `execute` leaves. -/
def left (cpu : CPU) (regFile : RegFile) (memory : Memory) (pc : BitVec 32) : CPU :=
  { cpu with regFile := regFile, memory := memory, nextPC := pc.setWidth 64 }

/-- `pc_plus_4`. -/
def pcPlus4 (cpu : CPU) : BitVec 32 := (cpu.currentPC + 4).setWidth 32

variable (cpu : CPU) {parts : InstructionParts}

theorem pcPlus4_toNat {pc : ℕ} (h : cpu.currentPC.toNat = pc) (hlt : pc + 4 < 2 ^ 32) :
    cpu.pcPlus4.toNat = pc + 4 := by
  have h4 : (4 : BitVec 64).toNat = 4 := rfl
  rw [pcPlus4, BitVec.toNat_setWidth, BitVec.toNat_add, h, h4]
  omega

/-- The fetched word is the four bytes at the program counter. -/
theorem fetch_word {m : InstMem} {b0 b1 b2 b3 : BitVec 8} (hlt : cpu.currentPC.toNat + 3 < 4096)
    (h0 : ∀ a : Fin 4096, (a : ℕ) = cpu.currentPC.toNat → m a = b0)
    (h1 : ∀ a : Fin 4096, (a : ℕ) = cpu.currentPC.toNat + 1 → m a = b1)
    (h2 : ∀ a : Fin 4096, (a : ℕ) = cpu.currentPC.toNat + 2 → m a = b2)
    (h3 : ∀ a : Fin 4096, (a : ℕ) = cpu.currentPC.toNat + 3 → m a = b3) :
    cpu.fetch m = some (b3 ++ b2 ++ b1 ++ b0) := by
  have e0 := h0 ⟨cpu.currentPC.toNat, by omega⟩ rfl
  have e1 := h1 ⟨cpu.currentPC.toNat + 1, by omega⟩ rfl
  have e2 := h2 ⟨cpu.currentPC.toNat + 2, by omega⟩ rfl
  have e3 := h3 ⟨cpu.currentPC.toNat + 3, by omega⟩ rfl
  rw [fetch, dif_pos hlt, ← Bits.bytes_or]
  simp only [e0, e1, e2, e3]

/-- An invalid operation changes nothing. -/
theorem execute_invalid
    (h : getALUOperation (setControlSignals parts.opcode).aluOp parts = .invalid) :
    cpu.execute parts = some (cpu, false) := by
  simp [execute, h]

/-- R-type, I-type and U-type write the ALU result. -/
theorem execute_alu {src : Bool} {o : ALUOp} {op : ALUOperation}
    (hc : setControlSignals parts.opcode = { regWrite := true, aluSrc := src, aluOp := o })
    (ho : getALUOperation o parts = op) (hop : op ≠ .invalid) :
    cpu.execute parts = some (cpu.left
      (cpu.regFile.write parts.rd (compute (cpu.regFile.read parts.rs1)
        (mux2 (cpu.regFile.read parts.rs2) parts.immediate src) op))
      cpu.memory cpu.pcPlus4, true) := by
  have hoi : o ≠ .invalid := by
    rintro rfl
    exact hop ho.symm
  simp [execute, hc, ho, hop, hoi, storeStep, loadStep, pcSrc, left, pcPlus4, mux2, mux3Pc]

/-- The address of a load or store. -/
def addr (cpu : CPU) (parts : InstructionParts) : BitVec 32 :=
  cpu.regFile.read parts.rs1 + parts.immediate

theorem execute_load {v : BitVec 32} (ho : parts.opcode = 0x03)
    (hl : loadStep (setControlSignals 0x03) parts cpu.memory (cpu.addr parts) = some v) :
    cpu.execute parts =
      some (cpu.left (cpu.regFile.write parts.rd v) cpu.memory cpu.pcPlus4, true) := by
  simp [addr, setControlSignals] at hl
  simp [execute, ho, setControlSignals, getALUOperation, compute, mux2, storeStep, hl, pcSrc, left,
    pcPlus4, mux3Pc]

/-- A store leaves a state if its address lies in the memory. -/
theorem execute_store (ho : parts.opcode = 0x23) :
    cpu.execute parts = (cpu.memory.write (cpu.addr parts) (cpu.regFile.read parts.rs2)).map
      fun m => (cpu.left cpu.regFile m cpu.pcPlus4, true) := by
  cases hm : cpu.memory.write (cpu.regFile.read parts.rs1 + parts.immediate)
    (cpu.regFile.read parts.rs2) <;>
  simp [execute, ho, setControlSignals, getALUOperation, compute, mux2, storeStep, loadStep, addr,
    hm, pcSrc, left, pcPlus4, mux3Pc]

theorem mux3Pc_branch (d plus target jump : BitVec 32) :
    mux3Pc plus target jump (pcSrc { branch := true, aluOp := .sub } d) =
      if d ≠ 0 then target else plus := by
  by_cases h : d = 0#32
  · simp [pcSrc, mux3Pc, h]
  · simp [pcSrc, mux3Pc, h]

theorem execute_branch (ho : parts.opcode = 0x63) :
    cpu.execute parts = some (cpu.left cpu.regFile cpu.memory
      (if cpu.regFile.read parts.rs1 - cpu.regFile.read parts.rs2 ≠ 0 then
        (cpu.currentPC + parts.immediate.signExtend 64).setWidth 32 else cpu.pcPlus4), true) := by
  simp [execute, ho, setControlSignals, getALUOperation, compute, mux2, storeStep, loadStep,
    mux3Pc_branch, left, pcPlus4]

theorem execute_link (ho : parts.opcode = 0x67) :
    cpu.execute parts = some (cpu.left (cpu.regFile.write parts.rd cpu.pcPlus4) cpu.memory
      (cpu.addr parts &&& ~~~1#32), true) := by
  simp [execute, ho, setControlSignals, getALUOperation, compute, mux2, storeStep, loadStep,
    pcSrc, left, pcPlus4, mux3Pc, addr]

/-- No other opcode changes the flow. -/
theorem execute_straight {cpu' : CPU} (hb : parts.opcode ≠ 0x63) (hj : parts.opcode ≠ 0x67)
    (h : cpu.execute parts = some (cpu', true)) : cpu'.nextPC = cpu.pcPlus4.setWidth 64 := by
  have hc : (setControlSignals parts.opcode).branch = false ∧
      (setControlSignals parts.opcode).link = false := by
    simp only [setControlSignals, hb, hj, if_false]
    split_ifs <;> exact ⟨rfl, rfl⟩
  simp only [execute] at h
  split at h
  · cases h
  · split at h
    · cases h
    · obtain ⟨m, -, hm⟩ := Option.bind_eq_some_iff.mp h
      obtain ⟨v, -, hv⟩ := Option.map_eq_some_iff.mp hm
      cases hv
      simp [pcSrc, hc, mux3Pc, pcPlus4]

end CPU

end Cpusim
