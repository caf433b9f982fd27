import Ece116c.Cpusim.Reject

/-! The frame of `execute`: what any word at all, an instruction of the processor or not, can
    change. -/

namespace Cpusim

open Rv32i Bits

/-! ### The fields of a word -/

namespace Word

variable (w : BitVec 32)

def opcode : BitVec 7 := w.extractLsb' 0 7

def funct3 : BitVec 3 := w.extractLsb' 12 3

def rd : BitVec 5 := w.extractLsb' 7 5

def rs1 : BitVec 5 := w.extractLsb' 15 5

def rs2 : BitVec 5 := w.extractLsb' 20 5

/-- The sign-extended immediate of the I-type format. -/
def immI : BitVec 32 := (w.extractLsb' 20 12).signExtend 32

/-- The one of the S-type format. -/
def immS : BitVec 32 := (w.extractLsb' 25 7 ++ w.extractLsb' 7 5).signExtend 32

/-- And of the B-type format. -/
def immB : BitVec 32 :=
  ((w.extractLsb' 31 1 ++ (w.extractLsb' 7 1 ++ (w.extractLsb' 25 6 ++ w.extractLsb' 8 4))) ++
    0#1).signExtend 32

end Word

open Word

/-- The data accesses of `w` lie in the memory. -/
structure DataInside (cpu : CPU) (w : BitVec 32) : Prop where
  word : opcode w = 0x03 → funct3 w = 0x2 →
    (cpu.regFile.registers (rs1 w) + immI w).toNat + 3 < memorySize
  byte : opcode w = 0x03 → funct3 w = 0x4 →
    (cpu.regFile.registers (rs1 w) + immI w).toNat < memorySize
  store : opcode w = 0x23 → (cpu.regFile.registers (rs1 w) + immS w).toNat + 3 < memorySize

/-- What a true `execute` of `w` leaves as it was, and where it goes. -/
structure Frame (w : BitVec 32) (cpu cpu' : CPU) : Prop where
  zero : cpu'.regFile.registers 0 = 0
  register : ∀ i, i ≠ rd w → cpu'.regFile.registers i = cpu.regFile.registers i
  registers : opcode w = 0x23 ∨ opcode w = 0x63 → cpu'.regFile = cpu.regFile
  memory : opcode w ≠ 0x23 → cpu'.memory = cpu.memory
  stored : ∀ a : BitVec 32, a.toNat < (cpu.regFile.registers (rs1 w) + immS w).toNat ∨
    (cpu.regFile.registers (rs1 w) + immS w).toNat + 3 < a.toNat →
      cpu'.memory.memory a = cpu.memory.memory a
  next : opcode w ≠ 0x67 →
    ¬ (opcode w = 0x63 ∧ cpu.regFile.registers (rs1 w) ≠ cpu.regFile.registers (rs2 w)) →
      cpu'.nextPC = (cpu.currentPC.setWidth 32 + 4).setWidth 64
  taken : opcode w = 0x63 →
    cpu.regFile.registers (rs1 w) ≠ cpu.regFile.registers (rs2 w) →
      cpu'.nextPC = (cpu.currentPC.setWidth 32 + immB w).setWidth 64

section Cases

variable {cpu : CPU} {w : BitVec 32}

theorem read_rs1 : cpu.regFile.read (CPU.decode w).rs1 = cpu.regFile.registers (rs1 w) := by
  rw [CPU.decode_rs1, read_register, rs1]

theorem read_rs2 : cpu.regFile.read (CPU.decode w).rs2 = cpu.regFile.registers (rs2 w) := by
  rw [CPU.decode_rs2, read_register, rs2]

theorem pcPlus4_eq : cpu.pcPlus4 = cpu.currentPC.setWidth 32 + 4 := by
  rw [CPU.pcPlus4, BitVec.setWidth_add _ _ (by decide)]
  rfl

/-- The registers after a write to `rd`. -/
theorem Frame.of_write (h0 : cpu.regFile.registers 0 = 0) {o : BitVec 7} (ho : opcode w = o)
    (hs : o ≠ 0x23) (hb : o ≠ 0x63) {pc : BitVec 32} (hpc : o ≠ 0x67 → pc = cpu.pcPlus4)
    (v : BitVec 32) :
    Frame w cpu (cpu.left (cpu.regFile.write (CPU.decode w).rd v) cpu.memory pc) := by
  subst ho
  have hget : ∀ i, (cpu.regFile.write (CPU.decode w).rd v).registers i =
      if i = rd w ∧ rd w ≠ 0 then v else cpu.regFile.registers i := by
    intro i
    rw [CPU.decode_rd, write_registers, rd]
  constructor
  · have hne : ¬ (0 = rd w ∧ rd w ≠ 0) := fun h => h.2 h.1.symm
    exact (hget 0).trans ((if_neg hne).trans h0)
  · intro i hi
    exact (hget i).trans (if_neg fun h => hi h.1)
  · rintro (h | h)
    · exact absurd h hs
    · exact absurd h hb
  · exact fun _ => rfl
  · exact fun _ _ => rfl
  · intro hj _
    rw [CPU.left, hpc hj, pcPlus4_eq]
  · exact fun h => absurd h hb

variable (h0 : cpu.regFile.registers 0 = 0)

include h0

/-- R-type, I-type and U-type. -/
theorem frame_alu {o : BitVec 7} (ho : opcode w = o) {src : Bool} {op : ALUOp}
    (hc : setControlSignals (o.setWidth 8) = { regWrite := true, aluSrc := src, aluOp := op })
    (hs : o ≠ 0x23) (hb : o ≠ 0x63) (hv : aluOperation (CPU.decode w) ≠ .invalid) :
    ∃ cpu', cpu.execute (CPU.decode w) = some (cpu', true) ∧ Frame w cpu cpu' := by
  rw [← CPU.decode_opcode_of ho] at hc
  rw [aluOperation, hc] at hv
  exact ⟨_, CPU.execute_alu cpu hc rfl hv, Frame.of_write h0 ho hs hb (fun _ => rfl) _⟩

/-- A load of any `funct3`; the ones that are no loads of the processor write the address. -/
theorem frame_load (hin : DataInside cpu w) (ho : opcode w = 0x03) :
    ∃ cpu', cpu.execute (CPU.decode w) = some (cpu', true) ∧ Frame w cpu cpu' := by
  have hp := CPU.decode_opcode_of ho
  have ha : cpu.addr (CPU.decode w) = cpu.regFile.registers (rs1 w) + immI w := by
    have hi : (CPU.decode w).immediate = immI w := generate_i (Or.inr ho)
    rw [CPU.addr, read_rs1, hi]
  have hf2 : (CPU.decode w).funct3 = 0x2 ↔ funct3 w = 0x2 := by
    rw [CPU.decode_funct3]
    exact code3_iff (b := 0x2#3)
  have hf4 : (CPU.decode w).funct3 = 0x4 ↔ funct3 w = 0x4 := by
    rw [CPU.decode_funct3]
    exact code3_iff (b := 0x4#3)
  have hload : ∃ v, CPU.loadStep (setControlSignals 0x03) (CPU.decode w) cpu.memory
      (cpu.addr (CPU.decode w)) = some v := by
    have hread : (setControlSignals 0x03).memRead = true := rfl
    rw [CPU.loadStep, ha, if_pos hread]
    by_cases h4 : funct3 w = 0x4
    · rw [if_pos (hf4.mpr h4), Memory.readByte, if_pos (hin.byte ho h4)]
      exact ⟨_, rfl⟩
    · rw [if_neg (mt hf4.mp h4)]
      by_cases h2 : funct3 w = 0x2
      · rw [if_pos (hf2.mpr h2), Memory.read, if_pos (hin.word ho h2)]
        exact ⟨_, rfl⟩
      · rw [if_neg (mt hf2.mp h2)]
        exact ⟨_, rfl⟩
  obtain ⟨v, hv⟩ := hload
  exact ⟨_, CPU.execute_load cpu hp hv,
    Frame.of_write h0 ho (by decide) (by decide) (fun _ => rfl) v⟩

theorem frame_store (hin : DataInside cpu w) (ho : opcode w = 0x23) :
    ∃ cpu', cpu.execute (CPU.decode w) = some (cpu', true) ∧ Frame w cpu cpu' := by
  have hp := CPU.decode_opcode_of ho
  have ha : cpu.addr (CPU.decode w) = cpu.regFile.registers (rs1 w) + immS w := by
    have hi : (CPU.decode w).immediate = immS w := generate_s ho
    rw [CPU.addr, read_rs1, hi]
  have hlt := hin.store ho
  have hx := CPU.execute_store cpu hp
  rw [ha, write_word (by omega), Option.map_some] at hx
  refine ⟨_, hx, h0, fun _ _ => rfl, fun _ => rfl, fun h => absurd ho h, fun a hout => ?_,
    fun _ _ => ?_, fun hb => ?_⟩
  · have hfar : ¬ (a - (cpu.regFile.registers (rs1 w) + immS w)).toNat < 4 := by
      have hsize : memorySize = 131072 := rfl
      generalize cpu.regFile.registers (rs1 w) + immS w = b at hout hlt
      bv_omega
    exact (store32_apply _ _ _ _).trans (if_neg hfar)
  · rw [CPU.left, pcPlus4_eq]
  · rw [ho] at hb
    exact absurd hb (by decide)

theorem frame_branch (ho : opcode w = 0x63) :
    ∃ cpu', cpu.execute (CPU.decode w) = some (cpu', true) ∧ Frame w cpu cpu' := by
  have hp := CPU.decode_opcode_of ho
  have hi : (CPU.decode w).immediate = immB w := generate_b ho
  have hx := CPU.execute_branch cpu hp
  rw [read_rs1, read_rs2, hi, pcPlus4_eq, BitVec.setWidth_add _ _ (by decide),
    narrow_signExtend _ (by decide)] at hx
  have hd : cpu.regFile.registers (rs1 w) - cpu.regFile.registers (rs2 w) ≠ 0 ↔
      cpu.regFile.registers (rs1 w) ≠ cpu.regFile.registers (rs2 w) := not_congr sub_eq_zero
  simp only [hd] at hx
  refine ⟨_, hx, h0, fun _ _ => rfl, fun _ => rfl, fun _ => rfl, fun _ _ => rfl,
    fun _ hne => ?_, fun _ hne => ?_⟩
  · rw [CPU.left, if_neg fun h => hne ⟨ho, h⟩]
  · rw [CPU.left, if_pos hne]

theorem frame_link (ho : opcode w = 0x67) :
    ∃ cpu', cpu.execute (CPU.decode w) = some (cpu', true) ∧ Frame w cpu cpu' := by
  have hp := CPU.decode_opcode_of ho
  exact ⟨_, CPU.execute_link cpu hp,
    Frame.of_write h0 ho (by decide) (by decide) (fun h => absurd rfl h) _⟩

end Cases

/-- The frame of one step: a word whose data accesses lie in the memory either is turned down with
    nothing changed, or changes its destination register, the four bytes of a store and the next
    `pc` only. -/
theorem execute_word_frame {cpu : CPU} (h0 : cpu.regFile.registers 0 = 0) {w : BitVec 32}
    (hin : DataInside cpu w) :
    cpu.execute (CPU.decode w) = some (cpu, false) ∨
      ∃ cpu', cpu.execute (CPU.decode w) = some (cpu', true) ∧ Frame w cpu cpu' := by
  by_cases hv : aluOperation (CPU.decode w) = .invalid
  · exact .inl (cpu.execute_invalid hv)
  · right
    obtain ⟨ho | ho, -⟩ | ho | ho | ho | ho | ho := (aluOperation_decode w).mp hv
    · exact frame_alu h0 ho rfl (by decide) (by decide) hv
    · exact frame_alu h0 ho rfl (by decide) (by decide) hv
    · exact frame_load h0 hin ho
    · exact frame_store h0 hin ho
    · exact frame_branch h0 ho
    · exact frame_alu h0 ho rfl (by decide) (by decide) hv
    · exact frame_link h0 ho

/-- `sb x1, 5(x0)` stores a word. -/
theorem execute_word_frame_sb : ∃ cpu', CPU.init.execute (CPU.decode 0x001002A3) =
    some (cpu', true) ∧ cpu'.regFile.registers 0 = 0 ∧ cpu'.nextPC = 4 := by
  have hin : DataInside CPU.init 0x001002A3 :=
    ⟨fun h => absurd h (by decide), fun h => absurd h (by decide), fun _ => by decide⟩
  have h0 : CPU.init.regFile.registers 0 = 0 := rfl
  obtain h | ⟨cpu', h, hframe⟩ := execute_word_frame h0 hin
  · exact absurd ((execute_false_iff _ _).mp h) (by decide)
  · exact ⟨cpu', h, hframe.zero, hframe.next (by decide) (by decide)⟩

end Cpusim
