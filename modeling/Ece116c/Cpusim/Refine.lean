import Ece116c.Cpusim.Decode
import Ece116c.Cpusim.Execute
import Ece116c.Cpusim.Main

/-! The processor runs RV32I: one cycle does what the instruction at the program counter means,
    so a run of the loop body is a run of the instruction set. -/

namespace Cpusim

open Rv32i Bits

/-! ### Registers and memory -/

theorem read_register (r : RegFile) (i : BitVec 5) : r.read (i.setWidth 8) = r.registers i := by
  rw [RegFile.read, narrow_widen i (by decide)]

/-- A write to `x0` is dropped. -/
theorem write_registers (r : RegFile) (rd : BitVec 5) (v : BitVec 32) (i : BitVec 5) :
    (r.write (rd.setWidth 8) v).registers i = if i = rd ∧ rd ≠ 0 then v else r.registers i := by
  have hz : rd.setWidth 8 = 0#8 ↔ rd = 0#5 := setWidth_inj (y := 0#5) (by decide)
  have hn : (rd.setWidth 8).setWidth 5 = rd := narrow_widen rd (by decide)
  by_cases h0 : rd = 0#5
  · simp [RegFile.write, h0]
  · simp [RegFile.write, h0, hz, hn, Function.update_apply]

theorem write_register {r : RegFile} {s : Regs} (h : r.registers = s.get) (rd : BitVec 5)
    (v : BitVec 32) : (r.write (rd.setWidth 8) v).registers = (s.set rd v).get := by
  funext i
  rw [write_registers, h, Regs.set]

theorem byte_eq (m : Memory) (a : BitVec 32) : m.byte a = (m.memory a).setWidth 32 := by
  have h : ((m.memory a).setWidth 32).extractLsb' 0 8 = m.memory a := by
    rw [BitVec.extractLsb'_setWidth_of_le (by decide)]
    exact slice_all
  have hm : (m.memory a).setWidth 32 &&& 0xFF#32 = _ := low_mask _ 8 rfl
  rw [Memory.byte, hm, h]

theorem read_word {m : Memory} {a : BitVec 32} (h : a.toNat + 4 ≤ memorySize) :
    m.read a = some (load32 m.memory a) := by
  have hrev : ∀ p q r s : BitVec 32, p ||| q ||| r ||| s = s ||| r ||| q ||| p :=
    fun p q r s => by ac_rfl
  rw [Memory.read, if_pos (by omega), byte_eq, byte_eq, byte_eq, byte_eq, load32, BitVec.zero_or,
    hrev, bytes_or]

theorem write_word {m : Memory} {a v : BitVec 32} (h : a.toNat + 4 ≤ memorySize) :
    m.write a v = some ⟨store32 m.memory a v⟩ := by
  have hs : ∀ b : BitVec 8, (b.setWidth 32).setWidth 8 = b := fun b => narrow_widen b (by decide)
  have h0 : v &&& 0xFF#32 = _ := low_mask v 8 rfl
  have h1 : v.sshiftRight 8 &&& 0xFF#32 = _ := sshift_mask v 8 8 (by decide) rfl
  have h2 : v.sshiftRight 16 &&& 0xFF#32 = _ := sshift_mask v 16 8 (by decide) rfl
  have h3 : v.sshiftRight 24 &&& 0xFF#32 = _ := sshift_mask v 24 8 (by decide) rfl
  rw [Memory.write, if_pos (by omega), store32, h0, h1, h2, h3, hs, hs, hs, hs]

/-- The address of a load, a store or a jump with this base and offset. -/
def CPU.effective (cpu : CPU) (rs1 : BitVec 5) (imm : BitVec 12) : BitVec 32 :=
  cpu.regFile.registers rs1 + imm.signExtend 32

/-- A store of any `funct3` writes a word. -/
theorem execute_sType (cpu : CPU) (f3 : BitVec 3) (rs1 rs2 : BitVec 5) (imm : BitVec 12) :
    cpu.execute (CPU.decode (sType 0x23 f3 rs1 rs2 imm)) =
      (cpu.memory.write (cpu.effective rs1 imm) (cpu.regFile.registers rs2)).map
        fun m => (cpu.left cpu.regFile m cpu.pcPlus4, true) := by
  obtain ⟨hopc, -, hrs1⟩ := sType_fields 0x23 f3 rs1 rs2 imm
  have hp := CPU.decode_opcode_of hopc
  have hi : (CPU.decode (sType 0x23 f3 rs1 rs2 imm)).immediate = _ := generate_s hopc
  rw [CPU.execute_store cpu hp, CPU.addr, hi, sType_imm, CPU.decode_rs1, hrs1, CPU.decode_rs2,
    sType_rs2, read_register, read_register, CPU.effective]

/-- A jump of any `funct3` goes to its register, whatever its offset. -/
theorem execute_iType_link (cpu : CPU) (f3 : BitVec 3) (rd rs1 : BitVec 5) (imm : BitVec 12) :
    cpu.execute (CPU.decode (iType 0x67 f3 rd rs1 imm)) =
      some (cpu.left (cpu.regFile.write (rd.setWidth 8) cpu.pcPlus4) cpu.memory
        (cpu.regFile.registers rs1 &&& ~~~1#32), true) := by
  obtain ⟨hopc, -, hrs1⟩ := iType_fields 0x67 f3 rd rs1 imm
  have hp := CPU.decode_opcode_of hopc
  have hi : (CPU.decode (iType 0x67 f3 rd rs1 imm)).immediate = 0 := by
    refine generate_other ?_ ?_ ?_ ?_ ?_ <;> rw [hopc] <;> decide
  rw [CPU.execute_link cpu hp, CPU.addr, hi, CPU.decode_rs1, hrs1, CPU.decode_rd, iType_rd,
    read_register, add_zero]

/-! ### Fetch -/

/-- The word of the program at an address inside it. -/
theorem fetch_eq {cpu : CPU} {instMem : InstMem} {code : List (BitVec 8)} {pc w : BitVec 32}
    (hcode : ∀ (a : Fin 4096) b, code[(a : ℕ)]? = some b → instMem a = b)
    (hlen : code.length ≤ 4096) (hpc : cpu.currentPC = pc.setWidth 64)
    (hf : Rv32i.fetch code pc = some w) : cpu.fetch instMem = some w := by
  simp only [Rv32i.fetch, Option.bind_eq_bind, Option.bind_eq_some_iff, Option.pure_def,
    Option.some.injEq] at hf
  obtain ⟨b0, h0, b1, h1, b2, h2, b3, h3, rfl⟩ := hf
  have hn : cpu.currentPC.toNat = pc.toNat := by
    rw [hpc, BitVec.toNat_setWidth_of_le (by decide)]
  have hlt : cpu.currentPC.toNat + 3 < 4096 := by
    rw [hn]
    exact lt_of_lt_of_le (List.getElem?_eq_some_iff.mp h3).1 hlen
  rw [← hn] at h0 h1 h2 h3
  exact cpu.fetch_word hlt (fun a ha => hcode a _ (ha ▸ h0)) (fun a ha => hcode a _ (ha ▸ h1))
    (fun a ha => hcode a _ (ha ▸ h2)) (fun a ha => hcode a _ (ha ▸ h3))

/-! ### States -/

/-- The registers, the memory and the address of the instruction at hand. -/
structure At (cpu : CPU) (s : State) : Prop where
  regs : cpu.regFile.registers = s.regs.get
  mem : cpu.memory.memory = s.mem
  pc : cpu.currentPC = s.pc.setWidth 64

/-- The same between cycles, where the address is `next_PC`. -/
structure Rep (cpu : CPU) (s : State) : Prop where
  regs : cpu.regFile.registers = s.regs.get
  mem : cpu.memory.memory = s.mem
  pc : cpu.nextPC = s.pc.setWidth 64

theorem rep_init : Rep CPU.init State.init := ⟨rfl, rfl, rfl⟩

theorem Rep.update {cpu : CPU} {s : State} (h : Rep cpu s) : At cpu.updateCurrentFromNext s :=
  ⟨h.regs, h.mem, h.pc⟩

section Step

variable {cpu : CPU} {s : State} (h : At cpu s)

include h

theorem At.read (i : BitVec 5) : cpu.regFile.read (i.setWidth 8) = s.regs.get i := by
  rw [read_register, h.regs]

theorem At.pcPlus4 : cpu.pcPlus4 = s.pc + 4 := by
  rw [CPU.pcPlus4, h.pc, BitVec.setWidth_add _ _ (by decide), narrow_widen _ (by decide)]
  rfl

/-- The 64-bit sum of the program counter and a negative `int` is right in its low word. -/
theorem At.target (x : BitVec 32) :
    (cpu.currentPC + x.signExtend 64).setWidth 32 = s.pc + x := by
  rw [h.pc, BitVec.setWidth_add _ _ (by decide), narrow_widen _ (by decide),
    narrow_signExtend _ (by decide)]

/-- The address of a load. -/
theorem At.addr {w : BitVec 32} {rs1 : BitVec 5} {x : BitVec 32}
    (hrs1 : w.extractLsb' 15 5 = rs1) (hi : generate w = x) :
    cpu.addr (CPU.decode w) = s.regs.get rs1 + x := by
  rw [CPU.addr, CPU.decode_rs1, hrs1, h.read]
  exact congrArg _ hi

theorem At.write (rd : BitVec 5) (v : BitVec 32) :
    Rep (cpu.left (cpu.regFile.write (rd.setWidth 8) v) cpu.memory cpu.pcPlus4) (s.write rd v) :=
  ⟨write_register h.regs rd v, h.mem, congrArg (BitVec.setWidth 64) h.pcPlus4⟩

variable (rd rs1 rs2 : BitVec 5)

/-- An R-type instruction applies its operation to two registers. -/
theorem exec_r (f3 : BitVec 3) (f7 : BitVec 7) {op : ALUOperation} (hop : op ≠ .invalid)
    (ho : ∀ parts : InstructionParts, parts.opcode = 0x33 → parts.funct3 = f3.setWidth 8 →
      parts.funct7 = f7.setWidth 8 → getALUOperation .func parts = op) :
    ∃ cpu', cpu.execute (CPU.decode (rType 0x33 f3 f7 rd rs1 rs2)) = some (cpu', true) ∧
      Rep cpu' (s.write rd (compute (s.regs.get rs1) (s.regs.get rs2) op)) := by
  obtain ⟨hopc, hf3, hrs1⟩ := rType_fields 0x33 f3 f7 rd rs1 rs2
  have hp := CPU.decode_opcode_of hopc
  have hc : setControlSignals (CPU.decode (rType 0x33 f3 f7 rd rs1 rs2)).opcode =
    { regWrite := true, aluSrc := false, aluOp := .func } := by rw [hp]; rfl
  have hx := CPU.execute_alu cpu hc
    (ho _ hp (by rw [CPU.decode_funct3, hf3]) (by rw [CPU.decode_funct7, rType_funct7])) hop
  rw [CPU.decode_rd, rType_rd, CPU.decode_rs1, hrs1, CPU.decode_rs2, rType_rs2, h.read,
    h.read] at hx
  exact ⟨_, hx, h.write rd _⟩

variable (imm : BitVec 12)

/-- An I-type instruction applies its operation to a register and its immediate. -/
theorem exec_i (f3 : BitVec 3) {op : ALUOperation} (hop : op ≠ .invalid)
    (ho : ∀ parts : InstructionParts, parts.opcode = 0x13 → parts.funct3 = f3.setWidth 8 →
      parts.funct7 = (imm.extractLsb' 5 7).setWidth 8 → getALUOperation .func parts = op) :
    ∃ cpu', cpu.execute (CPU.decode (iType 0x13 f3 rd rs1 imm)) = some (cpu', true) ∧
      Rep cpu' (s.write rd (compute (s.regs.get rs1) (imm.signExtend 32) op)) := by
  obtain ⟨hopc, hf3, hrs1⟩ := iType_fields 0x13 f3 rd rs1 imm
  have hp := CPU.decode_opcode_of hopc
  have hi : (CPU.decode (iType 0x13 f3 rd rs1 imm)).immediate = _ := generate_i (Or.inl hopc)
  have hc : setControlSignals (CPU.decode (iType 0x13 f3 rd rs1 imm)).opcode =
    { regWrite := true, aluSrc := true, aluOp := .func } := by rw [hp]; rfl
  have hx := CPU.execute_alu cpu hc
    (ho _ hp (by rw [CPU.decode_funct3, hf3]) (by rw [CPU.decode_funct7, iType_funct7])) hop
  rw [CPU.decode_rd, iType_rd, CPU.decode_rs1, hrs1, hi, iType_imm, h.read] at hx
  exact ⟨_, hx, h.write rd _⟩

theorem exec_lui (u : BitVec 20) :
    ∃ cpu', cpu.execute (CPU.decode (uType 0x37 rd u)) = some (cpu', true) ∧
      Rep cpu' (s.write rd (u ++ 0#12)) := by
  have hopc := uType_opcode 0x37 rd u
  have hp := CPU.decode_opcode_of hopc
  have hi : (CPU.decode (uType 0x37 rd u)).immediate = _ := generate_u hopc
  have hc : setControlSignals (CPU.decode (uType 0x37 rd u)).opcode =
    { regWrite := true, aluSrc := true, aluOp := .passImm } := by rw [hp]; rfl
  have hx := CPU.execute_alu cpu hc (show _ = .copyImm from rfl) (by decide)
  rw [CPU.decode_rd, uType_rd, hi, uType_imm] at hx
  exact ⟨_, hx, h.write rd _⟩

/-- A load writes what its width reads at the address. -/
theorem exec_load {f3 : BitVec 3} {v : BitVec 32}
    (hl : ∀ parts : InstructionParts, parts.funct3 = f3.setWidth 8 →
      CPU.loadStep (setControlSignals 0x03) parts cpu.memory (s.addr rs1 imm) = some v) :
    ∃ cpu', cpu.execute (CPU.decode (iType 0x03 f3 rd rs1 imm)) = some (cpu', true) ∧
      Rep cpu' (s.write rd v) := by
  obtain ⟨hopc, hf3, hrs1⟩ := iType_fields 0x03 f3 rd rs1 imm
  have hp := CPU.decode_opcode_of hopc
  have ha : cpu.addr (CPU.decode (iType 0x03 f3 rd rs1 imm)) = s.addr rs1 imm := by
    rw [h.addr hrs1 (generate_i (Or.inr hopc)), iType_imm, State.addr]
  have hx := CPU.execute_load cpu hp (ha ▸ hl _ (by rw [CPU.decode_funct3, hf3]))
  rw [CPU.decode_rd, iType_rd] at hx
  exact ⟨_, hx, h.write rd v⟩

/-- A store of any width writes a word. -/
theorem exec_store (f3 : BitVec 3) (hb : (s.addr rs1 imm).toNat + 3 < memorySize) :
    ∃ cpu', cpu.execute (CPU.decode (sType 0x23 f3 rs1 rs2 imm)) = some (cpu', true) ∧
      Rep cpu' { s with
        mem := store32 s.mem (s.addr rs1 imm) (s.regs.get rs2)
        pc := s.pc + 4 } := by
  have ha : cpu.effective rs1 imm = s.addr rs1 imm := by rw [CPU.effective, h.regs, State.addr]
  rw [execute_sType, ha, write_word (by omega), h.mem, h.regs, Option.map_some]
  exact ⟨_, rfl, h.regs, rfl, congrArg (BitVec.setWidth 64) h.pcPlus4⟩

theorem exec_bne :
    ∃ cpu', cpu.execute (CPU.decode (bType 0x63 0x1 rs1 rs2 imm)) = some (cpu', true) ∧
      Rep cpu' ((Instr.bne rs1 rs2 imm).exec s) := by
  obtain ⟨hopc, -, hrs1⟩ := bType_fields 0x63 0x1 rs1 rs2 imm
  have hp := CPU.decode_opcode_of hopc
  have hi : (CPU.decode (bType 0x63 0x1 rs1 rs2 imm)).immediate = _ := generate_b hopc
  have hx := CPU.execute_branch cpu hp
  rw [hi, bType_imm, CPU.decode_rs1, hrs1, CPU.decode_rs2, bType_rs2, h.read, h.read, h.target,
    h.pcPlus4] at hx
  have hd : s.regs.get rs1 - s.regs.get rs2 ≠ 0 ↔ s.regs.get rs1 ≠ s.regs.get rs2 :=
    not_congr sub_eq_zero
  simp only [hd] at hx
  exact ⟨_, hx, h.regs, h.mem, rfl⟩

/-- `generate` has no immediate for `jalr`, which is right for the offset zero. -/
theorem exec_jalr :
    ∃ cpu', cpu.execute (CPU.decode (iType 0x67 0x0 rd rs1 0)) = some (cpu', true) ∧
      Rep cpu' ((Instr.jalr rd rs1 0).exec s) := by
  have ha : s.addr rs1 0 = s.regs.get rs1 := by
    rw [State.addr, show (0 : BitVec 12).signExtend 32 = 0 from rfl, add_zero]
  rw [execute_iType_link, h.regs, h.pcPlus4, ← ha]
  exact ⟨_, rfl, write_register h.regs rd _, h.mem, rfl⟩

end Step

/-! ### Runs -/

/-- The instructions the processor runs as the manual has them: `jalr` without an offset only. -/
def Supported : Instr → Prop
  | .jalr _ _ imm => imm = 0
  | _ => True

instance : (i : Instr) → Decidable (Supported i)
  | .jalr _ _ imm => inferInstanceAs (Decidable (imm = 0))
  | .lui .. | .addi .. | .ori .. | .sltiu .. | .and .. | .sub .. | .sra .. | .lw .. | .lbu ..
  | .sw .. | .bne .. => isTrue trivial

/-- One step: executing an encoding is executing the instruction. -/
theorem execute_exec {cpu : CPU} {s : State} (h : At cpu s) {i : Instr} (hs : Supported i)
    (hb : i.InBounds memorySize s) :
    ∃ cpu', cpu.execute (CPU.decode i.encode) = some (cpu', true) ∧ Rep cpu' (i.exec s) := by
  cases i with
  | lui rd u => exact exec_lui h rd u
  | addi rd rs1 imm =>
    have ho : ∀ parts : InstructionParts, parts.opcode = 0x13 → parts.funct3 = 0x0 →
        getALUOperation .func parts = .add := fun parts ho hf => by simp [getALUOperation, ho, hf]
    exact exec_i h rd rs1 imm 0x0 (by decide) fun parts hp hf _ => ho parts hp hf
  | ori rd rs1 imm =>
    have ho : ∀ parts : InstructionParts, parts.opcode = 0x13 → parts.funct3 = 0x6 →
        getALUOperation .func parts = .or := fun parts ho hf => by simp [getALUOperation, ho, hf]
    exact exec_i h rd rs1 imm 0x6 (by decide) fun parts hp hf _ => ho parts hp hf
  | sltiu rd rs1 imm =>
    have ho : ∀ parts : InstructionParts, parts.opcode = 0x13 → parts.funct3 = 0x3 →
        getALUOperation .func parts = .sltu := fun parts ho hf => by simp [getALUOperation, ho, hf]
    exact exec_i h rd rs1 imm 0x3 (by decide) fun parts hp hf _ => ho parts hp hf
  | and rd rs1 rs2 =>
    have ho : ∀ parts : InstructionParts, parts.opcode = 0x33 → parts.funct3 = 0x7 →
        parts.funct7 = 0x00 → getALUOperation .func parts = .and :=
      fun parts ho hf _ => by simp [getALUOperation, ho, hf]
    exact exec_r h rd rs1 rs2 0x7 0x00 (by decide) ho
  | sub rd rs1 rs2 =>
    have ho : ∀ parts : InstructionParts, parts.opcode = 0x33 → parts.funct3 = 0x0 →
        parts.funct7 = 0x20 → getALUOperation .func parts = .sub :=
      fun parts ho hf hf7 => by simp [getALUOperation, ho, hf, hf7]
    exact exec_r h rd rs1 rs2 0x0 0x20 (by decide) ho
  | sra rd rs1 rs2 =>
    have ho : ∀ parts : InstructionParts, parts.opcode = 0x33 → parts.funct3 = 0x5 →
        parts.funct7 = 0x20 → getALUOperation .func parts = .sra :=
      fun parts ho hf hf7 => by simp [getALUOperation, ho, hf, hf7]
    have hm : (s.regs.get rs2 &&& 0x1F#32).toNat = (s.regs.get rs2).toNat % 32 :=
      BitVec.toNat_and _ _ ▸ Nat.and_two_pow_sub_one_eq_mod _ 5
    have hx := exec_r h rd rs1 rs2 0x5 0x20 (by decide) ho
    rwa [compute, hm] at hx
  | lw rd rs1 imm =>
    exact exec_load h rd rs1 imm fun parts hf => by
      simp [CPU.loadStep, setControlSignals, hf, read_word hb, h.mem]
  | lbu rd rs1 imm =>
    have hlt : (s.addr rs1 imm).toNat < memorySize := hb
    exact exec_load h rd rs1 imm fun parts hf => by
      simp [CPU.loadStep, setControlSignals, hf, Memory.readByte, hlt, h.mem]
  | sw rs1 rs2 imm => exact exec_store h rs1 rs2 imm 0x2 hb
  | bne rs1 rs2 imm => exact exec_bne h rs1 rs2 imm
  | jalr rd rs1 imm =>
    cases hs
    exact exec_jalr h rd rs1

/-- A run of the instruction set through the loaded bytes is a run of the processor. -/
theorem cycles_steps {instMem : InstMem} {code : List (BitVec 8)}
    (hcode : ∀ (a : Fin 4096) b, code[(a : ℕ)]? = some b → instMem a = b)
    (hlen : code.length ≤ 4096) {m : ℕ} {s t : State}
    (hs : Steps code memorySize Supported m s t) {cpu : CPU} (hr : Rep cpu s) :
    ∃ cpu', CPU.cycles instMem m cpu = some cpu' ∧ Rep cpu' t := by
  induction hs with
  | zero s => exact ⟨cpu, rfl, hr⟩
  | succ hsteps i hP hf hb ih =>
    obtain ⟨cpu', hc, hr'⟩ := ih hr
    obtain ⟨cpu'', hx, hr''⟩ := execute_exec hr'.update hP hb
    refine ⟨cpu'', ?_, hr''⟩
    have hfetch := fetch_eq hcode hlen hr'.update.pc hf
    rw [CPU.cycles, hc, Option.bind_some, CPU.cycle, hfetch, Option.bind_some, hx]

/-- **The processor runs RV32I.** Load a file of at most 4096 bytes: as long as the instruction set
    fetches supported encodings inside the file and stays inside the data memory, every cycle
    returns true and leaves its registers, memory and program counter. -/
theorem runs_rv32i {file : List (BitVec 32)} (hlen : file.length ≤ 4096) (uninit : InstMem)
    {m : ℕ} {t : State}
    (hs : Steps (file.map (BitVec.setWidth 8)) memorySize Supported m State.init t) :
    ∃ instMem cpu, load file 0 uninit = some (instMem, file.length) ∧
      CPU.cycles instMem m CPU.init = some cpu ∧ cpu.regFile.registers = t.regs.get ∧
      cpu.memory.memory = t.mem ∧ cpu.nextPC = t.pc.setWidth 64 := by
  have hcode : ∀ (a : Fin 4096) b, (file.map (BitVec.setWidth 8))[(a : ℕ)]? = some b →
      loaded file uninit a = b := by
    intro a b hb
    rw [List.getElem?_map] at hb
    rw [loaded, hb, Option.getD_some]
  obtain ⟨cpu, hc, hr⟩ := cycles_steps hcode (by rwa [List.length_map]) hs rep_init
  exact ⟨_, cpu, load_loaded hlen, hc, hr.regs, hr.mem, hr.pc⟩

/-- `addi a0, x0, -1` and a `bne` back to it. -/
def loopFile : List (BitVec 32) := [0x13, 0x05, 0xF0, 0xFF, 0xE3, 0x1E, 0x05, 0xFE]

theorem runs_rv32i_loop :
    ∃ instMem cpu, load loopFile 0 (fun _ => 0) = some (instMem, 8) ∧
      CPU.cycles instMem 2 CPU.init = some cpu ∧ cpu.regFile.registers 10 = -1 ∧
      cpu.nextPC = 0 := by
  have hs : Steps (loopFile.map (BitVec.setWidth 8)) memorySize Supported 2 State.init
      ((Instr.bne 10 0 (-2)).exec ((Instr.addi 10 0 (-1)).exec State.init)) :=
    .succ (.succ (.zero _) (.addi 10 0 (-1)) trivial (by decide) trivial) (.bne 10 0 (-2)) trivial
      (by decide) trivial
  obtain ⟨instMem, cpu, hl, hc, hr, -, hp⟩ := runs_rv32i (by decide) (fun _ => 0) hs
  refine ⟨instMem, cpu, hl, hc, ?_, ?_⟩
  · rw [hr]
    decide
  · rw [hp]
    decide

end Cpusim
