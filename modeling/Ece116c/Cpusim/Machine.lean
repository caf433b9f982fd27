import Mathlib.Data.BitVec
import Mathlib.Logic.Function.Basic

/-! The single-cycle processor (`CPU.cpp` and the units it is built of).

    `int32_t` and `uint32_t` values are the same 32 bits, so a cast is nothing and the operator
    tells the reading; signed addition wraps and `>>` of a negative `int` is arithmetic. An access
    outside an array is undefined in the source and gives `none` here. -/

namespace Cpusim

/-- `InstructionParts`. -/
structure InstructionParts where
  opcode : BitVec 8
  funct3 : BitVec 8
  funct7 : BitVec 8
  rs1 : BitVec 8
  rs2 : BitVec 8
  rd : BitVec 8
  immediate : BitVec 32
  deriving DecidableEq, Repr

/-! ### ImmGen -/

/-- `if (immediate & sign) immediate |= high`. -/
def signFill (immediate sign high : BitVec 32) : BitVec 32 :=
  if immediate &&& sign ≠ 0 then immediate ||| high else immediate

/-- `ImmGen::generate`. -/
def generate (instruction : BitVec 32) : BitVec 32 :=
  let opcode : BitVec 8 := (instruction &&& 0x7F#32).setWidth 8
  if opcode = 0x13 ∨ opcode = 0x03 then
    signFill ((instruction >>> 20) &&& 0xFFF#32) 0x800#32 0xFFFFF000#32
  else if opcode = 0x23 then
    signFill ((((instruction >>> 25) &&& 0x7F#32) <<< 5) ||| ((instruction >>> 7) &&& 0x1F#32))
      0x800#32 0xFFFFF000#32
  else if opcode = 0x63 then
    signFill ((((instruction >>> 31) &&& 0x1#32) <<< 12)
        ||| (((instruction >>> 7) &&& 0x1#32) <<< 11)
        ||| (((instruction >>> 25) &&& 0x3F#32) <<< 5) ||| (((instruction >>> 8) &&& 0xF#32) <<< 1))
      0x1000#32 0xFFFFE000#32
  else if opcode = 0x37 then ((instruction >>> 12) &&& 0xFFFFF#32) <<< 12
  else 0

/-! ### Controller -/

inductive ALUOp | add | sub | func | passImm | invalid
  deriving DecidableEq, Repr

/-- `signals[7]` by name, and `aluOp`. -/
structure Controller where
  regWrite : Bool := false
  aluSrc : Bool := false
  branch : Bool := false
  memRead : Bool := false
  memWrite : Bool := false
  memToReg : Bool := false
  link : Bool := false
  aluOp : ALUOp := .invalid
  deriving DecidableEq, Repr

/-- `Controller::setControlSignals`, from reset signals. -/
def setControlSignals (opcode : BitVec 8) : Controller :=
  if opcode = 0x33 then { regWrite := true, aluOp := .func }
  else if opcode = 0x13 then { regWrite := true, aluSrc := true, aluOp := .func }
  else if opcode = 0x03 then
    { regWrite := true, aluSrc := true, memRead := true, memToReg := true, aluOp := .add }
  else if opcode = 0x23 then { aluSrc := true, memWrite := true, aluOp := .add }
  else if opcode = 0x63 then { branch := true, aluOp := .sub }
  else if opcode = 0x37 then { regWrite := true, aluSrc := true, aluOp := .passImm }
  else if opcode = 0x67 then { regWrite := true, aluSrc := true, link := true, aluOp := .add }
  else {}

/-! ### ALU -/

inductive ALUOperation | add | sub | and | or | sltu | sra | copyImm | invalid
  deriving DecidableEq, Repr

/-- `ALUController::getALUOperation`. -/
def getALUOperation (aluOp : ALUOp) (parts : InstructionParts) : ALUOperation :=
  match aluOp with
  | .add => .add
  | .sub => .sub
  | .passImm => .copyImm
  | .func =>
    if parts.opcode = 0x13 ∧ parts.funct3 = 0x0 then .add
    else if parts.funct3 = 0x0 then if parts.funct7 = 0x20 then .sub else .invalid
    else if parts.funct3 = 0x7 then .and
    else if parts.funct3 = 0x5 then if parts.funct7 = 0x20 then .sra else .invalid
    else if parts.funct3 = 0x3 then .sltu
    else if parts.funct3 = 0x6 then .or
    else .invalid
  | .invalid => .invalid

/-- `ALU::compute`. -/
def compute (operand1 operand2 : BitVec 32) : ALUOperation → BitVec 32
  | .add => operand1 + operand2
  | .sub => operand1 - operand2
  | .and => operand1 &&& operand2
  | .or => operand1 ||| operand2
  | .sltu => if operand1 < operand2 then 1 else 0
  | .sra => operand1.sshiftRight (operand2 &&& 0x1F#32).toNat
  | .copyImm => operand2
  | .invalid => 0

/-! ### MUX -/

def mux2 (input0 input1 : BitVec 32) (select : Bool) : BitVec 32 :=
  if select then input1 else input0

def mux3Pc (pcPlus4 branchTarget jumpTarget : BitVec 32) (select : ℕ) : BitVec 32 :=
  if select = 1 then branchTarget else if select = 2 then jumpTarget else pcPlus4

/-! ### RegFile -/

/-- `registers[32]`; `decode` masks register numbers to five bits. -/
structure RegFile where
  registers : BitVec 5 → BitVec 32

namespace RegFile

def init : RegFile := ⟨fun _ => 0⟩

def read (r : RegFile) (regNum : BitVec 8) : BitVec 32 := r.registers (regNum.setWidth 5)

def write (r : RegFile) (regNum : BitVec 8) (data : BitVec 32) : RegFile :=
  if regNum ≠ 0 then ⟨Function.update r.registers (regNum.setWidth 5) data⟩ else r

end RegFile

/-! ### Memory -/

/-- The length of `memory`. -/
def memorySize : ℕ := 131072

/-- `memory`, by `uint32_t` index. -/
structure Memory where
  memory : BitVec 32 → BitVec 8

namespace Memory

def init : Memory := ⟨fun _ => 0⟩

/-- `memory[address] & 0xFF` as an `int`. -/
def byte (m : Memory) (address : BitVec 32) : BitVec 32 :=
  (m.memory address).setWidth 32 &&& 0xFF#32

def read (m : Memory) (address : BitVec 32) : Option (BitVec 32) :=
  if address.toNat + 3 < memorySize then
    some (0#32 ||| m.byte address ||| (m.byte (address + 1) <<< 8) ||| (m.byte (address + 2) <<< 16)
      ||| (m.byte (address + 3) <<< 24))
  else none

def readByte (m : Memory) (address : BitVec 32) : Option (BitVec 8) :=
  if address.toNat < memorySize then some (m.memory address) else none

def write (m : Memory) (address data : BitVec 32) : Option Memory :=
  if address.toNat + 3 < memorySize then
    some ⟨Function.update (Function.update (Function.update (Function.update m.memory
      address ((data &&& 0xFF#32).setWidth 8))
      (address + 1) ((data.sshiftRight 8 &&& 0xFF#32).setWidth 8))
      (address + 2) ((data.sshiftRight 16 &&& 0xFF#32).setWidth 8))
      (address + 3) ((data.sshiftRight 24 &&& 0xFF#32).setWidth 8)⟩
  else none

end Memory

/-! ### CPU -/

/-- The array `instMem` of `main`. -/
abbrev InstMem := Fin 4096 → BitVec 8

/-- The state of the `CPU` object that outlives a cycle; the program counters are
    `unsigned long`. -/
structure CPU where
  regFile : RegFile
  memory : Memory
  currentPC : BitVec 64
  nextPC : BitVec 64

namespace CPU

def init : CPU := ⟨RegFile.init, Memory.init, 0, 0⟩

def readPC (cpu : CPU) : BitVec 64 := cpu.currentPC

def updateCurrentFromNext (cpu : CPU) : CPU := { cpu with currentPC := cpu.nextPC }

def readRegister (cpu : CPU) (regNum : BitVec 8) : BitVec 32 := cpu.regFile.read regNum

/-- `CPU::fetch`: four bytes from `current_PC` on. -/
def fetch (cpu : CPU) (instMem : InstMem) : Option (BitVec 32) :=
  if h : cpu.currentPC.toNat + 3 < 4096 then
    let byte0 := instMem ⟨cpu.currentPC.toNat, by omega⟩
    let byte1 := instMem ⟨cpu.currentPC.toNat + 1, by omega⟩
    let byte2 := instMem ⟨cpu.currentPC.toNat + 2, by omega⟩
    let byte3 := instMem ⟨cpu.currentPC.toNat + 3, h⟩
    some ((byte3.setWidth 32 <<< 24) ||| (byte2.setWidth 32 <<< 16) ||| (byte1.setWidth 32 <<< 8)
      ||| byte0.setWidth 32)
  else none

/-- `CPU::decode`. -/
def decode (instruction : BitVec 32) : InstructionParts where
  opcode := (instruction &&& 0x7F#32).setWidth 8
  funct3 := ((instruction >>> 12) &&& 0x07#32).setWidth 8
  funct7 := ((instruction >>> 25) &&& 0x7F#32).setWidth 8
  rs1 := ((instruction >>> 15) &&& 0x1F#32).setWidth 8
  rs2 := ((instruction >>> 20) &&& 0x1F#32).setWidth 8
  rd := ((instruction >>> 7) &&& 0x1F#32).setWidth 8
  immediate := generate instruction

/-- The memory after the store of `execute`. -/
def storeStep (controller : Controller) (memory : Memory) (aluResult rs2Data : BitVec 32) :
    Option Memory :=
  if controller.memWrite then memory.write aluResult rs2Data else some memory

/-- `mem_data` of `execute`. -/
def loadStep (controller : Controller) (parts : InstructionParts) (memory : Memory)
    (aluResult : BitVec 32) : Option (BitVec 32) :=
  if controller.memRead then
    if parts.funct3 = 0x4 then (memory.readByte aluResult).map fun b => b.setWidth 32
    else if parts.funct3 = 0x2 then memory.read aluResult
    else some aluResult
  else some aluResult

/-- `pc_src` of `execute`. -/
def pcSrc (controller : Controller) (aluResult : BitVec 32) : ℕ :=
  if controller.branch && aluResult != 0 then 1 else if controller.link then 2 else 0

/-- `CPU::execute`: the state it leaves and the flag it returns. -/
def execute (cpu : CPU) (parts : InstructionParts) : Option (CPU × Bool) :=
  let controller := setControlSignals parts.opcode
  if controller.aluOp = .invalid then some (cpu, false)
  else
    let aluOperation := getALUOperation controller.aluOp parts
    if aluOperation = .invalid then some (cpu, false)
    else
      let rs1Data := cpu.regFile.read parts.rs1
      let rs2Data := cpu.regFile.read parts.rs2
      let aluInput2 := mux2 rs2Data parts.immediate controller.aluSrc
      let aluResult := compute rs1Data aluInput2 aluOperation
      (storeStep controller cpu.memory aluResult rs2Data).bind fun memory =>
        (loadStep controller parts memory aluResult).map fun memData =>
          let pcPlus4 : BitVec 32 := (cpu.currentPC + 4).setWidth 32
          let branchTarget : BitVec 32 :=
            (cpu.currentPC + parts.immediate.signExtend 64).setWidth 32
          let jumpTarget := aluResult &&& ~~~1#32
          let src := pcSrc controller aluResult
          let writebackData :=
            if src = 2 then pcPlus4 else mux2 aluResult memData controller.memRead
          let regFile :=
            if controller.regWrite then cpu.regFile.write parts.rd writebackData else cpu.regFile
          (⟨regFile, memory, cpu.currentPC,
            (mux3Pc pcPlus4 branchTarget jumpTarget src).setWidth 64⟩, true)

/-- `updateCurrentFromNext`, `fetch`, `decode`, `execute`. -/
def cycle (instMem : InstMem) (cpu : CPU) : Option (CPU × Bool) :=
  ((cpu.updateCurrentFromNext).fetch instMem).bind fun instruction =>
    (cpu.updateCurrentFromNext).execute (decode instruction)

/-- `n` cycles that all return true. -/
def cycles (instMem : InstMem) : ℕ → CPU → Option CPU
  | 0, cpu => some cpu
  | n + 1, cpu => (cycles instMem n cpu).bind fun cpu =>
      match cpu.cycle instMem with
      | some (cpu, true) => some cpu
      | _ => none

end CPU

end Cpusim
