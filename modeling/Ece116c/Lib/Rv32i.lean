import Ece116c.Lib.Bits
import Mathlib.Logic.Function.Basic

/-! A part of the RV32I base instruction set, as its manual has it: formats and encodings, the
    registers with `x0 = 0`, little-endian memory, and the effect of every instruction.

    A run fetches from a list of bytes that nobody writes and may touch data below a bound only;
    instruction-address-misaligned exceptions are left out. -/

namespace Rv32i

/-! ### Encodings -/

/-- Immediates are the fields of the encoding; `bne` keeps bits 12 to 1 of its offset. -/
inductive Instr
  | lui (rd : BitVec 5) (imm : BitVec 20)
  | addi (rd rs1 : BitVec 5) (imm : BitVec 12)
  | ori (rd rs1 : BitVec 5) (imm : BitVec 12)
  | sltiu (rd rs1 : BitVec 5) (imm : BitVec 12)
  | and (rd rs1 rs2 : BitVec 5)
  | sub (rd rs1 rs2 : BitVec 5)
  | sra (rd rs1 rs2 : BitVec 5)
  | lw (rd rs1 : BitVec 5) (imm : BitVec 12)
  | lbu (rd rs1 : BitVec 5) (imm : BitVec 12)
  | sw (rs1 rs2 : BitVec 5) (imm : BitVec 12)
  | bne (rs1 rs2 : BitVec 5) (imm : BitVec 12)
  | jalr (rd rs1 : BitVec 5) (imm : BitVec 12)
  deriving DecidableEq, Repr

section Formats

variable (opcode : BitVec 7) (funct3 : BitVec 3) (funct7 : BitVec 7) (rd rs1 rs2 : BitVec 5)

def rType : BitVec 32 := funct7 ++ rs2 ++ rs1 ++ funct3 ++ rd ++ opcode

def iType (imm : BitVec 12) : BitVec 32 := imm ++ rs1 ++ funct3 ++ rd ++ opcode

def sType (imm : BitVec 12) : BitVec 32 :=
  imm.extractLsb' 5 7 ++ rs2 ++ rs1 ++ funct3 ++ imm.extractLsb' 0 5 ++ opcode

def bType (imm : BitVec 12) : BitVec 32 :=
  imm.extractLsb' 11 1 ++ imm.extractLsb' 4 6 ++ rs2 ++ rs1 ++ funct3 ++
    imm.extractLsb' 0 4 ++ imm.extractLsb' 10 1 ++ opcode

def uType (imm : BitVec 20) : BitVec 32 := imm ++ rd ++ opcode

end Formats

def Instr.encode : Instr → BitVec 32
  | lui rd imm => uType 0x37 rd imm
  | addi rd rs1 imm => iType 0x13 0x0 rd rs1 imm
  | ori rd rs1 imm => iType 0x13 0x6 rd rs1 imm
  | sltiu rd rs1 imm => iType 0x13 0x3 rd rs1 imm
  | and rd rs1 rs2 => rType 0x33 0x7 0x00 rd rs1 rs2
  | sub rd rs1 rs2 => rType 0x33 0x0 0x20 rd rs1 rs2
  | sra rd rs1 rs2 => rType 0x33 0x5 0x20 rd rs1 rs2
  | lw rd rs1 imm => iType 0x03 0x2 rd rs1 imm
  | lbu rd rs1 imm => iType 0x03 0x4 rd rs1 imm
  | sw rs1 rs2 imm => sType 0x23 0x2 rs1 rs2 imm
  | bne rs1 rs2 imm => bType 0x63 0x1 rs1 rs2 imm
  | jalr rd rs1 imm => iType 0x67 0x0 rd rs1 imm

/-! ### State -/

/-- The registers, with `x0` tied to zero. -/
@[ext] structure Regs where
  get : BitVec 5 → BitVec 32
  zero : get 0 = 0

def Regs.init : Regs := ⟨fun _ => 0, rfl⟩

/-- A write; `x0` swallows it. -/
def Regs.set (r : Regs) (rd : BitVec 5) (v : BitVec 32) : Regs where
  get i := if i = rd ∧ rd ≠ 0 then v else r.get i
  zero := by
    rw [if_neg]
    · exact r.zero
    · rintro ⟨h, hne⟩; exact hne h.symm

/-- The word at an address, lowest byte first. -/
def load32 (mem : BitVec 32 → BitVec 8) (a : BitVec 32) : BitVec 32 :=
  mem (a + 3) ++ mem (a + 2) ++ mem (a + 1) ++ mem a

def store32 (mem : BitVec 32 → BitVec 8) (a v : BitVec 32) : BitVec 32 → BitVec 8 :=
  Function.update (Function.update (Function.update (Function.update mem
    a (v.extractLsb' 0 8)) (a + 1) (v.extractLsb' 8 8)) (a + 2) (v.extractLsb' 16 8))
    (a + 3) (v.extractLsb' 24 8)

/-- A store changes the four bytes from `a` on. -/
theorem store32_apply (mem : BitVec 32 → BitVec 8) (a v x : BitVec 32) :
    store32 mem a v x =
      if (x - a).toNat < 4 then v.extractLsb' (8 * (x - a).toNat) 8 else mem x := by
  have hx : ∀ k : BitVec 32, x = a + k ↔ x - a = k := fun k => by rw [sub_eq_iff_eq_add, add_comm]
  have hx0 : x = a ↔ x - a = 0 := sub_eq_zero.symm
  simp only [store32, Function.update_apply, hx, hx0]
  generalize x - a = d
  by_cases hd : d.toNat < 4
  · have hcases : d = 0 ∨ d = 1 ∨ d = 2 ∨ d = 3 := by bv_omega
    rw [if_pos hd]
    rcases hcases with rfl | rfl | rfl | rfl <;> rfl
  · have hne : ∀ k : BitVec 32, k.toNat < 4 → d ≠ k := by
      rintro k hk rfl
      exact hd hk
    rw [if_neg hd, if_neg (hne 3 (by decide)), if_neg (hne 2 (by decide)),
      if_neg (hne 1 (by decide)), if_neg (hne 0 (by decide))]

structure State where
  regs : Regs
  mem : BitVec 32 → BitVec 8
  pc : BitVec 32

/-- Registers and memory zero, `pc` 0. -/
def State.init : State := ⟨Regs.init, fun _ => 0, 0⟩

/-- Write a register and go to the next instruction. -/
def State.write (s : State) (rd : BitVec 5) (v : BitVec 32) : State :=
  { s with regs := s.regs.set rd v, pc := s.pc + 4 }

/-! ### Effects -/

/-- A register plus a sign-extended immediate. -/
def State.addr (s : State) (rs1 : BitVec 5) (imm : BitVec 12) : BitVec 32 :=
  s.regs.get rs1 + imm.signExtend 32

def Instr.exec (s : State) : Instr → State
  | lui rd imm => s.write rd (imm ++ 0#12)
  | addi rd rs1 imm => s.write rd (s.regs.get rs1 + imm.signExtend 32)
  | ori rd rs1 imm => s.write rd (s.regs.get rs1 ||| imm.signExtend 32)
  | sltiu rd rs1 imm => s.write rd (if s.regs.get rs1 < imm.signExtend 32 then 1 else 0)
  | and rd rs1 rs2 => s.write rd (s.regs.get rs1 &&& s.regs.get rs2)
  | sub rd rs1 rs2 => s.write rd (s.regs.get rs1 - s.regs.get rs2)
  | sra rd rs1 rs2 => s.write rd ((s.regs.get rs1).sshiftRight ((s.regs.get rs2).toNat % 32))
  | lw rd rs1 imm => s.write rd (load32 s.mem (s.addr rs1 imm))
  | lbu rd rs1 imm => s.write rd ((s.mem (s.addr rs1 imm)).setWidth 32)
  | sw rs1 rs2 imm =>
    { s with mem := store32 s.mem (s.addr rs1 imm) (s.regs.get rs2), pc := s.pc + 4 }
  | bne rs1 rs2 imm =>
    { s with pc := if s.regs.get rs1 ≠ s.regs.get rs2 then s.pc + (imm ++ 0#1).signExtend 32
        else s.pc + 4 }
  | jalr rd rs1 imm =>
    { s with regs := s.regs.set rd (s.pc + 4), pc := s.addr rs1 imm &&& ~~~1#32 }

/-- The data accesses of an instruction lie below `bound`. -/
def Instr.InBounds (bound : ℕ) (s : State) : Instr → Prop
  | lw _ rs1 imm | sw rs1 _ imm => (s.addr rs1 imm).toNat + 4 ≤ bound
  | lbu _ rs1 imm => (s.addr rs1 imm).toNat + 1 ≤ bound
  | _ => True

instance (bound : ℕ) (s : State) (i : Instr) : Decidable (i.InBounds bound s) := by
  cases i <;> unfold Instr.InBounds <;> infer_instance

/-! ### Runs -/

/-- The word at `pc`, if all of it lies inside the code. -/
def fetch (code : List (BitVec 8)) (pc : BitVec 32) : Option (BitVec 32) := do
  let b0 ← code[pc.toNat]?
  let b1 ← code[pc.toNat + 1]?
  let b2 ← code[pc.toNat + 2]?
  let b3 ← code[pc.toNat + 3]?
  return b3 ++ b2 ++ b1 ++ b0

/-- `n` steps through the code, each an instruction with `P` and inside the data memory. -/
inductive Steps (code : List (BitVec 8)) (bound : ℕ) (P : Instr → Prop) :
    ℕ → State → State → Prop
  | zero (s : State) : Steps code bound P 0 s s
  | succ {n : ℕ} {s t : State} (h : Steps code bound P n s t) (i : Instr) (hP : P i)
      (hf : fetch code t.pc = some i.encode) (hb : i.InBounds bound t) :
      Steps code bound P (n + 1) s (i.exec t)

/-! ### The fields of an encoding -/

section Fields

open Bits

variable (opcode : BitVec 7) (funct3 : BitVec 3) (funct7 : BitVec 7) (rd rs1 rs2 : BitVec 5)

/-- The fields every format but U has in the same place. -/
structure Fields (w : BitVec 32) : Prop where
  opcode : w.extractLsb' 0 7 = opcode
  funct3 : w.extractLsb' 12 3 = funct3
  rs1 : w.extractLsb' 15 5 = rs1

theorem rType_fields : Fields opcode funct3 rs1 (rType opcode funct3 funct7 rd rs1 rs2) where
  opcode := slice_low
  funct3 := slice_skip (slice_skip slice_low)
  rs1 := slice_skip (slice_skip (slice_skip slice_low))

theorem rType_rd : (rType opcode funct3 funct7 rd rs1 rs2).extractLsb' 7 5 = rd :=
  slice_skip slice_low

theorem rType_rs2 : (rType opcode funct3 funct7 rd rs1 rs2).extractLsb' 20 5 = rs2 :=
  slice_skip (slice_skip (slice_skip (slice_skip slice_low)))

theorem rType_funct7 : (rType opcode funct3 funct7 rd rs1 rs2).extractLsb' 25 7 = funct7 :=
  slice_skip (slice_skip (slice_skip (slice_skip (slice_skip slice_all))))

variable (imm : BitVec 12)

theorem iType_fields : Fields opcode funct3 rs1 (iType opcode funct3 rd rs1 imm) where
  opcode := slice_low
  funct3 := slice_skip (slice_skip slice_low)
  rs1 := slice_skip (slice_skip (slice_skip slice_low))

theorem iType_rd : (iType opcode funct3 rd rs1 imm).extractLsb' 7 5 = rd := slice_skip slice_low

theorem iType_funct7 : (iType opcode funct3 rd rs1 imm).extractLsb' 25 7 = imm.extractLsb' 5 7 :=
  slice_skip (slice_skip (slice_skip (slice_skip rfl)))

theorem iType_imm : (iType opcode funct3 rd rs1 imm).extractLsb' 20 12 = imm :=
  slice_skip (slice_skip (slice_skip (slice_skip slice_all)))

theorem sType_fields : Fields opcode funct3 rs1 (sType opcode funct3 rs1 rs2 imm) where
  opcode := slice_low
  funct3 := slice_skip (slice_skip slice_low)
  rs1 := slice_skip (slice_skip (slice_skip slice_low))

theorem sType_rs2 : (sType opcode funct3 rs1 rs2 imm).extractLsb' 20 5 = rs2 :=
  slice_skip (slice_skip (slice_skip (slice_skip slice_low)))

/-- The two parts of a store's offset. -/
theorem sType_imm : (sType opcode funct3 rs1 rs2 imm).extractLsb' 25 7 ++
    (sType opcode funct3 rs1 rs2 imm).extractLsb' 7 5 = imm := by
  have hhi : (sType opcode funct3 rs1 rs2 imm).extractLsb' 25 7 = imm.extractLsb' 5 7 :=
    slice_skip (slice_skip (slice_skip (slice_skip (slice_skip slice_all))))
  have hlo : (sType opcode funct3 rs1 rs2 imm).extractLsb' 7 5 = imm.extractLsb' 0 5 :=
    slice_skip slice_low
  rw [hhi, hlo]
  exact BitVec.extractLsb'_append_extractLsb'

theorem bType_fields : Fields opcode funct3 rs1 (bType opcode funct3 rs1 rs2 imm) where
  opcode := slice_low
  funct3 := slice_skip (slice_skip (slice_skip slice_low))
  rs1 := slice_skip (slice_skip (slice_skip (slice_skip slice_low)))

theorem bType_rs2 : (bType opcode funct3 rs1 rs2 imm).extractLsb' 20 5 = rs2 :=
  slice_skip (slice_skip (slice_skip (slice_skip (slice_skip slice_low))))

/-- The four parts of a branch offset. -/
theorem bType_imm : (bType opcode funct3 rs1 rs2 imm).extractLsb' 31 1 ++
    ((bType opcode funct3 rs1 rs2 imm).extractLsb' 7 1 ++
      ((bType opcode funct3 rs1 rs2 imm).extractLsb' 25 6 ++
        (bType opcode funct3 rs1 rs2 imm).extractLsb' 8 4)) = imm := by
  have h12 : (bType opcode funct3 rs1 rs2 imm).extractLsb' 31 1 = imm.extractLsb' 11 1 :=
    slice_skip (slice_skip (slice_skip (slice_skip (slice_skip (slice_skip (slice_skip
      slice_all))))))
  have h11 : (bType opcode funct3 rs1 rs2 imm).extractLsb' 7 1 = imm.extractLsb' 10 1 :=
    slice_skip slice_low
  have h10 : (bType opcode funct3 rs1 rs2 imm).extractLsb' 25 6 = imm.extractLsb' 4 6 :=
    slice_skip (slice_skip (slice_skip (slice_skip (slice_skip (slice_skip slice_low)))))
  have h4 : (bType opcode funct3 rs1 rs2 imm).extractLsb' 8 4 = imm.extractLsb' 0 4 :=
    slice_skip (slice_skip slice_low)
  rw [h12, h11, h10, h4,
    BitVec.extractLsb'_append_extractLsb'_eq_extractLsb' (show 4 = 0 + 4 from rfl),
    BitVec.extractLsb'_append_extractLsb'_eq_extractLsb' (show 10 = 0 + (6 + 4) from rfl),
    BitVec.extractLsb'_append_extractLsb'_eq_extractLsb' (show 11 = 0 + (1 + (6 + 4)) from rfl)]
  exact slice_all

theorem uType_opcode (u : BitVec 20) : (uType opcode rd u).extractLsb' 0 7 = opcode := slice_low

theorem uType_rd (u : BitVec 20) : (uType opcode rd u).extractLsb' 7 5 = rd := slice_skip slice_low

theorem uType_imm (u : BitVec 20) : (uType opcode rd u).extractLsb' 12 20 = u :=
  slice_skip (slice_skip slice_all)

end Fields

end Rv32i
