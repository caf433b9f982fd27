import Ece116c.Lib.Hoare
import Ece116c.Lib.Rv32i

/-! A program logic for the runs of `Rv32i`: the weakest precondition of a block, of which only the
    last instruction may jump, and the triple of a block that lies somewhere in the code. -/

namespace Rv32i
open Hoare

variable {code : List (BitVec 8)} {bound : ℕ} {P : Instr → Prop} {Q : State → Prop}
  {s t : State} {a : BitVec 32} {is : List Instr}

/-! ### The instruction of a word -/

def Instr.decode (w : BitVec 32) : Option Instr :=
  let rd := w.extractLsb' 7 5
  let rs1 := w.extractLsb' 15 5
  let rs2 := w.extractLsb' 20 5
  let imm := w.extractLsb' 20 12
  if w.extractLsb' 0 7 = 0x37 then some (lui rd (w.extractLsb' 12 20))
  else if w.extractLsb' 0 7 = 0x13 then
    if w.extractLsb' 12 3 = 0x0 then some (addi rd rs1 imm)
    else if w.extractLsb' 12 3 = 0x6 then some (ori rd rs1 imm)
    else if w.extractLsb' 12 3 = 0x3 then some (sltiu rd rs1 imm)
    else none
  else if w.extractLsb' 0 7 = 0x33 then
    if w.extractLsb' 12 3 = 0x7 ∧ w.extractLsb' 25 7 = 0x00 then some (and rd rs1 rs2)
    else if w.extractLsb' 12 3 = 0x0 ∧ w.extractLsb' 25 7 = 0x20 then some (sub rd rs1 rs2)
    else if w.extractLsb' 12 3 = 0x5 ∧ w.extractLsb' 25 7 = 0x20 then some (sra rd rs1 rs2)
    else none
  else if w.extractLsb' 0 7 = 0x03 then
    if w.extractLsb' 12 3 = 0x2 then some (lw rd rs1 imm)
    else if w.extractLsb' 12 3 = 0x4 then some (lbu rd rs1 imm)
    else none
  else if w.extractLsb' 0 7 = 0x23 ∧ w.extractLsb' 12 3 = 0x2 then
    some (sw rs1 rs2 (w.extractLsb' 25 7 ++ w.extractLsb' 7 5))
  else if w.extractLsb' 0 7 = 0x63 ∧ w.extractLsb' 12 3 = 0x1 then
    some (bne rs1 rs2 (w.extractLsb' 31 1 ++ (w.extractLsb' 7 1 ++ (w.extractLsb' 25 6 ++
      w.extractLsb' 8 4))))
  else if w.extractLsb' 0 7 = 0x67 ∧ w.extractLsb' 12 3 = 0x0 then some (jalr rd rs1 imm)
  else none

/-- A word is the encoding of one instruction at most. -/
theorem Instr.decode_encode (i : Instr) : decode i.encode = some i := by
  cases i with
  | lui rd imm => simp [decode, encode, uType_opcode, uType_rd, uType_imm]
  | addi rd rs1 imm | ori rd rs1 imm | sltiu rd rs1 imm | lw rd rs1 imm | lbu rd rs1 imm
  | jalr rd rs1 imm =>
    simp [decode, encode, (iType_fields ..).opcode, (iType_fields ..).funct3,
      (iType_fields ..).rs1, iType_rd, iType_imm]
  | and rd rs1 rs2 | sub rd rs1 rs2 | sra rd rs1 rs2 =>
    simp [decode, encode, (rType_fields ..).opcode, (rType_fields ..).funct3,
      (rType_fields ..).rs1, rType_rd, rType_rs2, rType_funct7]
  | sw rs1 rs2 imm =>
    simp [decode, encode, (sType_fields ..).opcode, (sType_fields ..).funct3,
      (sType_fields ..).rs1, sType_rs2, sType_imm]
  | bne rs1 rs2 imm =>
    simp [decode, encode, (bType_fields ..).opcode, (bType_fields ..).funct3,
      (bType_fields ..).rs1, bType_rs2]
    exact bType_imm ..

theorem Instr.encode_injective : Function.Injective Instr.encode := fun i j h =>
  Option.some.inj (i.decode_encode ▸ j.decode_encode ▸ congrArg decode h)

/-! ### Steps -/

/-- One step of `Steps`. -/
def Step (code : List (BitVec 8)) (bound : ℕ) (P : Instr → Prop) (s t : State) : Prop :=
  ∃ i, P i ∧ fetch code s.pc = some i.encode ∧ i.InBounds bound s ∧ t = i.exec s

theorem exists_steps (h : Relation.ReflTransGen (Step code bound P) s t) :
    ∃ n, Steps code bound P n s t := by
  induction h with
  | refl => exact ⟨0, .zero s⟩
  | tail _ hstep ih =>
    obtain ⟨n, hn⟩ := ih
    obtain ⟨i, hP, hf, hb, rfl⟩ := hstep
    exact ⟨n + 1, .succ hn i hP hf hb⟩

/-- The word at the program counter decides the step. -/
theorem Step.eq_exec (h : Step code bound P s t) {i : Instr}
    (hf : fetch code s.pc = some i.encode) : t = i.exec s := by
  obtain ⟨j, -, hj, -, rfl⟩ := h
  rw [Instr.encode_injective (Option.some.inj (hf.symm.trans hj))]

/-- What every step keeps, a run keeps. -/
theorem Steps.keeps {I : State → Prop} (h : ∀ s t, I s → Step code bound P s t → I t) {n : ℕ}
    (hs : Steps code bound P n s t) (h0 : I s) : I t := by
  induction hs with
  | zero => exact h0
  | succ _ i hP hf hb ih => exact h _ _ (ih h0) ⟨i, hP, hf, hb, rfl⟩

/-- The instructions lie in the code from address `a` on. -/
def CodeAt (code : List (BitVec 8)) : BitVec 32 → List Instr → Prop
  | _, [] => True
  | a, i :: is => fetch code a = some i.encode ∧ CodeAt code (a + 4) is

instance decidableCodeAt (code : List (BitVec 8)) :
    (a : BitVec 32) → (is : List Instr) → Decidable (CodeAt code a is)
  | _, [] => isTrue trivial
  | a, _ :: is =>
    have := decidableCodeAt code (a + 4) is
    inferInstanceAs (Decidable (_ ∧ _))

/-- The program counter goes on to the next instruction. -/
def Instr.Falls : Instr → Prop
  | bne .. | jalr .. => False
  | _ => True

instance : (i : Instr) → Decidable i.Falls
  | .bne .. | .jalr .. => isFalse id
  | .lui .. | .addi .. | .ori .. | .sltiu .. | .and .. | .sub .. | .sra .. | .lw .. | .lbu ..
  | .sw .. => isTrue trivial

theorem Instr.Falls.pc {i : Instr} (h : i.Falls) (s : State) : (i.exec s).pc = s.pc + 4 := by
  cases i <;> first | rfl | exact absurd h id

/-- Only the last instruction may jump. -/
def Block : List Instr → Prop
  | [] => True
  | [_] => True
  | i :: j :: is => i.Falls ∧ Block (j :: is)

instance decidableBlock : (is : List Instr) → Decidable (Block is)
  | [] | [_] => isTrue trivial
  | i :: j :: is =>
    have := decidableBlock (j :: is)
    inferInstanceAs (Decidable (i.Falls ∧ _))

/-- The weakest precondition of a block. -/
def wp (bound : ℕ) (P : Instr → Prop) (Q : State → Prop) : List Instr → State → Prop
  | [], s => Q s
  | i :: is, s => P i ∧ i.InBounds bound s ∧ wp bound P Q is (i.exec s)

theorem triple_block (hcode : CodeAt code a is) (hblock : Block is) :
    Triple (Step code bound P) (fun s => s.pc = a ∧ wp bound P Q is s) Q := by
  induction is generalizing a with
  | nil => exact Triple.skip fun s hs => hs.2
  | cons i is ih =>
    obtain ⟨hfetch, hrest⟩ := hcode
    have hstep : ∀ s, s.pc = a ∧ wp bound P Q (i :: is) s →
        Step code bound P s (i.exec s) ∧ wp bound P Q is (i.exec s) := by
      rintro s ⟨rfl, hP, hb, hwp⟩
      exact ⟨⟨i, hP, hfetch, hb, rfl⟩, hwp⟩
    cases is with
    | nil =>
      refine Triple.first (fun s hs => ⟨_, hstep s hs⟩) (Triple.skip fun _ => id)
    | cons j is =>
      refine Triple.first (fun s hs => ⟨_, (hstep s hs).1, ?_, (hstep s hs).2⟩) (ih hrest hblock.2)
      rw [hblock.1.pc, hs.1]

/-! ### Symbolic execution -/

@[simp] theorem Regs.get_set (r : Regs) (rd i : BitVec 5) (v : BitVec 32) :
    (r.set rd v).get i = if i = rd ∧ rd ≠ 0 then v else r.get i := rfl

@[simp] theorem State.write_regs (s : State) (rd : BitVec 5) (v : BitVec 32) :
    (s.write rd v).regs = s.regs.set rd v := rfl

@[simp] theorem State.write_mem (s : State) (rd : BitVec 5) (v : BitVec 32) :
    (s.write rd v).mem = s.mem := rfl

@[simp] theorem State.write_pc (s : State) (rd : BitVec 5) (v : BitVec 32) :
    (s.write rd v).pc = s.pc + 4 := rfl

end Rv32i
