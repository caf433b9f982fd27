import Ece116c.Cpusim.Refine
import Ece116c.Lib.Rv32iFurther

/-! Stores of a halfword. `execute` writes to memory by the opcode alone, so `sh` writes the word
    that `sw` writes, and is right where the two bytes above hold the upper half already. -/

namespace Cpusim

open Rv32i Bits

/-- Executing `sh` stores the low half of `rs2` and leaves the rest of the memory and the
    registers. -/
def StoresHalf (cpu : CPU) (rs1 rs2 : BitVec 5) (imm : BitVec 12) : Prop :=
  ∃ cpu', cpu.execute (CPU.decode (sType 0x23 0x1 rs1 rs2 imm)) = some (cpu', true) ∧
    cpu'.memory.memory =
      store16 cpu.memory.memory (cpu.effective rs1 imm) (cpu.regFile.registers rs2) ∧
    cpu'.regFile = cpu.regFile

/-- The two bytes after the halfword at `a` lie in the memory and hold the upper half of `v`. -/
def UpperStands (mem : BitVec 32 → BitVec 8) (a v : BitVec 32) : Prop :=
  a.toNat + 3 < memorySize ∧ mem (a + 2) = v.extractLsb' 16 8 ∧ mem (a + 3) = v.extractLsb' 24 8

instance (mem : BitVec 32 → BitVec 8) (a v : BitVec 32) : Decidable (UpperStands mem a v) := by
  unfold UpperStands
  infer_instance

/-! ### One store -/

/-- The upper half makes the difference between the two widths. -/
theorem store32_eq_store16 (mem : BitVec 32 → BitVec 8) (a v : BitVec 32) :
    store32 mem a v = store16 mem a v ↔
      mem (a + 2) = v.extractLsb' 16 8 ∧ mem (a + 3) = v.extractLsb' 24 8 := by
  have h20 : a + 2 ≠ a := by bv_omega
  have h21 : a + 2 ≠ a + 1 := by bv_omega
  have h30 : a + 3 ≠ a := by bv_omega
  have h31 : a + 3 ≠ a + 1 := by bv_omega
  have h32 : a + 3 ≠ a + 2 := by bv_omega
  have h2 : store16 mem a v (a + 2) = mem (a + 2) := by
    rw [store16, Function.update_of_ne h21, Function.update_of_ne h20]
  have h3 : store16 mem a v (a + 3) = mem (a + 3) := by
    rw [store16, Function.update_of_ne h31, Function.update_of_ne h30]
  have h32' : store32 mem a v = Function.update (Function.update (store16 mem a v) (a + 2)
    (v.extractLsb' 16 8)) (a + 3) (v.extractLsb' 24 8) := rfl
  rw [h32', ← h2, ← h3]
  constructor
  · intro h
    have e2 := congrFun h (a + 2)
    have e3 := congrFun h (a + 3)
    rw [Function.update_of_ne h32.symm, Function.update_self] at e2
    rw [Function.update_self] at e3
    exact ⟨e2.symm, e3.symm⟩
  · rintro ⟨e2, e3⟩
    rw [← e2, Function.update_eq_self, ← e3, Function.update_eq_self]

theorem write_outside {m : Memory} {a v : BitVec 32} (h : ¬a.toNat + 3 < memorySize) :
    m.write a v = none := by
  rw [Memory.write, if_neg h]

/-- `sh` stores a halfword where the upper half stands. -/
theorem storesHalf_iff (cpu : CPU) (rs1 rs2 : BitVec 5) (imm : BitVec 12) :
    StoresHalf cpu rs1 rs2 imm ↔
      UpperStands cpu.memory.memory (cpu.effective rs1 imm) (cpu.regFile.registers rs2) := by
  rw [StoresHalf, UpperStands, execute_sType]
  by_cases hlt : (cpu.effective rs1 imm).toNat + 3 < memorySize
  · rw [write_word (by omega), Option.map_some, ← store32_eq_store16, and_iff_right hlt]
    constructor
    · rintro ⟨cpu', hx, hm, -⟩
      cases hx
      exact hm
    · intro h
      exact ⟨_, rfl, h, rfl⟩
  · rw [write_outside hlt, Option.map_none]
    simp [hlt]

/-! ### Stores one after the other -/

/-- The two stores that `generate` names. -/
inductive Store
  | sw (rs1 rs2 : BitVec 5) (imm : BitVec 12)
  | sh (rs1 rs2 : BitVec 5) (imm : BitVec 12)
  deriving DecidableEq, Repr

namespace Store

def encode : Store → BitVec 32
  | sw rs1 rs2 imm => sType 0x23 0x2 rs1 rs2 imm
  | sh rs1 rs2 imm => sType 0x23 0x1 rs1 rs2 imm

def exec (s : State) : Store → State
  | sw rs1 rs2 imm =>
    { s with mem := store32 s.mem (s.addr rs1 imm) (s.regs.get rs2), pc := s.pc + 4 }
  | sh rs1 rs2 imm =>
    { s with mem := store16 s.mem (s.addr rs1 imm) (s.regs.get rs2), pc := s.pc + 4 }

/-- The store lies in the memory, and the upper half of a halfword's register stands there. -/
def Right (s : State) : Store → Prop
  | sw rs1 _ imm => (s.addr rs1 imm).toNat + 3 < memorySize
  | sh rs1 rs2 imm => UpperStands s.mem (s.addr rs1 imm) (s.regs.get rs2)

instance (s : State) (i : Store) : Decidable (i.Right s) := by
  cases i <;> unfold Right <;> infer_instance

/-- Every store is right in the state that the ones before it leave. -/
def AllRight : List Store → State → Prop
  | [], _ => True
  | i :: l, s => i.Right s ∧ AllRight l (i.exec s)

instance decidableAllRight : (l : List Store) → (s : State) → Decidable (AllRight l s)
  | [], _ => .isTrue trivial
  | i :: l, s =>
    have := decidableAllRight l (i.exec s)
    inferInstanceAs (Decidable (_ ∧ _))

end Store

/-- Cycles that execute these stores and all return true. -/
def CPU.stores : List Store → CPU → Option CPU
  | [], cpu => some cpu
  | i :: l, cpu =>
    match cpu.updateCurrentFromNext.execute (CPU.decode i.encode) with
    | some (cpu, true) => stores l cpu
    | _ => none

theorem Store.execute_right {cpu : CPU} {s : State} (h : At cpu s) {i : Store}
    (hi : i.Right s) :
    ∃ cpu', cpu.execute (CPU.decode i.encode) = some (cpu', true) ∧ Rep cpu' (i.exec s) := by
  cases i with
  | sw rs1 rs2 imm => exact exec_store h rs1 rs2 imm 0x2 hi
  | sh rs1 rs2 imm =>
    obtain ⟨hb, hstands⟩ := hi
    have hx := exec_store h rs1 rs2 imm 0x1 hb
    rwa [(store32_eq_store16 _ _ _).mpr hstands] at hx

theorem stores_right {l : List Store} {cpu : CPU} {s : State} (hr : Rep cpu s)
    (hl : Store.AllRight l s) :
    ∃ cpu', CPU.stores l cpu = some cpu' ∧ Rep cpu' (l.foldl Store.exec s) := by
  induction l generalizing cpu s with
  | nil => exact ⟨cpu, rfl, hr⟩
  | cons i l ih =>
    obtain ⟨cpu₁, hx, hr₁⟩ := Store.execute_right hr.update hl.1
    obtain ⟨cpu₂, hs, hr₂⟩ := ih hr₁ hl.2
    exact ⟨cpu₂, by rw [CPU.stores, hx]; exact hs, hr₂⟩

/-- **A halfword store.** It is right if and only if the two bytes above the halfword lie in the
    memory and hold the upper half of the register already; and stores of words and halfwords in
    any order, each halfword store right in its turn, leave what the instruction set leaves. -/
theorem store_halfword (cpu : CPU) :
    (∀ (rs1 rs2 : BitVec 5) (imm : BitVec 12), StoresHalf cpu rs1 rs2 imm ↔
      UpperStands cpu.memory.memory (cpu.effective rs1 imm) (cpu.regFile.registers rs2)) ∧
    ∀ (l : List Store) (s : State), Rep cpu s → Store.AllRight l s →
      ∃ cpu', CPU.stores l cpu = some cpu' ∧ Rep cpu' (l.foldl Store.exec s) :=
  ⟨storesHalf_iff cpu, fun _ _ => stores_right⟩

/-- Registers zero but for `x1 = 0x00018001`. -/
def halfRegs : Regs := Regs.init.set 1 0x00018001

theorem store_halfword_over_word :
    ∃ cpu', CPU.stores [.sw 0 1 4, .sh 0 1 4, .sw 0 1 2]
        ⟨⟨halfRegs.get⟩, Memory.init, 0, 0⟩ = some cpu' ∧
      cpu'.memory.memory 4 = 0x01 ∧ cpu'.memory.memory 5 = 0x00 := by
  obtain ⟨cpu', hs, hr⟩ := (store_halfword ⟨⟨halfRegs.get⟩, Memory.init, 0, 0⟩).2
    [.sw 0 1 4, .sh 0 1 4, .sw 0 1 2] ⟨halfRegs, fun _ => 0, 0⟩ ⟨rfl, rfl, rfl⟩ (by decide)
  refine ⟨cpu', hs, ?_⟩
  rw [hr.mem]
  decide

/-- `sh x1, 0(x0)` writes the third byte of `x1` as well. -/
theorem store_halfword_overruns :
    (CPU.effective ⟨⟨halfRegs.get⟩, Memory.init, 0, 0⟩ 0 0).toNat + 1 < memorySize ∧
      ¬StoresHalf ⟨⟨halfRegs.get⟩, Memory.init, 0, 0⟩ 0 1 0 := by
  refine ⟨by decide, ?_⟩
  rw [storesHalf_iff]
  decide

end Cpusim
