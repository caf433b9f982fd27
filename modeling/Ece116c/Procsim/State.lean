import Mathlib.Data.Fintype.Basic

/-! The records and globals of the out-of-order simulator (`procsim.hpp`, top of `procsim.cpp`).

    A run is described by a `Config` (the five command-line numbers) and a trace. The globals of
    `procsim.cpp` are the fields of one record `Proc`, under their own names. Counters are `ℕ`:
    the numbers come from `atoi`, so every queue bound stays far below `2 ^ 64`, and the loop is
    cut at cycle 200001. The field `-1` of an entry that has not fired is `none`. -/

namespace Procsim

/-- The five fields `read_instruction` scans from one line of the trace; `src_reg[2]` is the pair
    `srcReg0`, `srcReg1`, and a register is `-1` when the instruction does not use it. -/
structure TraceInst where
  instructionAddress : ℕ
  opCode : ℤ
  destReg : ℤ
  srcReg0 : ℤ
  srcReg1 : ℤ
  deriving DecidableEq, Repr

instance : Inhabited TraceInst := ⟨⟨0, 0, -1, -1, -1⟩⟩

/-- `src_reg[s]`. -/
def TraceInst.srcReg (t : TraceInst) : Fin 2 → ℤ
  | 0 => t.srcReg0
  | 1 => t.srcReg1

/-- A register field the traces use: `-1` for none, else one of the 128 registers. -/
def ValidReg (x : ℤ) : Prop := x = -1 ∨ (0 ≤ x ∧ x < 128)

instance (x : ℤ) : Decidable (ValidReg x) := inferInstanceAs (Decidable (_ ∨ _))

/-- A trace line with a known op code and registers inside the scoreboard. -/
structure TraceInst.Valid (t : TraceInst) : Prop where
  op : t.opCode = -1 ∨ t.opCode = 0 ∨ t.opCode = 1 ∨ t.opCode = 2
  dest : ValidReg t.destReg
  src0 : ValidReg t.srcReg0
  src1 : ValidReg t.srcReg1

theorem TraceInst.valid_iff (t : TraceInst) : t.Valid ↔
    (t.opCode = -1 ∨ t.opCode = 0 ∨ t.opCode = 1 ∨ t.opCode = 2) ∧
      ValidReg t.destReg ∧ ValidReg t.srcReg0 ∧ ValidReg t.srcReg1 :=
  ⟨fun h => ⟨h.op, h.dest, h.src0, h.src1⟩, fun ⟨a, b, c, d⟩ => ⟨a, b, c, d⟩⟩

instance (t : TraceInst) : Decidable t.Valid := decidable_of_iff' _ t.valid_iff

/-- Every line of the trace is valid. -/
def ValidTrace (tr : List TraceInst) : Prop := ∀ t ∈ tr, t.Valid

instance (tr : List TraceInst) : Decidable (ValidTrace tr) :=
  inferInstanceAs (Decidable (∀ t ∈ tr, t.Valid))

/-- `proc_inst_t`: a trace line with its number and the cycle it entered each stage (0: not yet). -/
structure ProcInst extends TraceInst where
  instNum : ℕ
  fetchCycle : ℕ
  dispCycle : ℕ
  schedCycle : ℕ
  execCycle : ℕ
  stateCycle : ℕ
  deriving DecidableEq, Repr

/-- The three arrays of functional units. -/
inductive FuType where | k0 | k1 | k2
  deriving DecidableEq, Repr

instance : Fintype FuType := ⟨{.k0, .k1, .k2}, fun t => by cases t <;> decide⟩

/-- `get_fu_units`: the array an op code runs on, `none` for its null pointer. -/
def getFuUnits (opCode : ℤ) : Option FuType :=
  if opCode = 0 then some .k0
  else if opCode = -1 ∨ opCode = 1 then some .k1
  else if opCode = 2 then some .k2
  else none

structure FunctionalUnit where
  busy : Bool
  cycles : ℕ
  currentTag : ℕ
  deriving DecidableEq, Repr

/-- `k0_units`, `k1_units`, `k2_units`. -/
structure FuBank where
  k0Units : List FunctionalUnit
  k1Units : List FunctionalUnit
  k2Units : List FunctionalUnit
  deriving DecidableEq, Repr

def FuBank.get (b : FuBank) : FuType → List FunctionalUnit
  | .k0 => b.k0Units
  | .k1 => b.k1Units
  | .k2 => b.k2Units

def FuBank.set (b : FuBank) (us : List FunctionalUnit) : FuType → FuBank
  | .k0 => { b with k0Units := us }
  | .k1 => { b with k1Units := us }
  | .k2 => { b with k2Units := us }

@[simp] theorem FuBank.get_set (b : FuBank) (us : List FunctionalUnit) (t t' : FuType) :
    (b.set us t).get t' = if t' = t then us else b.get t' := by
  cases t <;> cases t' <;> rfl

section Unit

variable (b : FuBank) (t t' : FuType) (j j' : ℕ) (f : FunctionalUnit → FunctionalUnit)

theorem FuBank.length_modify :
    ((b.set ((b.get t).modify j f) t).get t').length = (b.get t').length := by
  rw [FuBank.get_set]
  split
  · rename_i heq
    rw [heq, List.length_modify]
  · rfl

/-- Changing one unit leaves every other one as it was. -/
theorem FuBank.getElem?_modify : ((b.set ((b.get t).modify j f) t).get t')[j']? =
    if t' = t ∧ j' = j then (b.get t')[j']?.map f else (b.get t')[j']? := by
  rw [FuBank.get_set]
  by_cases ht : t' = t
  · subst ht
    rw [if_pos rfl]
    by_cases hj : j' = j
    · rw [if_pos ⟨rfl, hj⟩, hj, List.getElem?_modify_eq]
      rfl
    · rw [if_neg fun h => hj h.2, List.getElem?_modify_ne _ _ (Ne.symm hj)]
  · rw [if_neg ht, if_neg fun h => ht h.1]

end Unit

/-- One reservation-station / reorder-buffer slot. -/
@[ext] structure ScheduleEntry where
  instruction : ProcInst
  tag : ℕ
  fired : Bool
  fuIndex : Option ℕ
  fuType : Option FuType
  broadcast : Bool
  onResultBus : Bool
  src0Ready : Bool
  src0Tag : ℕ
  src1Ready : Bool
  src1Tag : ℕ
  deriving DecidableEq, Repr

/-- `src0_ready`, `src1_ready` by source number. -/
def ScheduleEntry.srcReady (e : ScheduleEntry) : Fin 2 → Bool
  | 0 => e.src0Ready
  | 1 => e.src1Ready

/-- `src0_tag`, `src1_tag` by source number. -/
def ScheduleEntry.srcTag (e : ScheduleEntry) : Fin 2 → ℕ
  | 0 => e.src0Tag
  | 1 => e.src1Tag

/-- `-r`, `-j`, `-k`, `-l`, `-f`. -/
structure Config where
  r : ℕ
  k0 : ℕ
  k1 : ℕ
  k2 : ℕ
  f : ℕ
  deriving DecidableEq, Repr

/-- `num_k0_fus`, `num_k1_fus`, `num_k2_fus`. -/
def Config.k (cfg : Config) : FuType → ℕ
  | .k0 => cfg.k0
  | .k1 => cfg.k1
  | .k2 => cfg.k2

def Config.scheduleQueueSize (cfg : Config) : ℕ := 2 * (cfg.k0 + cfg.k1 + cfg.k2)

/-- Every resource of the machine is there. -/
structure Config.Pos (cfg : Config) : Prop where
  r : 1 ≤ cfg.r
  k0 : 1 ≤ cfg.k0
  k1 : 1 ≤ cfg.k1
  k2 : 1 ≤ cfg.k2
  f : 1 ≤ cfg.f

theorem Config.Pos.k_pos {cfg : Config} (h : cfg.Pos) : ∀ t, 1 ≤ cfg.k t
  | .k0 => h.k0
  | .k1 => h.k1
  | .k2 => h.k2

/-- The globals of `procsim.cpp`; `input` is what `read_instruction` has not read yet. -/
structure Proc where
  input : List TraceInst
  units : FuBank
  dispatchQueue : List ProcInst
  resultBusQueue : List ℕ
  retiredQueue : List ℕ
  fetchQueue : List ProcInst
  scheduleQueue : List ScheduleEntry
  nextTag : ℕ
  registerTag : List ℕ
  completedInstructions : List ProcInst
  totalDispatchSize : ℕ
  totalInstFired : ℕ
  totalInstRetired : ℕ
  cycleCount : ℕ
  maxDispatchSize : ℕ
  fetchComplete : Bool
  deriving DecidableEq, Repr

/-- `init_fu`: `size` idle units. -/
def initFu (size : ℕ) : List FunctionalUnit := List.replicate size ⟨false, 0, 0⟩

/-- `setup_proc`, with the trace waiting on the input. -/
def setupProc (cfg : Config) (tr : List TraceInst) : Proc where
  input := tr
  units := ⟨initFu cfg.k0, initFu cfg.k1, initFu cfg.k2⟩
  dispatchQueue := []
  resultBusQueue := []
  retiredQueue := []
  fetchQueue := []
  scheduleQueue := []
  nextTag := 1
  registerTag := List.replicate 128 0
  completedInstructions := []
  totalDispatchSize := 0
  totalInstFired := 0
  totalInstRetired := 0
  cycleCount := 0
  maxDispatchSize := 0
  fetchComplete := false

end Procsim
