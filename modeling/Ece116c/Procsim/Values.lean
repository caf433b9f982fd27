import Ece116c.Procsim.Refine

/-! Values for the tags. The simulator hands tags around and computes nothing; here there is a
    register file, and every tag has operands, read and written where the code looks at
    `register_tag`, makes an entry or meets a tag again. What the lines of a trace compute is
    arbitrary, and `Meaning.inOrder` says what they leave when they run one after the other. -/

namespace Procsim

/-- What a line computes from its sources, of which one without a register has no value, and the
    registers at the start. -/
structure Meaning (ν : Type*) where
  compute : TraceInst → (Fin 2 → Option ν) → ν
  registers : ℤ → ν

variable {ν : Type*}

def readSource (registers : ℤ → ν) (reg : ℤ) : Option ν :=
  if reg = -1 then none else some (registers reg)

/-! ### In order -/

namespace Meaning

variable (M : Meaning ν) (tr : List TraceInst)

/-- One instruction. -/
def step (registers : ℤ → ν) (t : TraceInst) : ℤ → ν :=
  if t.destReg = -1 then registers
  else Function.update registers t.destReg
    (M.compute t fun k => readSource registers (t.srcReg k))

/-- The registers that a trace leaves. -/
def inOrder : ℤ → ν := tr.foldl M.step M.registers

/-- The registers before instruction `i + 1`. -/
def after (i : ℕ) : ℤ → ν := M.inOrder (tr.take i)

def operands (i : ℕ) (k : Fin 2) : Option ν :=
  readSource (M.after tr (i - 1)) ((inst tr i).srcReg k)

def result (i : ℕ) : ν := M.compute (inst tr i) (M.operands tr i)

variable {M tr} {x : ℤ} {i : ℕ}

theorem after_succ (hi : i < tr.length) :
    M.after tr (i + 1) = M.step (M.after tr i) (inst tr (i + 1)) := by
  have hinst : tr[i]? = some (inst tr (i + 1)) := by
    rw [inst, List.getD_eq_getElem?_getD, Nat.add_sub_cancel, List.getElem?_eq_getElem hi]
    rfl
  rw [after, after, inOrder, inOrder, List.take_add_one, hinst, List.foldl_append]
  rfl

theorem after_of_ne (hi : i < tr.length) (hx : (inst tr (i + 1)).destReg ≠ x) :
    M.after tr (i + 1) x = M.after tr i x := by
  rw [after_succ hi, step]
  split
  · rfl
  · exact Function.update_of_ne (Ne.symm hx) _ _

theorem after_of_dest (hi : i < tr.length) (h0 : x ≠ -1) (hx : (inst tr (i + 1)).destReg = x) :
    M.after tr (i + 1) x = M.result tr (i + 1) := by
  subst hx
  rw [after_succ hi, step, if_neg h0, Function.update_self]
  rfl

/-- A register holds the result of its last writer. -/
theorem after_eq (hi : i ≤ tr.length) (h0 : x ≠ -1) : M.after tr i x =
    if lastWriter tr x i = 0 then M.registers x else M.result tr (lastWriter tr x i) := by
  induction i with
  | zero => rfl
  | succ i ih =>
    rw [lastWriter]
    by_cases hx : (inst tr (i + 1)).destReg = x
    · rw [if_pos hx, if_neg (Nat.succ_ne_zero i), after_of_dest hi h0 hx]
    · rw [if_neg hx, after_of_ne hi hx]
      exact ih (Nat.le_of_succ_le hi)

/-- A source with a producer reads its result. -/
theorem operands_of_producer {k : Fin 2} (hi : i ≤ tr.length) (hp : producer tr k i ≠ 0) :
    M.operands tr i k = some (M.result tr (producer tr k i)) := by
  by_cases hs : (inst tr i).srcReg k = -1
  · rw [producer, if_pos hs] at hp
    exact absurd rfl hp
  · have hlast : producer tr k i = lastWriter tr ((inst tr i).srcReg k) (i - 1) := if_neg hs
    rw [hlast] at hp ⊢
    rw [operands, readSource, if_neg hs, after_eq (by omega) hs, if_neg hp]

end Meaning

/-! ### Out of order -/

/-- The globals with a register file and the operands of every tag. -/
structure Valued (ν : Type*) where
  proc : Proc
  registers : ℤ → ν
  operands : ℕ → Fin 2 → Option ν

/-- Source `k` of the entry of tag `j` waits for `tag`. -/
def Proc.waitsFor (s : Proc) (tag j : ℕ) (k : Fin 2) : Bool :=
  s.scheduleQueue.any fun e => e.tag == j && (!e.srcReady k && e.srcTag k == tag)

namespace Valued

variable (M : Meaning ν) (cfg : Config) (tr : List TraceInst)

def map (g : Proc → Proc) (v : Valued ν) : Valued ν := { v with proc := g v.proc }

/-- One turn of the `while` loop of `schedule_phase`: the sources that are ready are read. -/
def scheduleInst (i : ProcInst) (v : Valued ν) : Valued ν where
  proc := Procsim.scheduleInst i v.proc
  registers := v.registers
  operands := Function.update v.operands i.instNum fun k =>
    if srcReadyOf v.proc.registerTag (i.srcReg k) then readSource v.registers (i.srcReg k)
    else none

def scheduleLoop : List ProcInst → Valued ν → Valued ν
  | [], v => v
  | i :: rest, v =>
    if v.proc.scheduleQueue.length < cfg.scheduleQueueSize then
      scheduleLoop rest (scheduleInst i (v.map fun s => { s with dispatchQueue := rest }))
    else v

def schedulePhase (v : Valued ν) : Valued ν :=
  if cfg.scheduleQueueSize ≤ v.proc.scheduleQueue.length then v
  else scheduleLoop cfg v.proc.dispatchQueue v

/-- Retire phase 2 for a tag: its result goes to the sources that wait for it, and to its register
    if that still shows the tag. -/
def broadcastTag (tag : ℕ) (v : Valued ν) : Valued ν :=
  (v.proc.scheduleQueue.find? fun e => e.tag == tag).elim v fun e =>
    let result := M.compute e.instruction.toTraceInst (v.operands tag)
    { proc := Procsim.broadcastTag tag v.proc
      registers :=
        if e.instruction.destReg ≠ -1 ∧ regTag v.proc.registerTag e.instruction.destReg = tag then
          Function.update v.registers e.instruction.destReg result
        else v.registers
      operands := fun j k => if v.proc.waitsFor tag j k then some result else v.operands j k }

def broadcastLoop : ℕ → Valued ν → Valued ν
  | 0, v => v
  | n + 1, v =>
    v.proc.resultBusQueue.head?.elim v fun tag =>
      broadcastLoop n (broadcastTag M tag
        (v.map fun s => { s with resultBusQueue := s.resultBusQueue.tail }))

def retirePhase2 (v : Valued ν) : Valued ν :=
  broadcastLoop M (min cfg.r v.proc.resultBusQueue.length) v

def stateUpdatePhase (v : Valued ν) : Valued ν :=
  (retirePhase2 M cfg (v.map retirePhase1)).map fun s =>
    assignPhase cfg (collectPhase (sortPhase (decrementPhase s)))

/-- The body of the `while` loop of `run_proc` up to its exit tests. -/
def cycle (v : Valued ν) : Valued ν :=
  (schedulePhase cfg ((stateUpdatePhase M cfg (v.map tick)).map executePhase)).map fun s =>
    sample (fetchPhase cfg (dispatchPhase s))

/-- The end of cycle `c` of a loop that does not stop. -/
def stateAt : ℕ → Valued ν
  | 0 => ⟨setupProc cfg tr, M.registers, fun _ _ => none⟩
  | c + 1 => cycle M cfg (stateAt c)

/-! ### The values change nothing -/

theorem broadcastTag_proc (tag : ℕ) (v : Valued ν) :
    (broadcastTag M tag v).proc = Procsim.broadcastTag tag v.proc := by
  rw [broadcastTag]
  cases hf : v.proc.scheduleQueue.find? fun e => e.tag == tag with
  | none =>
    rw [Procsim.broadcastTag, hf]
    rfl
  | some e => rfl

theorem broadcastLoop_proc (n : ℕ) (v : Valued ν) :
    (broadcastLoop M n v).proc = Procsim.broadcastLoop n v.proc := by
  induction n generalizing v with
  | zero => rfl
  | succ n ih =>
    rw [broadcastLoop, Procsim.broadcastLoop]
    cases hbus : v.proc.resultBusQueue with
    | nil => rfl
    | cons tag rest =>
      have hpop : (v.map fun s => { s with resultBusQueue := s.resultBusQueue.tail }).proc =
          { v.proc with resultBusQueue := rest } := by
        change { v.proc with resultBusQueue := v.proc.resultBusQueue.tail } = _
        rw [hbus]
        rfl
      have hone := (broadcastTag_proc M tag _).trans (congrArg (Procsim.broadcastTag tag) hpop)
      exact (ih _).trans (congrArg (Procsim.broadcastLoop n) hone)

theorem scheduleLoop_proc (l : List ProcInst) (v : Valued ν) :
    (scheduleLoop cfg l v).proc = Procsim.scheduleLoop cfg l v.proc := by
  induction l generalizing v with
  | nil => rfl
  | cons i l ih =>
    rw [scheduleLoop, Procsim.scheduleLoop]
    split
    · exact ih _
    · rfl

theorem schedulePhase_proc (v : Valued ν) :
    (schedulePhase cfg v).proc = Procsim.schedulePhase cfg v.proc := by
  rw [schedulePhase, Procsim.schedulePhase]
  split
  · rfl
  · exact scheduleLoop_proc cfg _ v

theorem stateUpdatePhase_proc (v : Valued ν) :
    (stateUpdatePhase M cfg v).proc = Procsim.stateUpdatePhase cfg v.proc :=
  congrArg (fun s => assignPhase cfg (collectPhase (sortPhase (decrementPhase s))))
    (broadcastLoop_proc M _ (v.map retirePhase1))

theorem cycle_proc (v : Valued ν) : (cycle M cfg v).proc = Procsim.cycle cfg v.proc := by
  have hexecute : ((stateUpdatePhase M cfg (v.map tick)).map executePhase).proc =
      executePhase (Procsim.stateUpdatePhase cfg (tick v.proc)) :=
    congrArg executePhase (stateUpdatePhase_proc M cfg (v.map tick))
  have hschedule := schedulePhase_proc cfg ((stateUpdatePhase M cfg (v.map tick)).map executePhase)
  rw [hexecute] at hschedule
  exact congrArg (fun s => sample (fetchPhase cfg (dispatchPhase s))) hschedule

/-- The run is the one of the simulator. -/
theorem stateAt_proc (c : ℕ) : (stateAt M cfg tr c).proc = Procsim.stateAt cfg tr c := by
  induction c with
  | zero => rfl
  | succ c ih => rw [stateAt, cycle_proc, ih, Procsim.stateAt]

end Valued

end Procsim
