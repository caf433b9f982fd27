import Ece116c.Procsim.State
import Ece116c.Window.Model

/-! What of a trace decides its timing: the unit kinds and the true dependences.

    The producer of a source is the nearest earlier instruction of the trace that writes its
    register. The scoreboard of the code never looks it up; that it finds the same instruction is
    part of the refinement. -/

namespace Procsim
open Window

/-- The trace line of tag `i`; tags start at 1. -/
def inst (tr : List TraceInst) (i : ℕ) : TraceInst := tr.getD (i - 1) default

/-- The youngest of the instructions `1..i` that writes register `x`, 0 for none. -/
def lastWriter (tr : List TraceInst) (x : ℤ) : ℕ → ℕ
  | 0 => 0
  | i + 1 => if (inst tr (i + 1)).destReg = x then i + 1 else lastWriter tr x i

/-- The instruction source `s` of instruction `i` waits for, 0 for none. -/
def producer (tr : List TraceInst) (s : Fin 2) (i : ℕ) : ℕ :=
  if (inst tr i).srcReg s = -1 then 0 else lastWriter tr ((inst tr i).srcReg s) (i - 1)

/-- The trace as the abstract machine sees it. -/
def workload (tr : List TraceInst) : Workload FuType where
  size := tr.length
  kind i := getFuUnits (inst tr i).opCode
  deps i := ((List.finRange 2).map fun s => producer tr s i).filter (· ≠ 0)

/-- The configuration as the abstract machine sees it. -/
def machine (cfg : Config) : Machine FuType where
  buses := cfg.r
  units := cfg.k
  slots := cfg.scheduleQueueSize
  width := cfg.f

section LastWriter

variable {tr : List TraceInst} {x : ℤ}

theorem lastWriter_le (i : ℕ) : lastWriter tr x i ≤ i := by
  induction i with
  | zero => exact le_refl 0
  | succ i ih =>
    rw [lastWriter]
    split
    · exact le_refl _
    · exact Nat.le_succ_of_le ih

theorem lastWriter_dest (i : ℕ) (h : lastWriter tr x i ≠ 0) :
    (inst tr (lastWriter tr x i)).destReg = x := by
  induction i with
  | zero => exact absurd rfl h
  | succ i ih =>
    rw [lastWriter] at h ⊢
    by_cases hd : (inst tr (i + 1)).destReg = x
    · rw [if_pos hd]
      exact hd
    · rw [if_neg hd] at h ⊢
      exact ih h

/-- Nobody between the last writer and `i` writes the register. -/
theorem lastWriter_latest (i j : ℕ) (h : lastWriter tr x i < j) (hj : j ≤ i) :
    (inst tr j).destReg ≠ x := by
  induction i with
  | zero => omega
  | succ i ih =>
    rw [lastWriter] at h
    by_cases hd : (inst tr (i + 1)).destReg = x
    · rw [if_pos hd] at h
      omega
    · rw [if_neg hd] at h
      rcases Nat.lt_or_eq_of_le hj with hlt | rfl
      · exact ih h (Nat.le_of_lt_succ hlt)
      · exact hd

/-- The last writer is characterised as the largest writer. -/
theorem lastWriter_eq {i p : ℕ} (hp : 1 ≤ p) (hpi : p ≤ i) (hd : (inst tr p).destReg = x)
    (hlast : ∀ j, p < j → j ≤ i → (inst tr j).destReg ≠ x) : lastWriter tr x i = p := by
  rcases Nat.lt_trichotomy (lastWriter tr x i) p with h | h | h
  · exact absurd hd (lastWriter_latest i p h hpi)
  · exact h
  · exact absurd (lastWriter_dest i (by omega)) (hlast _ h (lastWriter_le i))

end LastWriter

theorem producer_lt (tr : List TraceInst) (s : Fin 2) (i : ℕ) (h : producer tr s i ≠ 0) :
    producer tr s i < i := by
  rw [producer] at h ⊢
  split at h
  · exact absurd rfl h
  · rename_i hs
    rw [if_neg hs]
    have hle : lastWriter tr ((inst tr i).srcReg s) (i - 1) ≤ i - 1 := lastWriter_le (i - 1)
    omega

theorem mem_deps (tr : List TraceInst) (i p : ℕ) :
    p ∈ (workload tr).deps i ↔ p ≠ 0 ∧ ∃ s, p = producer tr s i := by
  simp only [workload, List.mem_filter, List.mem_map, List.mem_finRange, true_and,
    decide_eq_true_eq]
  exact and_comm.trans (and_congr_right' (exists_congr fun s => eq_comm))

theorem workload_ordered (tr : List TraceInst) : (workload tr).Ordered := by
  intro i p hp
  obtain ⟨h0, s, rfl⟩ := (mem_deps tr i p).mp hp
  exact ⟨Nat.one_le_iff_ne_zero.mpr h0, producer_lt tr s i h0⟩

theorem inst_mem {tr : List TraceInst} {i : ℕ} (h1 : 1 ≤ i) (hi : i ≤ tr.length) :
    inst tr i ∈ tr := by
  rw [inst, List.getD_eq_getElem?_getD, List.getElem?_eq_getElem (by omega)]
  exact List.getElem_mem _

theorem default_valid : (default : TraceInst).Valid := by decide

theorem ValidTrace.inst {tr : List TraceInst} (h : ValidTrace tr) (i : ℕ) :
    (inst tr i).Valid := by
  rw [Procsim.inst, List.getD_eq_getElem?_getD]
  cases hg : tr[i - 1]? with
  | none => exact default_valid
  | some t => exact h t (List.mem_of_getElem? hg)

/-- A valid op code has a unit kind. -/
theorem TraceInst.Valid.kind {t : TraceInst} (h : t.Valid) : ∃ k, getFuUnits t.opCode = some k := by
  rcases h.op with h | h | h | h <;> rw [h] <;> exact ⟨_, rfl⟩

theorem ValidTrace.kind {tr : List TraceInst} (h : ValidTrace tr) (i : ℕ) :
    ∃ k, (workload tr).kind i = some k := (h.inst i).kind

theorem TraceInst.Valid.src {t : TraceInst} (h : t.Valid) : ∀ s, ValidReg (t.srcReg s)
  | 0 => h.src0
  | 1 => h.src1

end Procsim
