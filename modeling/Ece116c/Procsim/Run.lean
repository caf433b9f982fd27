import Ece116c.Procsim.Phases
import Mathlib.Algebra.Ring.Nat

/-! `run_proc`: one cycle, the loop around it, and the states it passes through. -/

namespace Procsim

variable (cfg : Config) (tr : List TraceInst)

/-- `cycle_count++`. -/
def tick (s : Proc) : Proc := { s with cycleCount := s.cycleCount + 1 }

/-- The dispatch-queue statistics taken at the end of a cycle. -/
def sample (s : Proc) : Proc :=
  { s with
    totalDispatchSize := s.totalDispatchSize + s.dispatchQueue.length
    maxDispatchSize :=
      if s.maxDispatchSize < s.dispatchQueue.length then s.dispatchQueue.length
      else s.maxDispatchSize }

/-- The body of the `while` loop up to its exit tests. -/
def cycle (s : Proc) : Proc :=
  sample (fetchPhase cfg (dispatchPhase (schedulePhase cfg
    (executePhase (stateUpdatePhase cfg (tick s))))))

/-- The exit test "all instructions are done". -/
def drained (s : Proc) : Bool :=
  s.fetchComplete && s.fetchQueue.isEmpty && s.dispatchQueue.isEmpty &&
    s.scheduleQueue.isEmpty && s.resultBusQueue.isEmpty

/-- The guard's bound on `cycle_count`. -/
def cycleLimit : ℕ := 200000

/-! ### The cycle counter -/

theorem fetchLoop_cycleCount (n : ℕ) (s : Proc) : (fetchLoop n s).cycleCount = s.cycleCount := by
  induction n generalizing s with
  | zero => rfl
  | succ n ih =>
    rw [fetchLoop]
    split
    · rfl
    · rw [ih]

theorem scheduleLoop_cycleCount (l : List ProcInst) (s : Proc) :
    (scheduleLoop cfg l s).cycleCount = s.cycleCount := by
  induction l generalizing s with
  | nil => rfl
  | cons i l ih =>
    rw [scheduleLoop]
    split
    · rw [ih]
      rfl
    · rfl

theorem broadcastTag_cycleCount (tag : ℕ) (s : Proc) :
    (broadcastTag tag s).cycleCount = s.cycleCount := by
  rw [broadcastTag]; split <;> rfl

theorem broadcastLoop_cycleCount (n : ℕ) (s : Proc) :
    (broadcastLoop n s).cycleCount = s.cycleCount := by
  induction n generalizing s with
  | zero => rfl
  | succ n ih =>
    rw [broadcastLoop]
    split
    · rfl
    · rw [ih, broadcastTag_cycleCount]

theorem assignState_cycleCount (s : Proc) (tag : ℕ) :
    (assignState s tag).cycleCount = s.cycleCount := by
  rw [assignState]; split <;> rfl

theorem foldl_assignState_cycleCount (l : List ℕ) (s : Proc) :
    (l.foldl assignState s).cycleCount = s.cycleCount := by
  induction l generalizing s with
  | nil => rfl
  | cons tag l ih => rw [List.foldl_cons, ih, assignState_cycleCount]

theorem stateUpdatePhase_cycleCount (s : Proc) :
    (stateUpdatePhase cfg s).cycleCount = s.cycleCount := by
  rw [stateUpdatePhase, assignPhase, foldl_assignState_cycleCount]
  exact broadcastLoop_cycleCount _ (retirePhase1 s)

theorem schedulePhase_cycleCount (s : Proc) :
    (schedulePhase cfg s).cycleCount = s.cycleCount := by
  rw [schedulePhase]; split
  · rfl
  · rw [scheduleLoop_cycleCount]

theorem fetchPhase_cycleCount (s : Proc) : (fetchPhase cfg s).cycleCount = s.cycleCount := by
  rw [fetchPhase]; split
  · rfl
  · rw [fetchLoop_cycleCount]

@[simp] theorem cycle_cycleCount (s : Proc) : (cycle cfg s).cycleCount = s.cycleCount + 1 := by
  have h : (cycle cfg s).cycleCount
      = (fetchPhase cfg (dispatchPhase (schedulePhase cfg
          (executePhase (stateUpdatePhase cfg (tick s)))))).cycleCount := rfl
  rw [h, fetchPhase_cycleCount]
  change (schedulePhase cfg _).cycleCount = _
  rw [schedulePhase_cycleCount]
  change (stateUpdatePhase cfg _).cycleCount = _
  rw [stateUpdatePhase_cycleCount]; rfl

/-! ### The loop -/

/-- The `while (true)` of `run_proc`, from the state before a cycle. -/
def runLoop (s : Proc) : Proc :=
  if drained (cycle cfg s) then cycle cfg s
  else if cycleLimit < (cycle cfg s).cycleCount then cycle cfg s
  else runLoop (cycle cfg s)
termination_by cycleLimit + 1 - s.cycleCount
decreasing_by
  rename_i _ h
  rw [cycle_cycleCount] at h ⊢
  omega

/-- `setup_proc` and `run_proc`: the globals when `run_proc` returns. -/
def runProc : Proc := runLoop cfg (setupProc cfg tr)

/-- `p_stats->cycle_count`, the unsigned 64-bit `cycle_count - 2`. -/
def statCycleCount (s : Proc) : ℕ := (s.cycleCount + (2 ^ 64 - 2)) % 2 ^ 64

/-- The globals at the end of cycle `c` of a loop that does not stop. -/
def stateAt : ℕ → Proc
  | 0 => setupProc cfg tr
  | c + 1 => cycle cfg (stateAt c)

@[simp] theorem stateAt_cycleCount (c : ℕ) : (stateAt cfg tr c).cycleCount = c := by
  induction c with
  | zero => rfl
  | succ c ih => rw [stateAt, cycle_cycleCount, ih]

/-- The loop leaves at the end of cycle `c` when the guard is left out. -/
structure DrainsAt (c : ℕ) : Prop where
  pos : 1 ≤ c
  done : drained (stateAt cfg tr c) = true
  first : ∀ c', 1 ≤ c' → c' < c → drained (stateAt cfg tr c') = false

theorem drainsAt_iff (c : ℕ) : DrainsAt cfg tr c ↔ 1 ≤ c ∧ drained (stateAt cfg tr c) = true ∧
    ∀ c' < c, 1 ≤ c' → drained (stateAt cfg tr c') = false :=
  ⟨fun h => ⟨h.pos, h.done, fun c' hc h1 => h.first c' h1 hc⟩,
    fun ⟨h1, hd, hf⟩ => ⟨h1, hd, fun c' hc h => hf c' h hc⟩⟩

instance (c : ℕ) : Decidable (DrainsAt cfg tr c) := decidable_of_iff' _ (drainsAt_iff cfg tr c)

/-- From the end of cycle `c` the loop stops at the first drained cycle, or behind the guard. -/
theorem runLoop_stateAt (c : ℕ) (hc : c ≤ cycleLimit) :
    ∃ e, c < e ∧ e ≤ cycleLimit + 1 ∧ runLoop cfg (stateAt cfg tr c) = stateAt cfg tr e ∧
      (∀ c', c < c' → c' < e → drained (stateAt cfg tr c') = false) ∧
      (drained (stateAt cfg tr e) = true ∨ e = cycleLimit + 1) := by
  rw [runLoop]
  by_cases hd : drained (cycle cfg (stateAt cfg tr c)) = true
  · rw [if_pos hd]
    exact ⟨c + 1, by omega, by omega, rfl, fun c' h h' => by omega, Or.inl hd⟩
  · rw [if_neg hd]
    by_cases hl : cycleLimit < (cycle cfg (stateAt cfg tr c)).cycleCount
    · rw [if_pos hl]
      rw [cycle_cycleCount, stateAt_cycleCount] at hl
      exact ⟨c + 1, by omega, by omega, rfl, fun c' h h' => by omega, Or.inr (by omega)⟩
    · have hc' : c + 1 ≤ cycleLimit := by simpa using hl
      rw [if_neg hl]
      obtain ⟨e, he, hle, heq, hfirst, hstop⟩ := runLoop_stateAt (c + 1) hc'
      refine ⟨e, by omega, hle, heq, fun c' h h' => ?_, hstop⟩
      rcases Nat.lt_or_eq_of_le (Nat.succ_le_of_lt h) with h1 | h1
      · exact hfirst c' h1 h'
      · subst h1; exact Bool.eq_false_iff.mpr hd
termination_by cycleLimit - c

/-- `run_proc` returns the state of the first drained cycle, or of cycle 200001 if that is
    earlier. -/
theorem runProc_eq : ∃ e, 1 ≤ e ∧ e ≤ cycleLimit + 1 ∧ runProc cfg tr = stateAt cfg tr e ∧
    (∀ c', 1 ≤ c' → c' < e → drained (stateAt cfg tr c') = false) ∧
    (drained (stateAt cfg tr e) = true ∨ e = cycleLimit + 1) := by
  obtain ⟨e, h1, h2, h3, h4, h5⟩ := runLoop_stateAt cfg tr 0 (Nat.zero_le _)
  exact ⟨e, h1, h2, h3, fun c' hc => h4 c' hc, h5⟩

/-! ### Phase boundaries -/

/-- The points between two statements of the loop body. -/
inductive Point where | ticked | updated | executed | scheduled | dispatched | fetched
  deriving DecidableEq, Repr

/-- The globals after the state update of cycle `c + 1`, and so on for the other phases. -/
def updatedAt (c : ℕ) : Proc := stateUpdatePhase cfg (tick (stateAt cfg tr c))
def executedAt (c : ℕ) : Proc := executePhase (updatedAt cfg tr c)
def scheduledAt (c : ℕ) : Proc := schedulePhase cfg (executedAt cfg tr c)
def dispatchedAt (c : ℕ) : Proc := dispatchPhase (scheduledAt cfg tr c)
def fetchedAt (c : ℕ) : Proc := fetchPhase cfg (dispatchedAt cfg tr c)

/-- The globals at a point of cycle `c + 1`. -/
def boundary (c : ℕ) : Point → Proc
  | .ticked => tick (stateAt cfg tr c)
  | .updated => updatedAt cfg tr c
  | .executed => executedAt cfg tr c
  | .scheduled => scheduledAt cfg tr c
  | .dispatched => dispatchedAt cfg tr c
  | .fetched => fetchedAt cfg tr c

end Procsim
