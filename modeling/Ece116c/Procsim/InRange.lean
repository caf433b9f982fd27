import Ece116c.Procsim.Run

/-! No phase makes up an instruction: what every line of the trace has, the instructions in all the
    queues have. So with registers inside the scoreboard `register_tag` is never indexed outside
    its 128 places. -/

namespace Procsim
open Lists

/-- Every register of the line is `-1` or a place of `register_tag`. -/
def TraceInst.InRange (t : TraceInst) : Prop :=
  ValidReg t.destReg ∧ ValidReg t.srcReg0 ∧ ValidReg t.srcReg1

instance (t : TraceInst) : Decidable t.InRange := inferInstanceAs (Decidable (_ ∧ _ ∧ _))

theorem TraceInst.Valid.inRange {t : TraceInst} (h : t.Valid) : t.InRange :=
  ⟨h.dest, h.src0, h.src1⟩

/-- The lines of the entries. -/
def lines (q : List ScheduleEntry) : List TraceInst := q.map fun e => e.instruction.toTraceInst

/-- All lines on their way have `P`. -/
structure Proc.Only (P : TraceInst → Prop) (s : Proc) : Prop where
  input : ∀ t ∈ s.input, P t
  fetchQueue : ∀ i ∈ s.fetchQueue, P i.toTraceInst
  dispatchQueue : ∀ i ∈ s.dispatchQueue, P i.toTraceInst
  scheduleQueue : ∀ t ∈ lines s.scheduleQueue, P t

/-! ### Entries keep their lines -/

section Lines

variable (q : List ScheduleEntry)

theorem removeRetired_sublist (l : List ℕ) : (removeRetired l q).2.Sublist q := by
  induction l generalizing q with
  | nil => exact List.Sublist.refl q
  | cons tag l ih =>
    rw [removeRetired]
    split
    · exact (ih _).trans List.eraseP_sublist
    · exact ih q

theorem lines_map {f : ScheduleEntry → ScheduleEntry}
    (hf : ∀ e, (f e).instruction.toTraceInst = e.instruction.toTraceInst) :
    lines (q.map f) = lines q := by
  rw [lines, List.map_map]
  exact List.map_congr_left fun e _ => hf e

theorem lines_updateFirst {p : ScheduleEntry → Bool} {f : ScheduleEntry → ScheduleEntry}
    (hf : ∀ e, (f e).instruction.toTraceInst = e.instruction.toTraceInst) :
    lines (updateFirst p f q) = lines q := by
  induction q with
  | nil => rfl
  | cons e q ih =>
    rw [updateFirst]
    split
    · exact congrArg (· :: lines q) (hf e)
    · exact congrArg (e.instruction.toTraceInst :: ·) ih

theorem executeEntry_line (c : ℕ) (e : ScheduleEntry) (b : FuBank) :
    (executeEntry c e b).1.instruction.toTraceInst = e.instruction.toTraceInst := by
  rw [executeEntry]
  split
  · rfl
  · split
    · rfl
    · split <;> rfl

theorem lines_executeLoop (c : ℕ) (b : FuBank) : lines (executeLoop c q b).1 = lines q := by
  induction q generalizing b with
  | nil => rfl
  | cons e q ih => exact congrArg₂ List.cons (executeEntry_line c e b) (ih _)

theorem lines_collectPhase (s : Proc) :
    lines (collectPhase s).scheduleQueue = lines s.scheduleQueue := by
  refine lines_map (f := fun e => if justCompleted s.units e then { e with onResultBus := true }
    else e) _ fun e => ?_
  split <;> rfl

end Lines

/-! ### The phases -/

variable {cfg : Config} {P : TraceInst → Prop} {s : Proc}

namespace Proc.Only

/-- Other entries with the same lines, or fewer. -/
theorem entries (h : s.Only P) {s' : Proc} (hi : s'.input = s.input)
    (hf : s'.fetchQueue = s.fetchQueue) (hd : s'.dispatchQueue = s.dispatchQueue)
    (hq : lines s'.scheduleQueue ⊆ lines s.scheduleQueue) : s'.Only P where
  input := hi ▸ h.input
  fetchQueue := hf ▸ h.fetchQueue
  dispatchQueue := hd ▸ h.dispatchQueue
  scheduleQueue t ht := h.scheduleQueue t (hq ht)

theorem sameLines (h : s.Only P) {s' : Proc} (hi : s'.input = s.input)
    (hf : s'.fetchQueue = s.fetchQueue) (hd : s'.dispatchQueue = s.dispatchQueue)
    (hq : lines s'.scheduleQueue = lines s.scheduleQueue) : s'.Only P :=
  h.entries hi hf hd (hq ▸ List.Subset.refl _)

theorem retirePhase1 (h : s.Only P) : (retirePhase1 s).Only P :=
  h.entries rfl rfl rfl ((removeRetired_sublist s.scheduleQueue s.retiredQueue).map _).subset

theorem broadcastTag (h : s.Only P) (tag : ℕ) : (broadcastTag tag s).Only P := by
  rw [Procsim.broadcastTag]
  split
  · exact h
  · refine h.sameLines rfl rfl rfl ((lines_map (f := wakeup tag) _ fun _ => rfl).trans ?_)
    exact lines_updateFirst _ fun _ => rfl

theorem broadcastLoop (h : s.Only P) (n : ℕ) : (broadcastLoop n s).Only P := by
  induction n generalizing s with
  | zero => exact h
  | succ n ih =>
    rw [Procsim.broadcastLoop]
    split
    · exact h
    · rename_i rest hb
      have hrest : Proc.Only P { s with resultBusQueue := rest } := h.sameLines rfl rfl rfl rfl
      exact ih (hrest.broadcastTag _)

theorem assignState (h : s.Only P) (tag : ℕ) : (assignState s tag).Only P := by
  rw [Procsim.assignState]
  split
  · exact h
  · exact h.sameLines rfl rfl rfl (lines_updateFirst _ fun _ => rfl)

theorem foldl_assignState (h : s.Only P) (l : List ℕ) : (l.foldl Procsim.assignState s).Only P := by
  induction l generalizing s with
  | nil => exact h
  | cons tag l ih => exact ih (h.assignState tag)

theorem stateUpdatePhase (h : s.Only P) : (stateUpdatePhase cfg s).Only P := by
  have hretired : (retirePhase2 cfg (Procsim.retirePhase1 s)).Only P :=
    h.retirePhase1.broadcastLoop _
  have hsorted : (sortPhase (decrementPhase (retirePhase2 cfg (Procsim.retirePhase1 s)))).Only P :=
    hretired.entries rfl rfl rfl ((List.perm_insertionSort _ _).map _).subset
  have hcollected : (collectPhase (sortPhase (decrementPhase
      (retirePhase2 cfg (Procsim.retirePhase1 s))))).Only P :=
    hsorted.sameLines rfl rfl rfl (lines_collectPhase _)
  exact hcollected.foldl_assignState _

theorem executePhase (h : s.Only P) : (executePhase s).Only P :=
  h.sameLines rfl rfl rfl (lines_executeLoop _ _ _)

theorem scheduleLoop {l : List ProcInst} (h : s.Only P) (hl : s.dispatchQueue = l) :
    (scheduleLoop cfg l s).Only P := by
  induction l generalizing s with
  | nil => exact h
  | cons i l ih =>
    rw [Procsim.scheduleLoop]
    split
    · refine ih ⟨h.input, h.fetchQueue, fun j hj => ?_, fun t ht => ?_⟩ rfl
      · exact h.dispatchQueue j (hl ▸ List.mem_cons_of_mem i hj)
      · -- the new entry has the line of the instruction it is made of
        simp only [lines, scheduleInst, List.map_append, List.mem_append, List.map_cons,
          List.map_nil, List.mem_singleton] at ht
        rcases ht with ht | rfl
        · exact h.scheduleQueue t ht
        · exact h.dispatchQueue i (hl ▸ List.mem_cons_self)
    · exact h

theorem schedulePhase (h : s.Only P) : (schedulePhase cfg s).Only P := by
  rw [Procsim.schedulePhase]
  split
  · exact h
  · exact h.scheduleLoop rfl

theorem dispatchPhase (h : s.Only P) : (dispatchPhase s).Only P := by
  refine ⟨h.input, fun i hi => absurd hi List.not_mem_nil, fun i hi => ?_, h.scheduleQueue⟩
  rcases List.mem_append.mp hi with hi | hi
  · exact h.dispatchQueue i hi
  · obtain ⟨j, hj, rfl⟩ := List.mem_map.mp hi
    exact h.fetchQueue j hj

/-- One instruction more is fetched. -/
theorem fetched (h : s.Only P) {t : TraceInst} {rest : List TraceInst}
    (hin : s.input = t :: rest) : { s with
      input := rest
      nextTag := s.nextTag + 1
      fetchQueue := s.fetchQueue ++ [fetchedInst t s.nextTag s.cycleCount] : Proc }.Only P := by
  refine ⟨fun u hu => h.input u (hin ▸ List.mem_cons_of_mem t hu), fun i hi => ?_,
    h.dispatchQueue, h.scheduleQueue⟩
  rcases List.mem_append.mp hi with hi | hi
  · exact h.fetchQueue i hi
  · rw [List.mem_singleton.mp hi]
    exact h.input t (hin ▸ List.mem_cons_self)

end Proc.Only

theorem setupProc_only {tr : List TraceInst} (h : ∀ t ∈ tr, P t) : (setupProc cfg tr).Only P where
  input := h
  fetchQueue _ hi := absurd hi List.not_mem_nil
  dispatchQueue _ hi := absurd hi List.not_mem_nil
  scheduleQueue _ ht := absurd ht List.not_mem_nil

end Procsim
