import Ece116c.Procsim.FrontTiming
import Ece116c.Procsim.InRange
import Ece116c.Procsim.RunTime
import Ece116c.Procsim.Text

/-! The whole program (`main` of `procsim_driver.cpp`, its options aside): `fetch_phase` reads the
    trace file as it goes, at most `f` instructions a cycle, and does not come back to it after the
    first call that fails. This comes to the same as reading the file beforehand. -/

namespace Procsim
open Scan Reading Window

variable (cfg : Config)

/-! ### The program -/

/-- The globals and what is left of the file; the list `input` stays empty. -/
structure Running where
  proc : Proc
  text : List Char

/-- The `for` loop of `fetch_phase`. -/
def fetchLoopText : ℕ → Running → Option Running
  | 0, s => some s
  | i + 1, s =>
    match readInstruction s.text with
    | .failed => none
    | .ended => some { s with proc := { s.proc with fetchComplete := true } }
    | .next t rest =>
      fetchLoopText i
        { proc := { s.proc with
            nextTag := s.proc.nextTag + 1
            fetchQueue := s.proc.fetchQueue ++ [fetchedInst t s.proc.nextTag s.proc.cycleCount] }
          text := rest }

def fetchPhaseText (s : Running) : Option Running :=
  if s.proc.fetchComplete then some s else fetchLoopText cfg.f s

def Running.map (g : Proc → Proc) (s : Running) : Running := { s with proc := g s.proc }

/-- The phases of a cycle before the fetch. -/
def beforeFetch (s : Proc) : Proc :=
  dispatchPhase (schedulePhase cfg (executePhase (stateUpdatePhase cfg (tick s))))

/-- The body of the `while` loop up to its exit tests. What `schedule_phase` takes up indexes
    `register_tag`, outside its 128 places with undefined behaviour. -/
def cycleText (s : Running) : Option Running :=
  if ∀ t ∈ lines (beforeFetch cfg s.proc).scheduleQueue, t.InRange then
    (fetchPhaseText cfg (s.map (beforeFetch cfg))).map (Running.map sample)
  else none

theorem fetchLoopText_cycleCount {n : ℕ} {s s' : Running} (h : fetchLoopText n s = some s') :
    s'.proc.cycleCount = s.proc.cycleCount := by
  induction n generalizing s with
  | zero => cases h; rfl
  | succ n ih =>
    rw [fetchLoopText] at h
    cases hr : readInstruction s.text with
    | failed => simp only [hr, reduceCtorEq] at h
    | ended =>
      simp only [hr, Option.some.injEq] at h
      rw [← h]
    | next t rest =>
      simp only [hr] at h
      have hrest := ih h
      exact hrest

theorem cycleText_cycleCount {s s' : Running} (h : cycleText cfg s = some s') :
    s'.proc.cycleCount = s.proc.cycleCount + 1 := by
  rw [cycleText] at h
  split at h
  case isFalse => cases h
  obtain ⟨u, hu, rfl⟩ := Option.map_eq_some_iff.mp h
  have hfetch : u.proc.cycleCount = (beforeFetch cfg s.proc).cycleCount := by
    rw [fetchPhaseText] at hu
    split at hu
    · cases hu; rfl
    · exact fetchLoopText_cycleCount hu
  change u.proc.cycleCount = _
  rw [hfetch]
  change (schedulePhase cfg _).cycleCount = _
  rw [schedulePhase_cycleCount]
  change (stateUpdatePhase cfg _).cycleCount = _
  rw [stateUpdatePhase_cycleCount]
  rfl

/-- The `while (true)` of `run_proc`. -/
def runLoopText (s : Running) : Option Running :=
  match _h : cycleText cfg s with
  | none => none
  | some s' =>
    if drained s'.proc then some s'
    else if cycleLimit < s'.proc.cycleCount then some s'
    else runLoopText s'
termination_by cycleLimit + 1 - s.proc.cycleCount
decreasing_by
  rename_i _ hlim
  rw [cycleText_cycleCount cfg _h] at hlim ⊢
  omega

theorem runLoopText_eq (s : Running) : runLoopText cfg s = (cycleText cfg s).bind fun s' =>
    if drained s'.proc then some s'
    else if cycleLimit < s'.proc.cycleCount then some s'
    else runLoopText cfg s' := by
  rw [runLoopText]
  split
  · rename_i h
    rw [h]
    rfl
  · rename_i h
    rw [h]
    rfl

/-- `main`: what it prints for a trace file, `none` where its behaviour is undefined: a number that
    does not fit its variable, or a register outside the scoreboard. -/
def procsim (text : List Char) : Option (List Char) :=
  (runLoopText cfg ⟨setupProc cfg [], text⟩).map fun s =>
    digits 10 (statCycleCount s.proc) ++ [Char.ofNat 10]

/-! ### Reading as it goes -/

/-- The globals with another trace. -/
def Proc.withInput (s : Proc) (tr : List TraceInst) : Proc := { s with input := tr }

section WithInput

variable (s : Proc) (tr : List TraceInst)

theorem broadcastTag_withInput (tag : ℕ) :
    broadcastTag tag (s.withInput tr) = (broadcastTag tag s).withInput tr := by
  have hq : (s.withInput tr).scheduleQueue = s.scheduleQueue := rfl
  rw [broadcastTag, broadcastTag, hq]
  cases s.scheduleQueue.find? fun e => e.tag == tag <;> rfl

theorem broadcastLoop_withInput (n : ℕ) :
    broadcastLoop n (s.withInput tr) = (broadcastLoop n s).withInput tr := by
  induction n generalizing s with
  | zero => rfl
  | succ n ih =>
    have hb : (s.withInput tr).resultBusQueue = s.resultBusQueue := rfl
    rw [broadcastLoop, broadcastLoop, hb]
    cases s.resultBusQueue with
    | nil => rfl
    | cons tag rest =>
      have htag := broadcastTag_withInput { s with resultBusQueue := rest } tr tag
      exact (congrArg (broadcastLoop n) htag).trans (ih _)

theorem assignState_withInput (tag : ℕ) :
    assignState (s.withInput tr) tag = (assignState s tag).withInput tr := by
  have hq : (s.withInput tr).scheduleQueue = s.scheduleQueue := rfl
  rw [assignState, assignState, hq]
  cases s.scheduleQueue.find? (unstamped tag) <;> rfl

theorem foldl_assignState_withInput (l : List ℕ) :
    l.foldl assignState (s.withInput tr) = (l.foldl assignState s).withInput tr := by
  induction l generalizing s with
  | nil => rfl
  | cons tag l ih => rw [List.foldl_cons, List.foldl_cons, assignState_withInput, ih]

theorem assignPhase_withInput :
    assignPhase cfg (s.withInput tr) = (assignPhase cfg s).withInput tr := by
  unfold assignPhase
  exact foldl_assignState_withInput s tr _

theorem stateUpdatePhase_withInput :
    stateUpdatePhase cfg (s.withInput tr) = (stateUpdatePhase cfg s).withInput tr := by
  have hretire : retirePhase2 cfg (retirePhase1 (s.withInput tr)) =
      (retirePhase2 cfg (retirePhase1 s)).withInput tr :=
    broadcastLoop_withInput (retirePhase1 s) tr _
  rw [stateUpdatePhase, hretire]
  exact assignPhase_withInput cfg
    (collectPhase (sortPhase (decrementPhase (retirePhase2 cfg (retirePhase1 s))))) tr

theorem scheduleLoop_withInput (l : List ProcInst) :
    scheduleLoop cfg l (s.withInput tr) = (scheduleLoop cfg l s).withInput tr := by
  induction l generalizing s with
  | nil => rfl
  | cons i l ih =>
    rw [scheduleLoop, scheduleLoop]
    by_cases hroom : s.scheduleQueue.length < cfg.scheduleQueueSize
    · rw [if_pos hroom]
      exact (if_pos hroom).trans (ih (scheduleInst i { s with dispatchQueue := l }))
    · rw [if_neg hroom]
      exact if_neg hroom

theorem schedulePhase_withInput :
    schedulePhase cfg (s.withInput tr) = (schedulePhase cfg s).withInput tr := by
  unfold schedulePhase
  by_cases hfull : cfg.scheduleQueueSize ≤ s.scheduleQueue.length
  · rw [if_pos hfull]
    exact if_pos hfull
  · rw [if_neg hfull]
    exact (if_neg hfull).trans (scheduleLoop_withInput cfg s tr _)

/-- No phase but the fetch looks at the trace. -/
theorem beforeFetch_withInput :
    beforeFetch cfg (s.withInput tr) = (beforeFetch cfg s).withInput tr := by
  have hupdate : stateUpdatePhase cfg (tick (s.withInput tr)) =
      (stateUpdatePhase cfg (tick s)).withInput tr := stateUpdatePhase_withInput cfg (tick s) tr
  have hschedule := schedulePhase_withInput cfg (executePhase (stateUpdatePhase cfg (tick s))) tr
  rw [beforeFetch, hupdate]
  exact congrArg dispatchPhase hschedule

theorem beforeFetch_input : (beforeFetch cfg s).input = s.input := by
  have hself := congrArg Proc.input (beforeFetch_withInput cfg s s.input)
  exact hself

end WithInput

/-- The program that reads as it goes shows the globals of the one with the trace `s.input`, which
    is what the file still holds; no register is outside the scoreboard. -/
structure Shows (s : Proc) (r : Running) : Prop where
  proc : r.proc = s.withInput []
  text : Yields readInstruction r.text s.input
  only : s.Only TraceInst.InRange

section Shows

variable {cfg} {s : Proc} {r : Running}

theorem Shows.fetchLoop (h : Shows s r) (n : ℕ) :
    ∃ r', fetchLoopText n r = some r' ∧ Shows (fetchLoop n s) r' := by
  induction n generalizing s r with
  | zero => exact ⟨r, rfl, h⟩
  | succ n ih =>
    obtain ⟨hproc, htext, honly⟩ := h
    obtain ⟨p, text⟩ := r
    subst hproc
    cases hin : s.input with
    | nil =>
      rw [hin] at htext
      cases htext with
      | ended hread =>
        refine ⟨⟨{ s.withInput [] with fetchComplete := true }, text⟩, ?_, ?_⟩
        · simp only [fetchLoopText, hread]
        · rw [Procsim.fetchLoop, hin]
          exact ⟨rfl, .ended hread, honly.sameLines hin.symm rfl rfl rfl⟩
    | cons t rest =>
      rw [hin] at htext
      cases htext with
      | @next _ text' _ _ hread hrest =>
        obtain ⟨r', hr', hshows⟩ := ih (s := { s with
            input := rest
            nextTag := s.nextTag + 1
            fetchQueue := s.fetchQueue ++ [fetchedInst t s.nextTag s.cycleCount] })
          (r := ⟨_, text'⟩) ⟨rfl, hrest, honly.fetched hin⟩
        refine ⟨r', ?_, ?_⟩
        · simp only [fetchLoopText, hread]
          exact hr'
        · rw [Procsim.fetchLoop, hin]
          exact hshows

theorem Shows.fetchPhase (h : Shows s r) :
    ∃ r', fetchPhaseText cfg r = some r' ∧ Shows (fetchPhase cfg s) r' := by
  have hdone : r.proc.fetchComplete = s.fetchComplete := by rw [h.proc]; rfl
  rw [fetchPhaseText, Procsim.fetchPhase, hdone]
  split
  · exact ⟨r, rfl, h⟩
  · exact h.fetchLoop cfg.f

theorem Shows.beforeFetch (h : Shows s r) :
    Shows (beforeFetch cfg s) (r.map (beforeFetch cfg)) where
  proc := by
    change Procsim.beforeFetch cfg r.proc = _
    rw [h.proc, beforeFetch_withInput]
  text := by
    rw [beforeFetch_input]
    exact h.text
  only := by
    have htick : (tick s).Only TraceInst.InRange := h.only.sameLines rfl rfl rfl rfl
    exact htick.stateUpdatePhase.executePhase.schedulePhase.dispatchPhase

theorem Shows.cycle (h : Shows s r) :
    ∃ r', cycleText cfg r = some r' ∧ Shows (cycle cfg s) r' := by
  have hbefore := @Shows.beforeFetch cfg _ _ h
  have hrange : ∀ t ∈ lines (Procsim.beforeFetch cfg r.proc).scheduleQueue, t.InRange := by
    have hproc : Procsim.beforeFetch cfg r.proc = _ := hbefore.proc
    rw [hproc]
    exact hbefore.only.scheduleQueue
  obtain ⟨u, hu, hproc, htext, honly⟩ := hbefore.fetchPhase
  refine ⟨u.map sample, by rw [cycleText, if_pos hrange, hu]; rfl, ?_, htext,
    honly.sameLines rfl rfl rfl rfl⟩
  change sample u.proc = _
  rw [hproc]
  rfl

theorem Shows.runLoop {s : Proc} {r : Running} (h : Shows s r) :
    ∃ r', runLoopText cfg r = some r' ∧ Shows (runLoop cfg s) r' := by
  obtain ⟨u, hu, hshows⟩ := @Shows.cycle cfg _ _ h
  have hdrained : drained u.proc = drained (Procsim.cycle cfg s) := by rw [hshows.proc]; rfl
  have hcycle : u.proc.cycleCount = (Procsim.cycle cfg s).cycleCount := by rw [hshows.proc]; rfl
  rw [runLoopText_eq, Procsim.runLoop, hu, Option.bind_some, hdrained, hcycle]
  by_cases hd : drained (Procsim.cycle cfg s) = true
  · rw [if_pos hd, if_pos hd]
    exact ⟨u, rfl, hshows⟩
  · rw [if_neg hd, if_neg hd]
    by_cases hlim : cycleLimit < (Procsim.cycle cfg s).cycleCount
    · rw [if_pos hlim, if_pos hlim]
      exact ⟨u, rfl, hshows⟩
    · rw [if_neg hlim, if_neg hlim]
      exact hshows.runLoop
termination_by cycleLimit + 1 - s.cycleCount
decreasing_by
  rw [cycle_cycleCount] at hlim ⊢
  omega

end Shows

theorem procsim_of_yields {text : List Char} {tr : List TraceInst}
    (h : Yields readInstruction text tr) (hr : ∀ t ∈ tr, t.InRange) :
    procsim cfg text = some (digits 10 (statCycleCount (runProc cfg tr)) ++ [Char.ofNat 10]) := by
  have hstart : Shows (setupProc cfg tr) ⟨setupProc cfg [], text⟩ := ⟨rfl, h, setupProc_only hr⟩
  obtain ⟨r, hr, hshows⟩ := @Shows.runLoop cfg _ _ hstart
  have hcount : statCycleCount r.proc = statCycleCount (runProc cfg tr) := by
    rw [hshows.proc]
    rfl
  rw [procsim, hr, Option.map_some, hcount]

/-- Reading as it goes comes to the same as reading ahead: whatever the layout of a trace file with
    its registers inside the scoreboard, the program prints the cycle count of `run_proc` on the
    instructions in its lines. -/
theorem procsim_layout {text : List Char} {ns : List Line} (h : Layout text ns)
    (hr : ∀ n ∈ ns, n.inst.InRange) :
    procsim cfg text =
      some (digits 10 (statCycleCount (runProc cfg (ns.map Line.inst))) ++ [Char.ofNat 10]) := by
  refine procsim_of_yields cfg (yields_iff.mpr ⟨ns, h, rfl⟩) fun t ht => ?_
  obtain ⟨n, hn, rfl⟩ := List.mem_map.mp ht
  exact hr n hn

theorem fits_three : ∀ t ∈ ([⟨4, 0, 5, -1, -1⟩, ⟨8, 1, 6, -1, -1⟩, ⟨12, 2, 7, -1, -1⟩] :
    List TraceInst), t.Fits := by
  intro t ht
  simp only [List.mem_cons, List.not_mem_nil, or_false] at ht
  rcases ht with rfl | rfl | rfl <;> exact ⟨by decide, by decide, by decide, by decide, by decide⟩

/-- Three results on one bus. -/
theorem procsim_layout_three :
    procsim ⟨1, 1, 1, 1, 3⟩ (printTrace [⟨4, 0, 5, -1, -1⟩, ⟨8, 1, 6, -1, -1⟩, ⟨12, 2, 7, -1, -1⟩]
      fits_three) = some ['7', Char.ofNat 10] := by
  have hvalid : ValidTrace [⟨4, 0, 5, -1, -1⟩, ⟨8, 1, 6, -1, -1⟩, ⟨12, 2, 7, -1, -1⟩] := by decide
  have hrange := List.forall_mem_map.mp
    ((map_inst_printed fits_three).symm ▸ fun t ht => (hvalid t ht).inRange)
  have heq := drainsAt_three.runProc_eq (by decide)
  rw [procsim_layout _ (layout_printTrace fits_three) hrange, map_inst_printed, heq,
    statCycleCount_stateAt (by decide) (by decide)]
  simp [digits]

/-! ### The table of the instructions -/

/-- The rows of `print_instruction_trace`, sorted by instruction number. -/
def instructionTrace (s : Proc) : List ProcInst :=
  s.completedInstructions.insertionSort fun a b => a.instNum ≤ b.instNum

/-- A row as it is printed. -/
def ProcInst.row (i : ProcInst) : List Char :=
  [i.instNum, i.fetchCycle, i.dispCycle, i.schedCycle, i.execCycle].flatMap
    (fun n => digits 10 n ++ ['\t']) ++ digits 10 i.stateCycle ++ ['\n']

def printInstructionTrace (s : Proc) : List Char :=
  "INST\tFETCH\tDISP\tSCHED\tEXEC\tSTATE\n".toList ++
    (instructionTrace s).flatMap ProcInst.row

/-- The row of line `t` of the trace, instruction `n`, in a run that takes `time` cycles. -/
structure RowOf (cfg : Config) (time : ℕ) (t : TraceInst) (n : ℕ) (p : ProcInst) : Prop where
  inst : p.toTraceInst = t
  num : p.instNum = n
  fetch : p.fetchCycle = n ⌈/⌉ cfg.f
  disp : p.dispCycle = p.fetchCycle + 1
  sched : p.dispCycle < p.schedCycle
  exec : p.schedCycle < p.execCycle
  state : p.execCycle < p.stateCycle
  state_le : p.stateCycle ≤ time

section Table

variable {cfg} {tr : List TraceInst}

/-- A drained machine has the records of the ages, and the table lists them in order. -/
theorem instructionTrace_of_empty (hv : ValidTrace tr) {c : ℕ} (he : (timeline cfg tr c).Empty) :
    instructionTrace (stateAt cfg tr c) =
      (workload tr).ages.map (record tr (timeline cfg tr c)) := by
  have hperm := (timeline_inv cfg tr c).empty_announced he
  have hsorted : (workload tr).ages.Pairwise (· ≤ ·) :=
    List.Pairwise.imp Nat.le_of_lt List.pairwise_lt_range'
  have hages : (timeline cfg tr c).announced.insertionSort (· ≤ ·) = (workload tr).ages :=
    ((List.perm_insertionSort _ _).trans hperm).eq_of_pairwise' (List.pairwise_insertionSort _ _)
      hsorted
  rw [instructionTrace, (stateAt_rep cfg hv c).completedInstructions, ← hages]
  exact (List.map_insertionSort (fun i j : ℕ => i ≤ j) (fun a b : ProcInst => a.instNum ≤ b.instNum)
    (record tr (timeline cfg tr c)) _ fun _ _ _ _ => Iff.rfl).symm

/-- The stages of an instruction of a drained run. -/
theorem rowOf_record (hf : 1 ≤ cfg.f) {c : ℕ} (he : (timeline cfg tr c).Empty) {i : ℕ}
    (hi : i ∈ (workload tr).ages) :
    RowOf cfg (c - 2) (inst tr i) i (record tr (timeline cfg tr c) i) := by
  have hinv := timeline_inv cfg tr c
  obtain ⟨hstate, hlast⟩ := (hinv.empty_done he).2 i hi
  obtain ⟨hexec, hexec_lt⟩ := hinv.state_exec i hstate
  have hsched := (hinv.exec_sched i hexec).2.2
  obtain ⟨hdisp, hdisp_lt⟩ := Timeline.disp_lt_sched (m := machine cfg) (hinv.state_sched hstate).1
  exact ⟨rfl, rfl, Timeline.fetch_eq (m := machine cfg) hf (hinv.disp_fetch hdisp),
    Timeline.disp_eq hdisp, hdisp_lt, hsched, hexec_lt, Nat.le_sub_of_add_le hlast⟩

/-- The table of a drained run of a valid trace: behind its heading every line of the trace has its
    row, in the order of the trace, with the cycles of its five stages in increasing order, and none
    is later than the cycle count that is reported. -/
theorem printInstructionTrace_rows (hf : 1 ≤ cfg.f) (hv : ValidTrace tr)
    (hd : drained (runProc cfg tr) = true) :
    ∃ rows, printInstructionTrace (runProc cfg tr) =
        "INST\tFETCH\tDISP\tSCHED\tEXEC\tSTATE\n".toList ++ rows.flatMap ProcInst.row ∧
      List.Forall₂ (fun x p => RowOf cfg (statCycleCount (runProc cfg tr)) x.1 x.2 p)
        (tr.zipIdx 1) rows := by
  obtain ⟨c, hc, hdrain, heq⟩ := runProc_drainsAt hd
  have he := (drained_iff hv c).mp hdrain.done
  refine ⟨_, rfl, ?_⟩
  rw [heq, instructionTrace_of_empty hv he, zipIdx_eq]
  refine List.forall₂_map_left_iff.mpr (List.forall₂_map_right_iff.mpr ?_)
  refine List.forall₂_same.mpr fun i hi => ?_
  have hne : tr ≠ [] := by
    rintro rfl
    exact absurd hi List.not_mem_nil
  have h7 := hdrain.seven_le hf hv hne
  rw [statCycleCount_stateAt (by omega) hc]
  exact rowOf_record hf he hi

set_option maxRecDepth 4000 in
/-- Three results on one bus. -/
theorem printInstructionTrace_rows_three :
    let tr : List TraceInst := [⟨4, 0, 5, -1, -1⟩, ⟨8, 1, 6, -1, -1⟩, ⟨12, 2, 7, -1, -1⟩]
    ∃ rows, printInstructionTrace (runProc ⟨1, 1, 1, 1, 3⟩ tr) =
        "INST\tFETCH\tDISP\tSCHED\tEXEC\tSTATE\n".toList ++ rows.flatMap ProcInst.row ∧
      List.Forall₂ (fun x p => RowOf ⟨1, 1, 1, 1, 3⟩
        (statCycleCount (runProc ⟨1, 1, 1, 1, 3⟩ tr)) x.1 x.2 p) (tr.zipIdx 1) rows := by
  intro tr
  have heq := drainsAt_three.runProc_eq (by decide)
  exact printInstructionTrace_rows (by decide) (by decide) (by rw [heq]; exact drainsAt_three.done)

end Table

end Procsim
