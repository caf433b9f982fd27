import Ece116c.Procsim.Contents
import Ece116c.Procsim.Values

/-! The tags deliver the right values: whatever the lines of a trace compute, an instruction that
    starts has the operands that it would have in order, a register that shows no tag holds what the
    instructions scheduled so far leave in it, and a run that drains ends with the registers of the
    run in order. -/

namespace Procsim
open Window

namespace Valued

variable {ν : Type*} {M : Meaning ν} {cfg : Config} {tr : List TraceInst} {c : ℕ}
  {T T' : Timeline} {v v' : Valued ν}

/-- The values at a point of the abstract machine. -/
structure Right (M : Meaning ν) (tr : List TraceInst) (T : Timeline) (v : Valued ν) : Prop where
  registers : ∀ x : ℤ, 0 ≤ x → x < 128 → pendingWriter tr T x = 0 →
    v.registers x = M.after tr T.scheduled x
  operands : ∀ i, 1 ≤ i → i ≤ T.scheduled → ∀ k, srcDone tr T k i = true →
    v.operands i k = M.operands tr i k

/-- They depend on what has been scheduled and announced. -/
theorem Right.congr (h : Right M tr T v) (hs : T'.scheduled = T.scheduled)
    (ha : T'.announced = T.announced) (hr : v'.registers = v.registers)
    (ho : v'.operands = v.operands) : Right M tr T' v' := by
  constructor
  · intro x h0 h1 hp
    rw [pendingWriter, ha, hs] at hp
    rw [hr, hs]
    exact h.registers x h0 h1 hp
  · intro i h1 hi k hd
    rw [srcDone, ha] at hd
    rw [ho]
    exact h.operands i h1 (hs ▸ hi) k hd

/-! ### schedule -/

/-- The next instruction reads its sources in order. -/
theorem Right.scheduleInst (hv : ValidTrace tr) (h : Rep tr cfg c T v.proc) (hr : Right M tr T v)
    (hu : Untouched T) (hlt : T.scheduled < tr.length) (rest : List ProcInst) :
    Right M tr (enterOne c T) (scheduleInst (record tr T (T.scheduled + 1))
      (v.map fun s => { s with dispatchQueue := rest })) := by
  have hnew := hu.next_not_announced
  constructor
  · intro x h0 h1 hp
    have hp' : (if lastWriter tr x (T.scheduled + 1) ∈ T.announced then 0
        else lastWriter tr x (T.scheduled + 1)) = 0 := hp
    by_cases hx : (inst tr (T.scheduled + 1)).destReg = x
    · -- its own register shows it
      rw [lastWriter, if_pos hx, if_neg hnew] at hp'
      exact absurd hp' (Nat.succ_ne_zero _)
    · rw [lastWriter, if_neg hx] at hp'
      have hafter : M.after tr (T.scheduled + 1) x = M.after tr T.scheduled x :=
        Meaning.after_of_ne hlt hx
      exact (hr.registers x h0 h1 hp').trans hafter.symm
  · intro i h1 hi k hd
    by_cases hi' : i = T.scheduled + 1
    · subst hi'
      have hsource := h.registerTag.source k ((hv.inst (T.scheduled + 1)).src k)
      have hready : srcReadyOf v.proc.registerTag ((inst tr (T.scheduled + 1)).srcReg k) = true :=
        hsource.1.trans hd
      have hread : readSource v.registers ((inst tr (T.scheduled + 1)).srcReg k) =
          M.operands tr (T.scheduled + 1) k := by
        rw [Meaning.operands, Nat.add_sub_cancel, readSource, readSource]
        rcases (hv.inst (T.scheduled + 1)).src k with hs | hs
        · rw [if_pos hs, if_pos hs]
        · have hne : (inst tr (T.scheduled + 1)).srcReg k ≠ -1 := by omega
          rw [srcReadyOf, Bool.or_eq_true, beq_iff_eq, beq_iff_eq, or_iff_right hne,
            h.registerTag.tag _ hs.1 hs.2] at hready
          rw [if_neg hne, if_neg hne, hr.registers _ hs.1 hs.2 hready]
      refine Eq.trans (congrFun (Function.update_self _ _ v.operands) k) ?_
      exact (if_pos hready).trans hread
    · have hle : i ≤ T.scheduled := Nat.le_of_lt_succ (Nat.lt_of_le_of_ne hi hi')
      refine Eq.trans (congrFun (Function.update_of_ne hi' _ v.operands) k) ?_
      exact hr.operands i h1 hle k hd

theorem room_of_full (h : cfg.scheduleQueueSize ≤ T.window.length) : T.room (machine cfg) = 0 := by
  change min _ (cfg.scheduleQueueSize - T.window.length) = 0
  rw [Nat.sub_eq_zero_of_le h, Nat.min_zero]

theorem Right.scheduleLoop (hv : ValidTrace tr) (n : ℕ) {T : Timeline} {v : Valued ν}
    (h : Rep tr cfg c T v.proc) (hr : Right M tr T v) (hcyc : v.proc.cycleCount = c)
    (hu : Untouched T) (hlen : T.dispatched ≤ tr.length) (hn : T.dispatched - T.scheduled = n) :
    Right M tr (T.enter (machine cfg) c) (scheduleLoop cfg v.proc.dispatchQueue v) := by
  induction n generalizing T v with
  | zero =>
    have hq : v.proc.dispatchQueue = [] := by
      rw [h.dispatchQueue, hn]
      rfl
    have hroom : T.room (machine cfg) = 0 := by rw [Timeline.room, hn, Nat.zero_min]
    rw [hq, Valued.scheduleLoop, enter_of_no_room hroom]
    exact hr
  | succ n ih =>
    have hd : T.scheduled < T.dispatched := by omega
    obtain ⟨rest, hq⟩ : ∃ rest, v.proc.dispatchQueue = record tr T (T.scheduled + 1) :: rest := by
      rw [h.dispatchQueue, range'_cons hd, List.map_cons]
      exact ⟨_, rfl⟩
    have hwindow : v.proc.scheduleQueue.length = T.window.length := by
      rw [h.scheduleQueue, List.length_map]
    rw [hq, Valued.scheduleLoop, hwindow]
    by_cases hl : T.window.length < cfg.scheduleQueueSize
    · rw [if_pos hl, enter_of_room (m := machine cfg) hd hl]
      have hone := hr.scheduleInst hv h hu (Nat.lt_of_lt_of_le hd hlen) rest
      have hrep := scheduleInst_rep hv h hcyc hu hd hq
      have hleft : (enterOne c T).dispatched - (enterOne c T).scheduled = n := by
        change T.dispatched - (T.scheduled + 1) = n
        omega
      exact ih hrep hone hcyc (hu.enterOne hd) hlen hleft
    · rw [if_neg hl, enter_of_no_room (room_of_full (Nat.not_lt.mp hl))]
      exact hr

theorem Right.schedulePhase (hv : ValidTrace tr) (h : Rep tr cfg c T v.proc) (hr : Right M tr T v)
    (hcyc : v.proc.cycleCount = c) (hu : Untouched T) (hlen : T.dispatched ≤ tr.length) :
    Right M tr (T.enter (machine cfg) c) (schedulePhase cfg v) := by
  have hwindow : v.proc.scheduleQueue.length = T.window.length := by
    rw [h.scheduleQueue, List.length_map]
  rw [Valued.schedulePhase, hwindow]
  by_cases hl : cfg.scheduleQueueSize ≤ T.window.length
  · rw [if_pos hl, enter_of_no_room (room_of_full hl)]
    exact hr
  · rw [if_neg hl]
    exact Right.scheduleLoop hv _ h hr hcyc hu hlen rfl

/-! ### broadcast -/

/-- Before a broadcast: whoever is not announced is in the window, and whoever is announced or in
    line for a bus has its operands. -/
structure Broadcasting (tr : List TraceInst) (T : Timeline) : Prop where
  scheduled_le : T.scheduled ≤ tr.length
  window_nodup : T.window.Nodup
  window_le : ∀ i ∈ T.window, 1 ≤ i ∧ i ≤ T.scheduled
  line_nodup : (T.announced ++ T.bus).Nodup
  waiting : ∀ i, 1 ≤ i → i ≤ T.scheduled → i ∉ T.announced → i ∈ T.window
  done : ∀ i, i ∈ T.announced ∨ i ∈ T.bus → ∀ k, srcDone tr T k i = true

theorem Broadcasting.next (h : Broadcasting tr T) {tag : ℕ} {rest : List ℕ}
    (hbus : T.bus = tag :: rest) : Broadcasting tr (announceN 1 T) := by
  obtain ⟨hann, hrest⟩ := announceN_one hbus
  constructor
  · exact h.scheduled_le
  · exact h.window_nodup
  · exact h.window_le
  · rw [hann, hrest, List.append_assoc, List.singleton_append, ← hbus]
    exact h.line_nodup
  · intro i h1 hi ha
    rw [hann] at ha
    exact h.waiting i h1 hi fun hm => ha (List.mem_append_left _ hm)
  · intro i hi k
    have hold : i ∈ T.announced ∨ i ∈ T.bus := by
      rw [hann, hrest] at hi
      rw [hbus]
      simp only [List.mem_append, List.mem_cons] at hi ⊢
      tauto
    rw [srcDone_announce hann, h.done i hold k]
    rfl

theorem waitsFor_iff (h : Rep tr cfg c T v.proc) (tag i : ℕ) (k : Fin 2) :
    v.proc.waitsFor tag i k = true ↔
      i ∈ T.window ∧ srcDone tr T k i = false ∧ srcWait tr T k i = tag := by
  rw [Proc.waitsFor, h.scheduleQueue, List.any_map, List.any_eq_true]
  constructor
  · rintro ⟨j, hj, hwait⟩
    rw [Function.comp_apply, entry_srcReady, entry_srcTag, Bool.and_eq_true, Bool.and_eq_true,
      Bool.not_eq_true', beq_iff_eq] at hwait
    obtain rfl : j = i := hwait.1
    exact ⟨hj, hwait.2.1, eq_of_beq hwait.2.2⟩
  · rintro ⟨hi, hready, hwait⟩
    refine ⟨i, hi, ?_⟩
    rw [Function.comp_apply, entry_srcReady, entry_srcTag, hready, hwait]
    simp [entry]

/-- A result goes where the run in order has it. -/
theorem Right.broadcastTag (h : Rep tr cfg c T v.proc) (hr : Right M tr T v)
    (hb : Broadcasting tr T) {tag : ℕ} {rest : List ℕ} (hbus : T.bus = tag :: rest)
    (htag : tag ∈ T.window) :
    Right M tr (announceN 1 T) (broadcastTag M tag
      (v.map fun s => { s with resultBusQueue := s.resultBusQueue.tail })) := by
  obtain ⟨hann, -⟩ := announceN_one hbus
  obtain ⟨htag1, htagle⟩ := hb.window_le tag htag
  have hbusmem : tag ∈ T.bus := by rw [hbus]; exact List.mem_cons_self ..
  have hnew : tag ∉ T.announced := fun hm =>
    (List.nodup_append.mp hb.line_nodup).2.2 tag hm tag hbusmem rfl
  have hresult : M.compute (inst tr tag) (v.operands tag) = M.result tr tag :=
    congrArg (M.compute (inst tr tag))
      (funext fun k => hr.operands tag htag1 htagle k (hb.done tag (.inr hbusmem) k))
  have hfind : (v.map fun s =>
      { s with resultBusQueue := s.resultBusQueue.tail }).proc.scheduleQueue.find?
        (fun e => e.tag == tag) = some (entry tr T tag) := h.find_tag htag
  rw [Valued.broadcastTag, hfind, Option.elim_some]
  constructor
  · intro x h0 h1 hp
    change (if (inst tr tag).destReg ≠ -1 ∧ regTag v.proc.registerTag (inst tr tag).destReg = tag
      then Function.update v.registers (inst tr tag).destReg
        (M.compute (inst tr tag) (v.operands tag)) else v.registers) x = M.after tr T.scheduled x
    have hshow := h.registerTag.tag x h0 h1
    by_cases hlast : lastWriter tr x T.scheduled = tag
    · -- the register still shows the tag
      have hdest : (inst tr tag).destReg = x := by
        rw [← hlast]
        exact lastWriter_dest T.scheduled (by omega)
      rw [pendingWriter, hlast, if_neg hnew] at hshow
      rw [hdest, if_pos ⟨by omega, hshow⟩, Function.update_self, hresult,
        Meaning.after_eq hb.scheduled_le (by omega), hlast, if_neg (by omega)]
    · have hpending : pendingWriter tr T x = 0 := by
        have hp' : (if lastWriter tr x T.scheduled ∈ T.announced ++ [tag] then 0
            else lastWriter tr x T.scheduled) = 0 := by rw [← hann]; exact hp
        simpa [pendingWriter, hlast] using hp'
      rw [← hr.registers x h0 h1 hpending]
      split
      · rename_i hwrite
        refine Function.update_of_ne (fun hx => ?_) _ _
        rw [← hx, hshow, hpending] at hwrite
        omega
      · rfl
  · intro i h1 hi k hd
    change (if v.proc.waitsFor tag i k then some (M.compute (inst tr tag) (v.operands tag))
      else v.operands i k) = M.operands tr i k
    by_cases hwait : v.proc.waitsFor tag i k = true
    · obtain ⟨-, hno, hproducer⟩ := (waitsFor_iff h tag i k).mp hwait
      rw [srcWait, hno] at hproducer
      have hproducer' : producer tr k i = tag := hproducer
      rw [if_pos hwait, hresult, Meaning.operands_of_producer (le_trans hi hb.scheduled_le)
        (by omega), hproducer']
    · rw [if_neg hwait]
      refine hr.operands i h1 hi k ?_
      by_contra hno
      rw [Bool.not_eq_true] at hno
      rw [srcDone_announce hann, hno, Bool.false_or, Bool.not_false, Bool.true_and,
        beq_iff_eq] at hd
      have hnot : i ∉ T.announced := by
        intro hm
        rw [hb.done i (.inl hm) k] at hno
        cases hno
      exact hwait ((waitsFor_iff h tag i k).mpr ⟨hb.waiting i h1 hi hnot, hno, hd⟩)

theorem Right.broadcastLoop (hv : ValidTrace tr) (n : ℕ) {T : Timeline} {v : Valued ν}
    (h : Rep tr cfg c T v.proc) (hr : Right M tr T v) (hb : Broadcasting tr T)
    (hin : ∀ i ∈ T.bus.take n, i ∈ T.window) (hlen : n ≤ T.bus.length) :
    Right M tr (announceN n T) (broadcastLoop M n v) := by
  induction n generalizing T v with
  | zero => exact hr.congr rfl (List.append_nil _) rfl rfl
  | succ n ih =>
    obtain ⟨tag, rest, hbus⟩ : ∃ tag rest, T.bus = tag :: rest := by
      cases hq : T.bus with
      | nil =>
        rw [hq] at hlen
        simp at hlen
      | cons tag rest => exact ⟨tag, rest, rfl⟩
    have hmem : tag ∈ T.bus.take (n + 1) := by rw [hbus]; exact List.mem_cons_self ..
    have htag := hin tag hmem
    have hbusmem : tag ∈ T.bus := List.mem_of_mem_take hmem
    have hnew : tag ∉ T.announced := fun hm =>
      (List.nodup_append.mp hb.line_nodup).2.2 tag hm tag hbusmem rfl
    have hpos := (hb.window_le tag htag).1
    have hrep := broadcastTag_rep hv h hbus hb.window_nodup htag (by omega) hnew
    have hone := hr.broadcastTag h hb hbus htag
    obtain ⟨-, hrest⟩ := announceN_one hbus
    have hq : v.proc.resultBusQueue = tag :: rest := by rw [h.resultBusQueue, hbus]
    have hproc : (Valued.broadcastTag M tag
        (v.map fun s => { s with resultBusQueue := s.resultBusQueue.tail })).proc =
        Procsim.broadcastTag tag { v.proc with resultBusQueue := rest } := by
      rw [broadcastTag_proc]
      change Procsim.broadcastTag tag
        { v.proc with resultBusQueue := v.proc.resultBusQueue.tail } = _
      rw [hq]
      rfl
    rw [Valued.broadcastLoop, hq, announceN_succ hbus]
    refine ih (hproc ▸ hrep) hone (hb.next hbus) (fun i hi => hin i ?_) ?_
    · rw [hrest] at hi
      rw [hbus, List.take_succ_cons]
      exact List.mem_cons_of_mem _ hi
    · rw [hbus, List.length_cons] at hlen
      rw [hrest]
      omega

/-! ### The run -/

/-- A producer of an instruction that has started is announced. -/
theorem srcDone_of_exec (hinv : T.Inv (machine cfg) (workload tr) c) {i : ℕ} (hi : T.exec i ≠ 0)
    (k : Fin 2) : srcDone tr T k i = true := by
  rw [srcDone, decide_eq_true_eq, or_iff_not_imp_left]
  intro hp
  have hdep := hinv.deps i hi _ ((mem_deps tr i _).mpr ⟨hp, k, rfl⟩)
  have hle := hinv.exec_le i
  exact (hinv.announced_mem _).mpr ⟨hdep.1, by omega⟩

theorem broadcasting_evict (hinv : T.Inv (machine cfg) (workload tr) c) :
    Broadcasting tr T.evict where
  scheduled_le := le_trans hinv.scheduled_le (le_trans hinv.dispatched_le hinv.fetched_le)
  window_nodup := hinv.window_nodup.filter _
  window_le i hi := ((hinv.window_mem i).mp (List.mem_of_mem_filter hi)).1
  line_nodup := hinv.line_nodup
  waiting i h1 hi ha := by
    refine List.mem_filter.mpr ⟨hinv.mem_window h1 hi ha, ?_⟩
    rw [decide_eq_true_eq, hinv.mem_leaving]
    exact fun hl => ha hl.2
  done i hi k := by
    have hexec : T.exec i ≠ 0 := by
      rcases hi with hi | hi
      · exact (hinv.state_exec i ((hinv.announced_mem i).mp hi).1).1
      · exact ((hinv.bus_mem i).mp hi).1
    exact srcDone_of_exec hinv hexec k

/-- `state_update_phase` keeps the values right. -/
theorem Right.stateUpdatePhase (hv : ValidTrace tr)
    (hinv : T.Inv (machine cfg) (workload tr) c) (h : Rep tr cfg c T v.proc)
    (hr : Right M tr T v) :
    Right M tr (T.update (machine cfg) (c + 1)) (stateUpdatePhase M cfg v) := by
  have hevict : Right M tr T.evict (v.map retirePhase1) := hr.congr rfl rfl rfl rfl
  have hrep : Rep tr cfg c T.evict (v.map retirePhase1).proc := evict_rep hinv h
  have htake : T.bus.take (min cfg.r T.bus.length) = T.bus.take cfg.r :=
    List.take_eq_take_min.symm
  have hloop := hevict.broadcastLoop hv (min cfg.r T.bus.length) hrep (broadcasting_evict hinv)
    (fun i hi => (granted_window hinv (htake ▸ hi)).1) (Nat.min_le_right ..)
  have hbus : (v.map retirePhase1).proc.resultBusQueue = T.bus := hrep.resultBusQueue
  refine hloop.congr rfl ?_ ?_ ?_
  · exact congrArg (T.announced ++ ·) htake.symm
  · rw [Valued.stateUpdatePhase, Valued.retirePhase2, hbus]
    rfl
  · rw [Valued.stateUpdatePhase, Valued.retirePhase2, hbus]
    rfl

/-- The values are right at the end of every cycle. -/
theorem right_stateAt (M : Meaning ν) (cfg : Config) (hv : ValidTrace tr) (c : ℕ) :
    Right M tr (timeline cfg tr c) (stateAt M cfg tr c) := by
  induction c with
  | zero => exact ⟨fun _ _ _ _ => rfl, fun i h1 hi => absurd hi (Nat.not_le.mpr h1)⟩
  | succ c ih =>
    have hrep := stateAt_rep cfg hv c
    have hproc := stateAt_proc M cfg tr c
    have hupdate : Right M tr (timelineAt cfg tr c .updated)
        (stateUpdatePhase M cfg ((stateAt M cfg tr c).map tick)) := by
      refine Right.stateUpdatePhase hv (timeline_inv cfg tr c) ?_ (ih.congr rfl rfl rfl rfl)
      change Rep tr cfg c (timeline cfg tr c) (tick (stateAt M cfg tr c).proc)
      rw [hproc]
      exact hrep.tick
    have hexecuted : ((stateUpdatePhase M cfg ((stateAt M cfg tr c).map tick)).map
        executePhase).proc = executedAt cfg tr c := by
      change executePhase (stateUpdatePhase M cfg ((stateAt M cfg tr c).map tick)).proc = _
      rw [stateUpdatePhase_proc]
      change executePhase (Procsim.stateUpdatePhase cfg (tick (stateAt M cfg tr c).proc)) = _
      rw [hproc]
      rfl
    have hinv := timelineAt_inv cfg tr c .executed
    have hexecute : Right M tr (timelineAt cfg tr c .executed)
        ((stateUpdatePhase M cfg ((stateAt M cfg tr c).map tick)).map executePhase) :=
      hupdate.congr (Timeline.issue_scheduled ..) (Timeline.issue_announced ..) rfl rfl
    have hschedule := Right.schedulePhase hv (hexecuted ▸ executedAt_rep hv hrep) hexecute
      (by rw [hexecuted]; exact updatedAt_cycleCount cfg tr c) (Untouched.of_inv hinv)
      (le_trans hinv.dispatched_le hinv.fetched_le)
    exact hschedule.congr rfl rfl rfl rfl

/-- The number of instructions scheduled so far. -/
def scheduledCount (s : Proc) : ℕ :=
  s.nextTag - 1 - s.fetchQueue.length - s.dispatchQueue.length

theorem scheduledCount_eq (hinv : T.Inv (machine cfg) (workload tr) c) {s : Proc}
    (h : Rep tr cfg c T s) : scheduledCount s = T.scheduled := by
  have hS := hinv.scheduled_le
  have hD := hinv.dispatched_le
  rw [scheduledCount, h.nextTag, h.fetchQueue, h.dispatchQueue, List.length_map, List.length_map,
    List.length_range', List.length_range']
  omega

/-- Every line adds its sources to its address. -/
def sum : Meaning ℕ where
  compute t ops := ((List.finRange 2).filterMap ops).foldl Nat.add t.instructionAddress
  registers _ := 0

/-- Two writers of one register, and a reader of the second. -/
def writers : List TraceInst := [⟨4, 0, 5, -1, -1⟩, ⟨8, 2, 5, 5, -1⟩, ⟨12, 0, 6, 5, 5⟩]

/-- Operands and registers are those of the run in order: at the end of every cycle an instruction
    that has started has its operands of that run, and a register that shows no tag has the value
    that the instructions scheduled so far leave in it. -/
theorem values_in_order (M : Meaning ν) (cfg : Config) (hv : ValidTrace tr) (c : ℕ) :
    (stateAt M cfg tr c).proc = Procsim.stateAt cfg tr c ∧
    (∀ e ∈ (Procsim.stateAt cfg tr c).scheduleQueue, e.fired = true →
      (stateAt M cfg tr c).operands e.tag = M.operands tr e.tag) ∧
    ∀ x : ℤ, 0 ≤ x → x < 128 → regTag (Procsim.stateAt cfg tr c).registerTag x = 0 →
      (stateAt M cfg tr c).registers x =
        M.after tr (scheduledCount (Procsim.stateAt cfg tr c)) x := by
  have hr := right_stateAt M cfg hv c
  have h := stateAt_rep cfg hv c
  have hinv := timeline_inv cfg tr c
  refine ⟨stateAt_proc M cfg tr c, fun e he hfired => ?_, fun x h0 h1 htag => ?_⟩
  · rw [h.scheduleQueue] at he
    obtain ⟨i, hi, rfl⟩ := List.mem_map.mp he
    obtain ⟨h1, hle⟩ := ((hinv.window_mem i).mp hi).1
    have hexec : (timeline cfg tr c).exec i ≠ 0 := of_decide_eq_true hfired
    exact funext fun k => hr.operands i h1 hle k (srcDone_of_exec hinv hexec k)
  · rw [h.registerTag.tag x h0 h1] at htag
    rw [scheduledCount_eq hinv h]
    exact hr.registers x h0 h1 htag

set_option maxRecDepth 4000 in
/-- The third instruction has started with the result of the second. -/
theorem values_in_order_writers :
    (stateAt sum ⟨1, 1, 1, 1, 2⟩ writers 8).operands 3 = fun _ => some 12 := by
  obtain ⟨-, hoperands, -⟩ := @values_in_order _ writers sum ⟨1, 1, 1, 1, 2⟩ (by decide) 8
  obtain ⟨e, he, htag, hfired⟩ : ∃ e ∈ (Procsim.stateAt ⟨1, 1, 1, 1, 2⟩ writers 8).scheduleQueue,
      e.tag = 3 ∧ e.fired = true := by decide
  have h := hoperands e he hfired
  rw [htag] at h
  rw [h]
  decide

/-- The out-of-order run does what the run in order does: whatever the lines of a trace compute, a
    run that drains ends with the registers of the run in order. -/
theorem drained_in_order (M : Meaning ν) (cfg : Config) (hv : ValidTrace tr)
    (hd : drained (runProc cfg tr) = true) :
    (stateAt M cfg tr (runProc cfg tr).cycleCount).proc = runProc cfg tr ∧
    ∀ x : ℤ, 0 ≤ x → x < 128 →
      (stateAt M cfg tr (runProc cfg tr).cycleCount).registers x = M.inOrder tr x := by
  obtain ⟨c, -, hdrain, heq⟩ := runProc_drainsAt hd
  rw [heq, stateAt_cycleCount]
  refine ⟨stateAt_proc M cfg tr c, fun x h0 h1 => ?_⟩
  have hinv := timeline_inv cfg tr c
  have hempty := (drained_iff hv c).mp hdrain.done
  have hsize : (timeline cfg tr c).scheduled = tr.length := by
    rw [hempty.2.2.1, hempty.2.1]
    exact (hinv.empty_done hempty).1
  have hpending : pendingWriter tr (timeline cfg tr c) x = 0 := by
    rw [pendingWriter]
    by_cases h : lastWriter tr x (timeline cfg tr c).scheduled = 0
    · rw [h, ite_self]
    · refine if_pos ((hinv.empty_announced hempty).mem_iff.mpr (Timeline.mem_ages.mpr ?_))
      have hle : lastWriter tr x (timeline cfg tr c).scheduled ≤ _ :=
        lastWriter_le (timeline cfg tr c).scheduled
      exact ⟨Nat.one_le_iff_ne_zero.mpr h, hsize ▸ hle⟩
  have hregister := (right_stateAt M cfg hv c).registers x h0 h1 hpending
  rw [hsize, Meaning.after, List.take_length] at hregister
  exact hregister

set_option maxRecDepth 4000 in
theorem drained_in_order_writers :
    (stateAt sum ⟨1, 1, 1, 1, 2⟩ writers 11).registers 6 = 36 := by
  have hdrain : DrainsAt ⟨1, 1, 1, 1, 2⟩ writers 11 := by decide
  have heq := hdrain.runProc_eq (by decide)
  have h := @drained_in_order _ writers sum ⟨1, 1, 1, 1, 2⟩ (by decide)
    (by rw [heq]; exact hdrain.done)
  rw [heq, stateAt_cycleCount] at h
  exact h.2 6 (by decide) (by decide)

end Valued

end Procsim
