import Ece116c.Procsim.Scoreboard
import Ece116c.Procsim.Run

/-! `schedule_phase`, `dispatch_phase`, `fetch_phase` and the statistics refine the front end of
    the abstract machine.

    The loops of the code move one instruction a turn; `enterOne` and `fetchOne` are these turns on
    a timeline, and the whole steps of the abstract machine are their iterations. -/

namespace Procsim
open Window

variable {cfg : Config} {tr : List TraceInst} {c : ℕ} {T : Timeline} {s : Proc}

/-- `List.range'` of a nonempty interval of tags. -/
theorem range'_cons {a b : ℕ} (h : a < b) :
    List.range' (a + 1) (b - a) = (a + 1) :: List.range' (a + 1 + 1) (b - (a + 1)) := by
  rw [show b - a = (b - (a + 1)) + 1 by omega, List.range'_succ]

/-! ### schedule -/

/-- The next dispatched instruction enters the window. -/
def enterOne (c : ℕ) (T : Timeline) : Timeline :=
  { T with
    window := T.window ++ [T.scheduled + 1]
    sched := Function.update T.sched (T.scheduled + 1) c
    scheduled := T.scheduled + 1 }

theorem enter_of_room {m : Machine FuType} (hd : T.scheduled < T.dispatched)
    (hl : T.window.length < m.slots) : T.enter m c = (enterOne c T).enter m c := by
  have hroom : T.room m = (enterOne c T).room m + 1 := by
    simp only [Timeline.room, enterOne, List.length_append, List.length_cons, List.length_nil]
    omega
  simp only [Timeline.enter, hroom, enterOne, stampFrom_succ, List.range'_succ, List.append_assoc,
    List.singleton_append, Nat.add_assoc, Nat.add_comm 1]

theorem enter_of_no_room {m : Machine FuType} (h : T.room m = 0) : T.enter m c = T := by
  simp only [Timeline.enter, h, stampFrom_zero, List.range'_zero, List.append_nil, Nat.add_zero]

/-- Nothing beyond the scheduled instructions has started. -/
structure Untouched (T : Timeline) : Prop where
  order : T.scheduled ≤ T.dispatched
  window_le : ∀ i ∈ T.window, i ≤ T.scheduled
  exec : ∀ i, T.scheduled < i → T.exec i = 0
  announced_le : ∀ i ∈ T.announced, i ≤ T.scheduled
  bus_le : ∀ i ∈ T.bus, i ≤ T.scheduled

theorem Untouched.of_inv {m : Machine FuType} {w : Workload FuType} (h : T.Inv m w c) :
    Untouched T where
  order := h.scheduled_le
  window_le i hi := ((h.window_mem i).mp hi).1.2
  exec i hi := by
    by_contra he
    have := h.exec_sched i he
    omega
  announced_le i hi :=
    (h.exec_sched i (h.state_exec i ((h.announced_mem i).mp hi).1).1).2.1
  bus_le i hi := (h.exec_sched i ((h.bus_mem i).mp hi).1).2.1

theorem Untouched.enterOne (h : Untouched T) (hd : T.scheduled < T.dispatched) :
    Untouched (enterOne c T) where
  order := hd
  window_le i hi := by
    rcases List.mem_append.mp hi with hi | hi
    · exact Nat.le_succ_of_le (h.window_le i hi)
    · rw [List.mem_singleton] at hi; exact Nat.le_of_eq hi
  exec i hi := h.exec i (Nat.lt_of_succ_lt hi)
  announced_le i hi := Nat.le_succ_of_le (h.announced_le i hi)
  bus_le i hi := Nat.le_succ_of_le (h.bus_le i hi)

theorem record_enterOne (i : ℕ) (hi : i ≠ T.scheduled + 1) :
    record tr (enterOne c T) i = record tr T i := by
  simp only [record, enterOne, Function.update_of_ne hi]

theorem Untouched.next_not_announced (hu : Untouched T) : T.scheduled + 1 ∉ T.announced :=
  fun ha => by
    have := hu.announced_le _ ha
    omega

/-- The entry built for the next instruction: fresh, with the scoreboard's answer for its
    sources. -/
theorem newEntry_eq (hv : ValidTrace tr) (h : Rep tr cfg c T s) (hcyc : s.cycleCount = c)
    (hu : Untouched T) :
    newEntry s.registerTag s.cycleCount (record tr T (T.scheduled + 1)) =
      entry tr (enterOne c T) (T.scheduled + 1) := by
  have hsrc := fun t => h.registerTag.source t ((hv.inst (T.scheduled + 1)).src t)
  have hexec := hu.exec (T.scheduled + 1) (Nat.lt_succ_self _)
  have hnew := hu.next_not_announced
  have hb : T.scheduled + 1 ∉ T.bus := fun hb => by
    have := hu.bus_le _ hb
    omega
  refine ScheduleEntry.ext ?_ rfl ?_ ?_ ?_ ?_ ?_ ?_ ?_ ?_ ?_
  · simp only [newEntry, record, entry, enterOne, Function.update_self, hcyc]
  · simp [newEntry, entry, enterOne, hexec]
  · simp [newEntry, entry, enterOne, hexec]
  · simp [newEntry, entry, enterOne, hexec]
  · simp [newEntry, entry, enterOne, hnew]
  · simp [newEntry, entry, enterOne, hnew, hb]
  · exact (hsrc 0).1
  · exact (hsrc 0).2
  · exact (hsrc 1).1
  · exact (hsrc 1).2

/-- One turn of the `while` loop of `schedule_phase`. -/
theorem scheduleInst_rep (hv : ValidTrace tr) (h : Rep tr cfg c T s) (hcyc : s.cycleCount = c)
    (hu : Untouched T) (hd : T.scheduled < T.dispatched) {rest : List ProcInst}
    (hq : s.dispatchQueue = record tr T (T.scheduled + 1) :: rest) :
    Rep tr cfg c (enterOne c T)
      (scheduleInst (record tr T (T.scheduled + 1)) { s with dispatchQueue := rest }) := by
  have hrest : rest = (List.range' (T.scheduled + 1 + 1) (T.dispatched - (T.scheduled + 1))).map
      (record tr T) := by
    have := h.dispatchQueue
    rw [hq, range'_cons hd, List.map_cons] at this
    exact (List.cons.inj this).2
  exact { h with
    fetchQueue := by
      refine records_congr record_enterOne (fun i hi => ?_) h.fetchQueue
      have hi' : T.dispatched + 1 ≤ i ∧ _ := List.mem_range'_1.mp hi
      omega
    dispatchQueue := by
      refine records_congr record_enterOne (fun i hi => ?_) hrest
      have hi' : T.scheduled + 1 + 1 ≤ i ∧ _ := List.mem_range'_1.mp hi
      omega
    scheduleQueue := by
      have hold : s.scheduleQueue = T.window.map (entry tr (enterOne c T)) := by
        refine entries_congr record_enterOne (fun i hi => ?_) rfl rfl rfl rfl h.scheduleQueue
        have := hu.window_le i hi
        omega
      change s.scheduleQueue ++ [newEntry s.registerTag s.cycleCount _] =
        (T.window ++ [T.scheduled + 1]).map _
      rw [newEntry_eq hv h hcyc hu, hold, List.map_append]
      rfl
    completedInstructions := by
      refine records_congr record_enterOne (fun i hi => ?_) h.completedInstructions
      have := hu.announced_le i hi
      omega
    units := ⟨h.units.length, h.units.held, h.units.busy⟩
    registerTag := h.registerTag.claimDest (enterOne c T) (hv.inst (T.scheduled + 1)).dest rfl rfl
      hu.next_not_announced _ rfl }

theorem scheduleLoop_rep (hv : ValidTrace tr) (n : ℕ) (T : Timeline) (s : Proc)
    (h : Rep tr cfg c T s) (hcyc : s.cycleCount = c) (hu : Untouched T)
    (hn : T.dispatched - T.scheduled = n) :
    Rep tr cfg c (T.enter (machine cfg) c) (scheduleLoop cfg s.dispatchQueue s) := by
  induction n generalizing T s with
  | zero =>
    have hq : s.dispatchQueue = [] := by
      rw [h.dispatchQueue, hn]
      rfl
    have hroom : T.room (machine cfg) = 0 := by rw [Timeline.room, hn, Nat.zero_min]
    rw [hq, scheduleLoop, enter_of_no_room hroom]
    exact h
  | succ n ih =>
    have hd : T.scheduled < T.dispatched := by omega
    obtain ⟨rest, hq⟩ : ∃ rest, s.dispatchQueue = record tr T (T.scheduled + 1) :: rest := by
      rw [h.dispatchQueue, range'_cons hd, List.map_cons]
      exact ⟨_, rfl⟩
    have hlen : s.scheduleQueue.length = T.window.length := by
      rw [h.scheduleQueue, List.length_map]
    rw [hq, scheduleLoop, hlen]
    by_cases hl : T.window.length < cfg.scheduleQueueSize
    · rw [if_pos hl, enter_of_room (m := machine cfg) hd hl]
      have hone := scheduleInst_rep hv h hcyc hu hd hq
      have hleft : (enterOne c T).dispatched - (enterOne c T).scheduled = n := by
        change T.dispatched - (T.scheduled + 1) = n
        omega
      exact ih _ _ hone hcyc (hu.enterOne hd) hleft
    · have hroom : T.room (machine cfg) = 0 := by
        have hz : cfg.scheduleQueueSize - T.window.length = 0 := by omega
        change min _ (cfg.scheduleQueueSize - T.window.length) = 0
        rw [hz, Nat.min_zero]
      rw [if_neg hl, enter_of_no_room hroom]
      exact h

theorem schedulePhase_rep (hv : ValidTrace tr) (h : Rep tr cfg c T s) (hcyc : s.cycleCount = c)
    (hu : Untouched T) : Rep tr cfg c (T.enter (machine cfg) c) (schedulePhase cfg s) := by
  have hlen : s.scheduleQueue.length = T.window.length := by
    rw [h.scheduleQueue, List.length_map]
  rw [schedulePhase, hlen]
  by_cases hl : cfg.scheduleQueueSize ≤ T.window.length
  · have hroom : T.room (machine cfg) = 0 := by
      change min _ (cfg.scheduleQueueSize - T.window.length) = 0
      rw [Nat.sub_eq_zero_of_le hl, Nat.min_zero]
    rw [if_pos hl, enter_of_no_room hroom]
    exact h
  · rw [if_neg hl]
    exact scheduleLoop_rep hv _ T s h hcyc hu rfl

/-! ### dispatch -/

theorem record_dispatch (i : ℕ) (hi : i ≤ T.dispatched) :
    record tr (T.dispatch c) i = record tr T i := by
  simp only [record, Timeline.dispatch]
  rw [if_neg (by omega)]

theorem dispatchPhase_rep (h : Rep tr cfg c T s) (hcyc : s.cycleCount = c) (hu : Untouched T)
    (hD : T.dispatched ≤ T.fetched) : Rep tr cfg c (T.dispatch c) (dispatchPhase s) := by
  have hS := hu.order
  exact { h with
    fetchQueue := by simp [dispatchPhase, Timeline.dispatch]
    dispatchQueue := by
      have hsplit : List.range' (T.scheduled + 1) (T.fetched - T.scheduled) =
          List.range' (T.scheduled + 1) (T.dispatched - T.scheduled) ++
            List.range' (T.dispatched + 1) (T.fetched - T.dispatched) := by
        rw [show T.dispatched + 1 = T.scheduled + 1 + (T.dispatched - T.scheduled) by omega,
          List.range'_append_1]
        congr 1
        omega
      change s.dispatchQueue ++ s.fetchQueue.map _ =
        (List.range' (T.scheduled + 1) (T.fetched - T.scheduled)).map _
      rw [hsplit, List.map_append, h.fetchQueue, List.map_map]
      congr 1
      · refine records_congr record_dispatch (fun i hi => ?_) h.dispatchQueue
        have := List.mem_range'_1.mp hi
        omega
      · refine List.map_congr_left fun i hi => ?_
        have := List.mem_range'_1.mp hi
        simp only [Function.comp_apply, record, Timeline.dispatch]
        rw [if_pos (by omega), hcyc]
    scheduleQueue :=
      entries_congr record_dispatch (fun i hi => (hu.window_le i hi).trans hS) rfl rfl rfl rfl
        h.scheduleQueue
    completedInstructions :=
      records_congr record_dispatch (fun i hi => (hu.announced_le i hi).trans hS)
        h.completedInstructions
    units := ⟨h.units.length, h.units.held, h.units.busy⟩
    registerTag := ⟨h.registerTag.length, h.registerTag.tag⟩ }

/-! ### fetch -/

/-- One instruction is fetched. -/
def fetchOne (c : ℕ) (T : Timeline) : Timeline :=
  { T with
    fetch := Function.update T.fetch (T.fetched + 1) c
    fetched := T.fetched + 1 }

/-- The machine with another fetch width. -/
def withWidth (m : Machine FuType) (n : ℕ) : Machine FuType := { m with width := n }

variable {m : Machine FuType} {w : Workload FuType}

theorem fetchNext_zero (he : T.eof = false) (hF : T.fetched ≤ w.size) :
    T.fetchNext (withWidth m 0) w c = T := by
  have hn : T.fetchCount (withWidth m 0) w = 0 := by
    rw [Timeline.fetchCount, if_neg (by rw [he]; decide)]; exact Nat.zero_min _
  have hw : decide (w.size < T.fetched + (withWidth m 0).width) = false := by
    rw [decide_eq_false_iff_not]; change ¬ w.size < T.fetched + 0; omega
  simp only [Timeline.fetchNext, hn, stampFrom_zero, hw, Nat.add_zero, Bool.or_false]

theorem fetchNext_end {n : ℕ} (he : T.eof = false) (hF : T.fetched = w.size) :
    T.fetchNext (withWidth m (n + 1)) w c = { T with eof := true } := by
  have hn : T.fetchCount (withWidth m (n + 1)) w = 0 := by
    rw [Timeline.fetchCount, if_neg (by rw [he]; decide), hF, Nat.sub_self]; exact Nat.min_zero _
  have hw : decide (w.size < T.fetched + (withWidth m (n + 1)).width) = true := by
    rw [decide_eq_true_eq]; change w.size < T.fetched + (n + 1); omega
  simp only [Timeline.fetchNext, hn, stampFrom_zero, hw, Nat.add_zero, Bool.or_true]

theorem fetchNext_succ {n : ℕ} (he : T.eof = false) (hF : T.fetched < w.size) :
    T.fetchNext (withWidth m (n + 1)) w c = (fetchOne c T).fetchNext (withWidth m n) w c := by
  have hcount : T.fetchCount (withWidth m (n + 1)) w =
      (fetchOne c T).fetchCount (withWidth m n) w + 1 := by
    simp only [Timeline.fetchCount, fetchOne, he, withWidth, Bool.false_eq_true, if_false]
    omega
  have hw : decide (w.size < T.fetched + (withWidth m (n + 1)).width) =
      decide (w.size < T.fetched + 1 + (withWidth m n).width) :=
    decide_eq_decide.mpr (by change _ < _ + (n + 1) ↔ _ < _ + 1 + n; omega)
  simp only [Timeline.fetchNext, hcount, stampFrom_succ, hw, fetchOne, Nat.add_assoc,
    Nat.add_comm 1]

theorem drop_inst {n : ℕ} (h : n < tr.length) : tr.drop n = inst tr (n + 1) :: tr.drop (n + 1) := by
  rw [List.drop_eq_getElem_cons h, inst, List.getD_eq_getElem?_getD, Nat.add_sub_cancel,
    List.getElem?_eq_getElem h]
  rfl

theorem record_fetchOne (i : ℕ) (hi : i ≠ T.fetched + 1) :
    record tr (fetchOne c T) i = record tr T i := by
  simp only [record, fetchOne, Function.update_of_ne hi]

/-- One successful turn of the loop of `fetch_phase`. -/
theorem fetchOne_rep (h : Rep tr cfg c T s) (hcyc : s.cycleCount = c) (hu : Untouched T)
    (hD : T.dispatched ≤ T.fetched) (hz : ∀ i, T.fetched < i → T.disp i = 0 ∧ T.sched i = 0 ∧
      T.state i = 0) :
    Rep tr cfg c (fetchOne c T) { s with
      input := tr.drop (T.fetched + 1)
      nextTag := s.nextTag + 1
      fetchQueue :=
        s.fetchQueue ++ [fetchedInst (inst tr (T.fetched + 1)) s.nextTag s.cycleCount] } := by
  have hS := hu.order
  have hnew : fetchedInst (inst tr (T.fetched + 1)) s.nextTag s.cycleCount =
      record tr (fetchOne c T) (T.fetched + 1) := by
    obtain ⟨h1, h2, h3⟩ := hz (T.fetched + 1) (Nat.lt_succ_self _)
    have h4 := hu.exec (T.fetched + 1) (by omega)
    simp only [fetchedInst, record, fetchOne, Function.update_self, h.nextTag, hcyc, h1, h2, h3, h4]
  exact { h with
    input := rfl
    nextTag := congrArg (· + 1) h.nextTag
    fetchQueue := by
      have hold : s.fetchQueue = (List.range' (T.dispatched + 1) (T.fetched - T.dispatched)).map
          (record tr (fetchOne c T)) := by
        refine records_congr record_fetchOne (fun i hi => ?_) h.fetchQueue
        have := List.mem_range'_1.mp hi
        omega
      change s.fetchQueue ++ _ =
        (List.range' (T.dispatched + 1) (T.fetched + 1 - T.dispatched)).map _
      rw [show T.fetched + 1 - T.dispatched = (T.fetched - T.dispatched) + 1 by omega,
        List.range'_1_concat, List.map_append, hnew, hold, List.map_cons, List.map_nil,
        show T.dispatched + 1 + (T.fetched - T.dispatched) = T.fetched + 1 by omega]
    dispatchQueue := by
      refine records_congr record_fetchOne (fun i hi => ?_) h.dispatchQueue
      have hi' : _ ∧ i < T.scheduled + 1 + (T.dispatched - T.scheduled) := List.mem_range'_1.mp hi
      omega
    scheduleQueue := by
      refine entries_congr record_fetchOne (fun i hi => ?_) rfl rfl rfl rfl h.scheduleQueue
      have := hu.window_le i hi
      omega
    completedInstructions := by
      refine records_congr record_fetchOne (fun i hi => ?_) h.completedInstructions
      have := hu.announced_le i hi
      omega
    units := ⟨h.units.length, h.units.held, h.units.busy⟩
    registerTag := ⟨h.registerTag.length, h.registerTag.tag⟩ }

theorem fetchLoop_rep (n : ℕ) (T : Timeline) (s : Proc) (h : Rep tr cfg c T s)
    (hcyc : s.cycleCount = c) (hu : Untouched T) (hD : T.dispatched ≤ T.fetched)
    (hF : T.fetched ≤ tr.length)
    (hz : ∀ i, T.fetched < i → T.disp i = 0 ∧ T.sched i = 0 ∧ T.state i = 0)
    (he : T.eof = false) :
    Rep tr cfg c (T.fetchNext (withWidth (machine cfg) n) (workload tr) c) (fetchLoop n s) := by
  induction n generalizing T s with
  | zero =>
    rw [fetchNext_zero he hF]
    exact h
  | succ n ih =>
    rw [fetchLoop, h.input]
    rcases Nat.lt_or_eq_of_le hF with hlt | heq
    · rw [drop_inst hlt, fetchNext_succ (w := workload tr) he hlt]
      have hone := fetchOne_rep h hcyc hu hD hz
      refine ih _ _ hone hcyc
        ⟨hu.order, hu.window_le, hu.exec, hu.announced_le, hu.bus_le⟩ (Nat.le_succ_of_le hD) hlt
        (fun i hi => hz i (Nat.lt_of_succ_lt hi)) he
    · rw [List.drop_eq_nil_of_le (Nat.le_of_eq heq.symm),
        fetchNext_end (w := workload tr) he heq]
      exact { h with
        input := (List.drop_eq_nil_of_le (Nat.le_of_eq heq.symm)).symm
        fetchComplete := rfl
        units := ⟨h.units.length, h.units.held, h.units.busy⟩
        registerTag := ⟨h.registerTag.length, h.registerTag.tag⟩ }

theorem fetchPhase_rep (hinv : T.Inv (machine cfg) (workload tr) c) (h : Rep tr cfg c T s)
    (hcyc : s.cycleCount = c) :
    Rep tr cfg c (T.fetchNext (machine cfg) (workload tr) c) (fetchPhase cfg s) := by
  rw [fetchPhase, h.fetchComplete]
  cases he : T.eof with
  | true =>
    have hsame : T.fetchNext (machine cfg) (workload tr) c = T := by
      have hn : T.fetchCount (machine cfg) (workload tr) = 0 := by
        rw [Timeline.fetchCount, if_pos he]
      have hor : (T.eof || decide ((workload tr).size < T.fetched + (machine cfg).width)) =
          T.eof := by
        rw [he, Bool.true_or]
      simp only [Timeline.fetchNext, hn, stampFrom_zero, hor, Nat.add_zero]
    rw [if_pos rfl, hsame]
    exact h
  | false =>
    rw [if_neg (by decide)]
    refine fetchLoop_rep cfg.f T s h hcyc (Untouched.of_inv hinv) hinv.dispatched_le
      hinv.fetched_le (fun i hi => ?_) he
    have hS := hinv.scheduled_le
    have hD := hinv.dispatched_le
    have h1 := hinv.disp_iff i
    have h2 := hinv.sched_iff i
    refine ⟨by omega, by omega, ?_⟩
    by_contra hs
    have := hinv.exec_sched i (hinv.state_exec i hs).1
    omega

/-! ### statistics -/

theorem sample_rep (h : Rep tr cfg c T s) : Rep tr cfg c T.count (sample s) := by
  have hlen : s.dispatchQueue.length = T.dispatched - T.scheduled := by
    rw [h.dispatchQueue, List.length_map, List.length_range']
  exact { h with
    units := ⟨h.units.length, h.units.held, h.units.busy⟩
    registerTag := ⟨h.registerTag.length, h.registerTag.tag⟩
    totalDispatchSize := by
      change s.totalDispatchSize + s.dispatchQueue.length = _
      rw [hlen, h.totalDispatchSize]; rfl
    maxDispatchSize := by
      change (if s.maxDispatchSize < s.dispatchQueue.length then s.dispatchQueue.length
        else s.maxDispatchSize) = _
      rw [hlen, h.maxDispatchSize]; rfl }

end Procsim
