import Ece116c.Procsim.View
import Ece116c.Window.Issue

/-! `execute_phase` refines `Timeline.issue`: the same instructions start, on the same units.

    The first unit that is not busy in an array is the first one no instruction of the window
    holds, and an attempt for one entry changes no other entry, so the loop over the queue is the
    scan of the window. -/

namespace Procsim
open Window Lists

variable {cfg : Config} {tr : List TraceInst} {c : ℕ} {T : Timeline} {s : Proc} {b : FuBank}

/-- Everybody who holds a unit is in the window. -/
def HoldersInWindow (T : Timeline) : Prop := ∀ i, T.Held i → i ∈ T.window

theorem BankRep.findFree (h : BankRep tr cfg c T b) (hw : HoldersInWindow T) (t : FuType) :
    (b.get t).findIdx? (fun u => !u.busy) = T.freeUnit? (machine cfg) (workload tr) t := by
  rw [Timeline.freeUnit?]
  have hlen : (machine cfg).units t = (b.get t).length := (h.length t).symm
  rw [hlen]
  refine findIdx?_eq_find?_range fun j u hu => ?_
  congr 1
  -- busy, as the array sees it, is held, as the window sees it
  cases hb : u.busy with
  | true =>
    obtain ⟨i, hi, hk, hj⟩ := h.busy t j u hu hb
    exact (List.any_eq_true.mpr ⟨i, hw i hi, by simp [hi, hk, hj]⟩).symm
  | false =>
    symm
    rw [List.any_eq_false]
    intro i _
    simp only [decide_eq_true_eq]
    rintro ⟨hi, hk, rfl⟩
    rw [h.held i t hi hk] at hu
    rw [← Option.some.inj hu] at hb
    cases hb

theorem ready_iff (T : Timeline) (i : ℕ) :
    T.Ready (workload tr) i ↔ srcDone tr T 0 i = true ∧ srcDone tr T 1 i = true := by
  simp only [srcDone, decide_eq_true_eq, Timeline.Ready, mem_deps]
  constructor
  · intro h
    exact ⟨or_iff_not_imp_left.mpr fun h0 => h _ ⟨h0, 0, rfl⟩,
      or_iff_not_imp_left.mpr fun h0 => h _ ⟨h0, 1, rfl⟩⟩
  · rintro ⟨h0, h1⟩ p ⟨hp, s, rfl⟩
    match s with
    | 0 => exact h0.resolve_left hp
    | 1 => exact h1.resolve_left hp

/-- Taking a free unit keeps the view of the units. -/
theorem BankRep.fire {i j : ℕ} {t : FuType} (h : BankRep tr cfg c T b) (hc : c ≠ 0)
    (he : T.exec i = 0) (hs : T.state i = 0) (hk : (workload tr).kind i = some t)
    (hj : j < cfg.k t)
    (hfree : ∀ a, T.Held a → (workload tr).kind a = some t → T.unit a ≠ j) :
    BankRep tr cfg c (T.fire c i j) (b.set ((b.get t).set j ⟨true, 1, i⟩) t) := by
  have hheld : ∀ a, a ≠ i → ((T.fire c i j).Held a ↔ T.Held a) := by
    intro a ha
    rw [Timeline.Held, Timeline.Held, Timeline.fire_exec_of_ne ha, Timeline.fire_state]
  rw [List.set_eq_modify]
  refine ⟨fun t' => (FuBank.length_modify ..).trans (h.length t'), fun a t' ha hka => ?_,
    fun t' j' u hu hb => ?_⟩
  · rw [FuBank.getElem?_modify]
    by_cases hai : a = i
    · subst hai
      obtain rfl : t' = t := Option.some.inj (hka.symm.trans hk)
      have hjl : j < (b.get t').length := by rw [h.length]; exact hj
      rw [Timeline.fire_unit_self, Timeline.fire_exec_self, if_pos ⟨rfl, rfl⟩, if_pos rfl,
        List.getElem?_eq_getElem hjl]
      rfl
    · have ha' := (hheld a hai).mp ha
      have hother : ¬ (t' = t ∧ T.unit a = j) := by
        rintro ⟨rfl, hu⟩
        exact hfree a ha' hka hu
      rw [Timeline.fire_unit_of_ne hai, Timeline.fire_exec_of_ne hai, if_neg hother]
      exact h.held a t' ha' hka
  · rw [FuBank.getElem?_modify] at hu
    by_cases hself : t' = t ∧ j' = j
    · obtain ⟨rfl, rfl⟩ := hself
      refine ⟨i, ⟨?_, hs⟩, hk, Timeline.fire_unit_self⟩
      rw [Timeline.fire_exec_self]
      exact hc
    · -- a unit that was busy before still is, for the same holder
      rw [if_neg hself] at hu
      obtain ⟨a, ha, hka, hua⟩ := h.busy t' j' u hu hb
      have hai : a ≠ i := by
        rintro rfl
        exact ha.1 he
      exact ⟨a, (hheld a hai).mpr ha, hka, (Timeline.fire_unit_of_ne hai).trans hua⟩

variable (cfg tr) in
/-- An attempt for one instruction changes no other entry. -/
theorem entry_issueOne_of_ne {i a : ℕ} (h : a ≠ i) :
    entry tr (T.issueOne (machine cfg) (workload tr) c i) a = entry tr T a := by
  obtain ⟨e, u, f, hT⟩ := Timeline.issueOne_frame (m := machine cfg) (w := workload tr) (c := c)
    (T := T) i
  have hne := Timeline.issueOne_of_ne (m := machine cfg) (w := workload tr) (c := c) (T := T) h
  rw [hT] at hne ⊢
  have he : e a = T.exec a := hne.1
  have hu : u a = T.unit a := hne.2
  simp only [entry, record, he, hu]
  rfl

variable (cfg tr c) in
theorem entry_foldl_issueOne_of_notMem {a : ℕ} (l : List ℕ) (T : Timeline) (h : a ∉ l) :
    entry tr (l.foldl (Timeline.issueOne (machine cfg) (workload tr) c) T) a = entry tr T a := by
  induction l generalizing T with
  | nil => rfl
  | cons i l ih =>
    have h' := not_or.mp (List.mem_cons.not.mp h)
    rw [List.foldl_cons, ih _ h'.2, entry_issueOne_of_ne cfg tr h'.1]

/-- The test of the loop skips whom the attempt does not start. -/
theorem entry_skip_iff (T : Timeline) (i : ℕ) :
    ((entry tr T i).fired || !(entry tr T i).src0Ready || !(entry tr T i).src1Ready) = true ↔
      T.exec i ≠ 0 ∨ ¬ T.Ready (workload tr) i := by
  rw [ready_iff]
  simp only [entry, Bool.or_eq_true, decide_eq_true_eq, Bool.not_eq_true', ← Bool.not_eq_true]
  tauto

/-- What the loop stores for an instruction it starts. -/
theorem entry_fire (hc : c ≠ 0) {i j : ℕ} {t : FuType} (hk : (workload tr).kind i = some t) :
    { entry tr T i with
      fired := true
      fuIndex := some j
      fuType := some t
      instruction := { (entry tr T i).instruction with execCycle := c } } =
        entry tr (T.fire c i j) i := by
  have hx := Timeline.fire_exec_self (T := T) (c := c) (i := i) (j := j)
  refine ScheduleEntry.ext ?_ rfl ?_ ?_ ?_ rfl rfl rfl rfl rfl rfl
  · simp only [entry, record, hx]
    rfl
  · simp [entry, hc]
  · simp [entry, hc]
  · simp [entry, hc, hk]

/-- One turn of the loop of `execute_phase`. -/
theorem executeEntry_rep (h : BankRep tr cfg c T b) (hc : c ≠ 0) (hw : HoldersInWindow T) {i : ℕ}
    (hi : T.exec i = 0 → T.state i = 0) :
    ∃ b' fired, executeEntry c (entry tr T i) b =
        (entry tr (T.issueOne (machine cfg) (workload tr) c i) i, b', fired) ∧
      BankRep tr cfg c (T.issueOne (machine cfg) (workload tr) c i) b' ∧
      (T.issueOne (machine cfg) (workload tr) c i).fired = T.fired + if fired then 1 else 0 := by
  rw [executeEntry, Timeline.issueOne]
  by_cases hb : T.exec i ≠ 0 ∨ ¬ T.Ready (workload tr) i
  · rw [if_pos ((entry_skip_iff T i).mpr hb), if_pos hb]
    exact ⟨b, false, rfl, h, rfl⟩
  · rw [if_neg (mt (entry_skip_iff T i).mp hb), if_neg hb]
    have hkind : getFuUnits (entry tr T i).instruction.opCode = (workload tr).kind i := rfl
    rw [hkind]
    cases hk : (workload tr).kind i with
    | none => exact ⟨b, false, rfl, h, rfl⟩
    | some t =>
      simp only [h.findFree hw t]
      cases hf : T.freeUnit? (machine cfg) (workload tr) t with
      | none => exact ⟨b, false, rfl, h, rfl⟩
      | some j =>
        obtain ⟨hj, hfree⟩ := Timeline.freeUnit?_some hf
        have he : T.exec i = 0 := not_not.mp (not_or.mp hb).1
        exact ⟨_, true, Prod.ext (entry_fire hc hk) rfl,
          h.fire hc he (hi he) hk hj fun a ha => hfree a (hw a ha) ha, rfl⟩

theorem HoldersInWindow.issueOne (hw : HoldersInWindow T) {i : ℕ} (hi : i ∈ T.window) :
    HoldersInWindow (T.issueOne (machine cfg) (workload tr) c i) := by
  intro a ha
  rw [Timeline.issueOne_window]
  by_cases hai : a = i
  · rw [hai]
    exact hi
  · rw [Timeline.Held, (Timeline.issueOne_of_ne hai).1, Timeline.issueOne_state] at ha
    exact hw a ha

theorem executeLoop_rep (hc : c ≠ 0) (l : List ℕ) (T : Timeline) (b : FuBank)
    (h : BankRep tr cfg c T b) (hw : HoldersInWindow T) (hnd : l.Nodup)
    (hl : ∀ i ∈ l, i ∈ T.window ∧ (T.exec i = 0 → T.state i = 0)) :
    ∃ b' n, executeLoop c (l.map (entry tr T)) b =
        (l.map (entry tr (l.foldl (Timeline.issueOne (machine cfg) (workload tr) c) T)), b', n) ∧
      BankRep tr cfg c (l.foldl (Timeline.issueOne (machine cfg) (workload tr) c) T) b' ∧
      (l.foldl (Timeline.issueOne (machine cfg) (workload tr) c) T).fired = T.fired + n := by
  induction l generalizing T b with
  | nil => exact ⟨b, 0, rfl, h, rfl⟩
  | cons i l ih =>
    have hnd' := List.nodup_cons.mp hnd
    obtain ⟨hi, hstart⟩ := hl i (List.mem_cons_self ..)
    obtain ⟨b₁, f, hone, hb₁, hf⟩ := executeEntry_rep h hc hw hstart
    have hw₁ : HoldersInWindow (T.issueOne (machine cfg) (workload tr) c i) := hw.issueOne hi
    -- nobody but `i` is touched by its attempt
    have hne : ∀ a ∈ l, a ≠ i := fun a ha e => hnd'.1 (e ▸ ha)
    have htail : l.map (entry tr T) =
        l.map (entry tr (T.issueOne (machine cfg) (workload tr) c i)) :=
      List.map_congr_left fun a ha => (entry_issueOne_of_ne cfg tr (hne a ha)).symm
    have hl₁ : ∀ a ∈ l, a ∈ (T.issueOne (machine cfg) (workload tr) c i).window ∧
        ((T.issueOne (machine cfg) (workload tr) c i).exec a = 0 →
          (T.issueOne (machine cfg) (workload tr) c i).state a = 0) := by
      intro a ha
      rw [Timeline.issueOne_window, Timeline.issueOne_state,
        (Timeline.issueOne_of_ne (hne a ha)).1]
      exact hl a (List.mem_cons_of_mem _ ha)
    obtain ⟨b₂, n, hloop, hb₂, hn⟩ := ih _ b₁ hb₁ hw₁ hnd'.2 hl₁
    refine ⟨b₂, (if f then 1 else 0) + n, ?_, hb₂, ?_⟩
    · have hhead := entry_foldl_issueOne_of_notMem cfg tr c l
        (T.issueOne (machine cfg) (workload tr) c i) hnd'.1
      rw [List.map_cons, executeLoop, hone]
      simp only
      rw [htail, hloop, List.map_cons, List.foldl_cons, hhead]
    · rw [List.foldl_cons, hn, hf, Nat.add_assoc]

section ExecutePhase

variable {m : Machine FuType} {w : Workload FuType}

/-- The scan of the window leaves the records of all other tags. -/
theorem record_issue_of_notMem (i : ℕ) (hi : i ∉ T.window) :
    record tr (T.issue (machine cfg) (workload tr) c) i = record tr T i :=
  congrArg ScheduleEntry.instruction (entry_foldl_issueOne_of_notMem cfg tr c T.window T hi)

/-- And of those that have started. -/
theorem record_issue_of_started (i : ℕ) (hi : T.exec i ≠ 0) :
    record tr (T.issue (machine cfg) (workload tr) c) i = record tr T i := by
  have hx : (T.issue (machine cfg) (workload tr) c).exec i = T.exec i := by
    rcases Timeline.foldl_issueOne_exec (m := machine cfg) (w := workload tr) (c := c) i
      T.window T with hx | ⟨h0, -⟩
    · exact hx
    · exact absurd h0 hi
  obtain ⟨e, u, f, hT⟩ := Timeline.issue_frame (machine cfg) (workload tr) c T
  rw [hT] at hx ⊢
  have hx' : e i = T.exec i := hx
  simp only [record, hx']

theorem holdersInWindow (hinv : T.Inv m w c) : HoldersInWindow T := by
  intro i hi
  have he := hinv.exec_sched i hi.1
  exact (hinv.window_mem i).mpr ⟨⟨he.1, he.2.1⟩, Or.inl hi.2⟩

/-- `execute_phase` of cycle `c` refines the issue step. -/
theorem executePhase_rep (hinv : T.Inv m w c) (h : Rep tr cfg c T s) (hcyc : s.cycleCount = c)
    (hc : c ≠ 0) : Rep tr cfg c (T.issue (machine cfg) (workload tr) c) (executePhase s) := by
  have hstart : ∀ i, T.exec i = 0 → T.state i = 0 := by
    intro i he
    by_contra hs
    exact (hinv.state_exec i hs).1 he
  obtain ⟨b', n, hloop, hbank, hfired⟩ := executeLoop_rep hc T.window T s.units h.units
    (holdersInWindow hinv) hinv.window_nodup fun i hi => ⟨hi, hstart i⟩
  have hphase : executePhase s = { s with
      scheduleQueue := T.window.map (entry tr (T.issue (machine cfg) (workload tr) c))
      units := b'
      totalInstFired := s.totalInstFired + n } := by
    rw [executePhase, hcyc, h.scheduleQueue, hloop]
    rfl
  have hrec := @record_issue_of_notMem cfg tr c T
  have hdone := @record_issue_of_started cfg tr c T
  rw [hphase]
  change BankRep tr cfg c (T.issue (machine cfg) (workload tr) c) b' at hbank
  change (T.issue (machine cfg) (workload tr) c).fired = T.fired + n at hfired
  -- of the timeline only starts, units and their number change
  obtain ⟨e, u, f, hT⟩ := Timeline.issue_frame (machine cfg) (workload tr) c T
  rw [hT] at hrec hdone hfired hbank ⊢
  exact { h with
    fetchQueue := by
      refine records_congr hrec (fun i hi hin => ?_) h.fetchQueue
      have hi' : T.dispatched + 1 ≤ i ∧ _ := List.mem_range'_1.mp hi
      have := (hinv.window_mem i).mp hin
      have := hinv.scheduled_le
      omega
    dispatchQueue := by
      refine records_congr hrec (fun i hi hin => ?_) h.dispatchQueue
      have hi' : T.scheduled + 1 ≤ i ∧ _ := List.mem_range'_1.mp hi
      have := (hinv.window_mem i).mp hin
      omega
    scheduleQueue := rfl
    completedInstructions := by
      refine records_congr hdone (fun i hi => ?_) h.completedInstructions
      exact (hinv.state_exec i ((hinv.announced_mem i).mp hi).1).1
    units := hbank
    registerTag := ⟨h.registerTag.length, h.registerTag.tag⟩
    totalInstFired := by
      change s.totalInstFired + n = f
      rw [h.totalInstFired, ← hfired] }

end ExecutePhase

end Procsim
