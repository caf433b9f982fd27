import Ece116c.Procsim.Liveness
import Ece116c.Window.History
import Mathlib.Data.Set.Function

/-! Functional units are exclusive: at every phase boundary `current_tag` maps the busy units one
    to one onto the entries that are executing or wait for a bus. -/

namespace Procsim
open Window Lists

/-- The busy units, by type and index. -/
def Proc.busyUnits (s : Proc) : Set (FuType × ℕ) :=
  {q | ∃ u, (s.units.get q.1)[q.2]? = some u ∧ u.busy = true}

/-- The entries that have fired and have no state cycle yet. -/
def Proc.inFlight (s : Proc) : Set ScheduleEntry :=
  {e | e ∈ s.scheduleQueue ∧ e.fired = true ∧ e.instruction.stateCycle = 0}

/-- The entry whose tag is the `current_tag` of a unit. -/
def Proc.currentEntry (s : Proc) (q : FuType × ℕ) : Option ScheduleEntry :=
  (s.units.get q.1)[q.2]?.bind fun u => s.scheduleQueue.find? fun e => e.tag == u.currentTag

/-- What holds of units, entries and bus at a phase boundary. -/
structure UnitsMatch (cfg : Config) (s : Proc) : Prop where
  tags_nodup : (s.scheduleQueue.map (·.tag)).Nodup
  current_tag : Set.BijOn s.currentEntry s.busyUnits (Set.image some s.inFlight)
  named : ∀ q ∈ s.busyUnits, ∀ e, s.currentEntry q = some e → e.fuType = some q.1 ∧
    e.fuIndex = some q.2 ∧ getFuUnits e.instruction.opCode = some q.1
  on_bus : ∀ tag ∈ s.resultBusQueue, ∃ e ∈ s.scheduleQueue, e.tag = tag ∧
    e.onResultBus = true ∧ e.broadcast = false
  bus_length : s.resultBusQueue.length ≤ cfg.k0 + cfg.k1 + cfg.k2
  not_left : ∀ i ∈ s.completedInstructions, ∀ t, ∀ u ∈ s.units.get t, u.busy = true →
    u.currentTag ≠ i.instNum

section Boundary

variable {cfg : Config} {tr : List TraceInst} {c : ℕ} {T : Timeline} {s : Proc}

/-- A busy unit shows its holder. -/
theorem Rep.busy_holder (h : Rep tr cfg c T s) {t : FuType} {j : ℕ} {u : FunctionalUnit}
    (hu : (s.units.get t)[j]? = some u) (hb : u.busy = true) :
    u.currentTag ∈ {i | T.Held i ∧ (workload tr).kind i = some t ∧ T.unit i = j} := by
  obtain ⟨i, hh, hk, rfl⟩ := h.units.busy t j u hu hb
  have hheld := h.units.held i t hh hk
  rw [hu, Option.some.injEq] at hheld
  rw [hheld]
  exact ⟨hh, hk, rfl⟩

variable {m : Machine FuType}

theorem held_window (hinv : T.Inv m (workload tr) c) {i : ℕ} (hh : T.Held i) : i ∈ T.window :=
  have hx := hinv.exec_sched i hh.1
  (hinv.window_mem i).mpr ⟨⟨hx.1, hx.2.1⟩, Or.inl hh.2⟩

theorem Rep.mem_busyUnits (h : Rep tr cfg c T s) (hinv : T.Inv m (workload tr) c)
    (q : FuType × ℕ) : q ∈ s.busyUnits ↔ ∃ i, T.Held i ∧ (workload tr).kind i = some q.1 ∧
      T.unit i = q.2 ∧ s.currentEntry q = some (entry tr T i) := by
  constructor
  · rintro ⟨u, hu, hb⟩
    obtain ⟨hh, hk, hj⟩ := h.busy_holder hu hb
    refine ⟨u.currentTag, hh, hk, hj, ?_⟩
    rw [Proc.currentEntry, hu]
    exact h.find_tag (held_window hinv hh)
  · rintro ⟨i, hh, hk, hj, -⟩
    have hheld := h.units.held i q.1 hh hk
    rw [hj] at hheld
    exact ⟨_, hheld, rfl⟩

/-- The holder of a unit is found through the unit. -/
theorem Rep.currentEntry_held (h : Rep tr cfg c T s) (hinv : T.Inv m (workload tr) c) {i : ℕ}
    {t : FuType} (hh : T.Held i) (hk : (workload tr).kind i = some t) :
    s.currentEntry (t, T.unit i) = some (entry tr T i) := by
  rw [Proc.currentEntry, h.units.held i t hh hk]
  exact h.find_tag (held_window hinv hh)

theorem Rep.mem_inFlight (h : Rep tr cfg c T s) (hinv : T.Inv m (workload tr) c)
    (e : ScheduleEntry) : e ∈ s.inFlight ↔ ∃ i, T.Held i ∧ e = entry tr T i := by
  constructor
  · rintro ⟨he, hf, hs⟩
    rw [h.scheduleQueue] at he
    obtain ⟨i, -, rfl⟩ := List.mem_map.mp he
    exact ⟨i, ⟨of_decide_eq_true hf, hs⟩, rfl⟩
  · rintro ⟨i, hh, rfl⟩
    refine ⟨?_, decide_eq_true hh.1, hh.2⟩
    rw [h.scheduleQueue]
    exact List.mem_map_of_mem (held_window hinv hh)

theorem Rep.bijOn (h : Rep tr cfg c T s) (hinv : T.Inv m (workload tr) c) :
    Set.BijOn s.currentEntry s.busyUnits (Set.image some s.inFlight) := by
  refine ⟨?_, ?_, ?_⟩
  · intro q hq
    obtain ⟨i, hh, -, -, he⟩ := (h.mem_busyUnits hinv q).mp hq
    exact ⟨entry tr T i, (h.mem_inFlight hinv _).mpr ⟨i, hh, rfl⟩, he.symm⟩
  · rintro ⟨t, j⟩ hq ⟨t', j'⟩ hq' heq
    obtain ⟨i, -, hk, hj, he⟩ := (h.mem_busyUnits hinv _).mp hq
    obtain ⟨i', -, hk', hj', he'⟩ := (h.mem_busyUnits hinv _).mp hq'
    rw [he, he', Option.some.injEq] at heq
    obtain rfl : i = i' := congrArg ScheduleEntry.tag heq
    exact Prod.ext (Option.some.inj (hk.symm.trans hk')) (hj.symm.trans hj')
  · rintro _ ⟨e, he, rfl⟩
    obtain ⟨i, hh, rfl⟩ := (h.mem_inFlight hinv e).mp he
    obtain ⟨t, hk, -⟩ := hinv.kind_unit i hh.1
    have hcur := h.currentEntry_held hinv hh hk
    exact ⟨(t, T.unit i), (h.mem_busyUnits hinv _).mpr ⟨i, hh, hk, rfl, hcur⟩, hcur⟩

/-- At most one bus place a unit: everybody on the bus held a unit when it lined up. -/
theorem length_eq_kinds {w : Workload FuType} (l : List ℕ) (h : ∀ i ∈ l, ∃ t, w.kind i = some t) :
    l.length = (l.filter fun i => decide (w.kind i = some .k0)).length +
      (l.filter fun i => decide (w.kind i = some .k1)).length +
        (l.filter fun i => decide (w.kind i = some .k2)).length := by
  induction l with
  | nil => rfl
  | cons i l ih =>
    have hl := ih fun a ha => h a (List.mem_cons_of_mem _ ha)
    obtain ⟨t, ht⟩ := h i (List.mem_cons_self ..)
    cases t <;> simp [ht] <;> omega

theorem nextBus_length_le (hinv : T.Inv (machine cfg) (workload tr) c) :
    (T.nextBus (machine cfg)).length ≤ cfg.k0 + cfg.k1 + cfg.k2 := by
  have hnd : (T.nextBus (machine cfg)).Nodup := hinv.update.bus_nodup
  have hkind : ∀ t, ((T.nextBus (machine cfg)).filter fun i =>
      decide ((workload tr).kind i = some t)).length ≤ cfg.k t := by
    intro t
    refine le_trans (List.subperm_of_subset (hnd.filter _) fun i hi => ?_).length_le
      (hinv.holders_length_le t)
    rw [List.mem_filter, hinv.mem_nextBus, decide_eq_true_eq] at hi
    exact hinv.mem_holders.mpr hi
  have hlen := length_eq_kinds (w := workload tr) (T.nextBus (machine cfg)) fun i hi => by
    obtain ⟨t, hk, -⟩ := hinv.kind_unit i ((hinv.mem_nextBus i).mp hi).1
    exact ⟨t, hk⟩
  have h0 := hkind .k0
  have h1 := hkind .k1
  have h2 := hkind .k2
  simp only [Config.k] at h0 h1 h2
  omega

/-- The views of a timeline match when its bus is short enough. -/
theorem Rep.unitsMatch (h : Rep tr cfg c T s) (hinv : T.Inv (machine cfg) (workload tr) c)
    (hbus : T.bus.length ≤ cfg.k0 + cfg.k1 + cfg.k2) : UnitsMatch cfg s where
  tags_nodup := by
    have htags : (T.window.map (entry tr T)).map (·.tag) = T.window := by
      rw [List.map_map]
      exact List.map_id _
    rw [h.scheduleQueue, htags]
    exact hinv.window_nodup
  current_tag := h.bijOn hinv
  named := by
    intro q hq e he
    obtain ⟨i, hh, hk, hj, hcur⟩ := (h.mem_busyUnits hinv q).mp hq
    rw [hcur, Option.some.injEq] at he
    subst he
    have htype : (entry tr T i).fuType = (workload tr).kind i := if_pos hh.1
    have hindex : (entry tr T i).fuIndex = some (T.unit i) := if_pos hh.1
    exact ⟨htype.trans hk, hindex.trans (congrArg some hj), hk⟩
  on_bus := by
    intro i hi
    rw [h.resultBusQueue] at hi
    have hb := (hinv.bus_mem i).mp hi
    have hx := hinv.exec_sched i hb.1
    have hwin : i ∈ T.window := (hinv.window_mem i).mpr (by omega)
    have hann : i ∉ T.announced := fun ha => by
      have := (hinv.announced_mem i).mp ha
      omega
    refine ⟨entry tr T i, ?_, rfl, decide_eq_true (Or.inr hi), decide_eq_false hann⟩
    rw [h.scheduleQueue]
    exact List.mem_map_of_mem hwin
  bus_length := by rw [h.resultBusQueue]; exact hbus
  not_left := by
    intro i hi t u hu hb htag
    obtain ⟨n, hst, -, rfl⟩ := (h.mem_completed hinv i).mp hi
    obtain ⟨j, hj, rfl⟩ := List.getElem_of_mem hu
    obtain ⟨hh, -, -⟩ := h.busy_holder (List.getElem?_eq_getElem hj) hb
    rw [htag] at hh
    exact hst hh.2

/-! ### Along a run -/

section Points

variable (cfg tr)

theorem timelineAt_bus (c : ℕ) : ∀ p, (timelineAt cfg tr c p).bus = (timeline cfg tr c).bus ∨
    (timelineAt cfg tr c p).bus = (timeline cfg tr c).nextBus (machine cfg)
  | .ticked => Or.inl rfl
  | .updated => Or.inr rfl
  | .executed | .scheduled | .dispatched | .fetched => Or.inr (Timeline.issue_bus ..)

theorem timeline_bus_length_le (c : ℕ) :
    (timeline cfg tr c).bus.length ≤ cfg.k0 + cfg.k1 + cfg.k2 := by
  cases c with
  | zero => exact Nat.zero_le _
  | succ c =>
    rw [timeline, Timeline.run_succ_bus]
    exact nextBus_length_le (timeline_inv cfg tr c)

/-- Starts and units change only in the execute phase. -/
theorem timelineAt_start (c : ℕ) : ∀ p, ∃ d,
    (timelineAt cfg tr c p).exec = (timeline cfg tr d).exec ∧
      (timelineAt cfg tr c p).unit = (timeline cfg tr d).unit
  | .ticked | .updated => ⟨c, rfl, rfl⟩
  | .executed | .scheduled | .dispatched | .fetched => ⟨c + 1, rfl, rfl⟩

end Points

theorem boundary_unitsMatch (hv : ValidTrace tr) (c : ℕ) (p : Point) :
    UnitsMatch cfg (boundary cfg tr c p) := by
  refine (boundary_rep hv c p).unitsMatch (timelineAt_inv cfg tr c p) ?_
  rcases timelineAt_bus cfg tr c p with hb | hb
  · rw [hb]; exact timeline_bus_length_le cfg tr c
  · rw [hb]; exact nextBus_length_le (timeline_inv cfg tr c)

/-- Some state shows tag `i` on unit `j` of type `t`. -/
def UsedUnit (cfg : Config) (tr : List TraceInst) (i : ℕ) (t : FuType) (j : ℕ) : Prop :=
  ∃ c p, ∃ e ∈ (boundary cfg tr c p).scheduleQueue,
    e.tag = i ∧ e.fuType = some t ∧ e.fuIndex = some j

/-- The unit an instruction used is its unit in every timeline in which it has started. -/
theorem UsedUnit.unit (hv : ValidTrace tr) {i j d : ℕ} {t : FuType} (h : UsedUnit cfg tr i t j)
    (hi : (timeline cfg tr d).exec i ≠ 0) :
    (workload tr).kind i = some t ∧ (timeline cfg tr d).unit i = j := by
  obtain ⟨c, p, e, he, rfl, ht, hj⟩ := h
  rw [(boundary_rep hv c p).scheduleQueue] at he
  obtain ⟨n, -, rfl⟩ := List.mem_map.mp he
  change (timeline cfg tr d).exec n ≠ 0 at hi
  have hexec : (timelineAt cfg tr c p).exec n ≠ 0 := by
    intro h0
    have hnone : (entry tr (timelineAt cfg tr c p) n).fuIndex = none := if_neg (not_not.mpr h0)
    rw [hnone] at hj
    cases hj
  have htype : (entry tr (timelineAt cfg tr c p) n).fuType = (workload tr).kind n := if_pos hexec
  have hindex : (entry tr (timelineAt cfg tr c p) n).fuIndex =
      some ((timelineAt cfg tr c p).unit n) := if_pos hexec
  refine ⟨htype.symm.trans ht, ?_⟩
  obtain ⟨b, hbe, hbu⟩ := timelineAt_start cfg tr c p
  rw [hbe] at hexec
  rw [hbu, hj, Option.some.injEq] at hindex
  rw [hindex]
  rcases Nat.le_total b d with hle | hle
  · exact Timeline.run_unit_stable _ _ hexec hle
  · exact (Timeline.run_unit_stable _ _ hi hle).symm

/-- Instructions that used the same unit have disjoint intervals `[exec_cycle, state_cycle)`. -/
theorem same_unit_disjoint (hv : ValidTrace tr) (d : ℕ) {a b : ProcInst}
    (ha : a ∈ (stateAt cfg tr d).instructions) (hb : b ∈ (stateAt cfg tr d).instructions)
    (hab : a.instNum ≠ b.instNum) {t : FuType} {j : ℕ} (hua : UsedUnit cfg tr a.instNum t j)
    (hub : UsedUnit cfg tr b.instNum t j) (hea : a.execCycle ≠ 0) (heb : b.execCycle ≠ 0) :
    (a.stateCycle ≠ 0 ∧ a.stateCycle ≤ b.execCycle) ∨
      (b.stateCycle ≠ 0 ∧ b.stateCycle ≤ a.execCycle) := by
  have h := stateAt_rep cfg hv d
  have hinv := timeline_inv cfg tr d
  obtain ⟨n, -, -, rfl⟩ := (h.mem_instructions hinv a).mp ha
  obtain ⟨k, -, -, rfl⟩ := (h.mem_instructions hinv b).mp hb
  obtain ⟨hkn, hun⟩ := hua.unit hv hea
  obtain ⟨hkk, huk⟩ := hub.unit hv heb
  exact hinv.exclusive n k hab hea heb (hkn.trans hkk.symm) (hun.trans huk.symm)

/-- At most `k_t` instructions of type `t` are between `exec_cycle` and `state_cycle` at once. -/
theorem executing_count_le (hv : ValidTrace tr) (d c : ℕ) (t : FuType) :
    (stateAt cfg tr d).instructions.countP (fun i => decide (getFuUnits i.opCode = some t ∧
      i.execCycle ≠ 0 ∧ i.execCycle ≤ c ∧ (i.stateCycle = 0 ∨ c < i.stateCycle))) ≤ cfg.k t := by
  have h := stateAt_rep cfg hv d
  have hinv := timeline_inv cfg tr d
  have hsub : (List.range' 1 (timeline cfg tr d).fetched).Sublist (workload tr).ages :=
    List.range'_sublist_right.mpr hinv.fetched_le
  rw [h.instructions, List.countP_map, hinv.located_perm.countP_eq]
  exact (hsub.countP_le).trans (Timeline.executing_le (machine cfg) (workload tr) t)

end Boundary

variable {cfg : Config} {tr : List TraceInst}

/-- Unit exclusivity: units, entries and bus match at every phase boundary, so instructions that
    used one unit have disjoint intervals, and a type never executes more instructions than it has
    units. -/
theorem unit_exclusivity (hv : ValidTrace tr) :
    (∀ c p, UnitsMatch cfg (boundary cfg tr c p)) ∧
    (∀ d, ∀ a ∈ (stateAt cfg tr d).instructions, ∀ b ∈ (stateAt cfg tr d).instructions,
      a.instNum ≠ b.instNum → ∀ t j, UsedUnit cfg tr a.instNum t j → UsedUnit cfg tr b.instNum t j →
        a.execCycle ≠ 0 → b.execCycle ≠ 0 →
          (a.stateCycle ≠ 0 ∧ a.stateCycle ≤ b.execCycle) ∨
            (b.stateCycle ≠ 0 ∧ b.stateCycle ≤ a.execCycle)) ∧
    ∀ d c t, (stateAt cfg tr d).instructions.countP (fun i => decide (getFuUnits i.opCode = some t ∧
      i.execCycle ≠ 0 ∧ i.execCycle ≤ c ∧ (i.stateCycle = 0 ∨ c < i.stateCycle))) ≤ cfg.k t :=
  ⟨boundary_unitsMatch hv,
    fun d _ ha _ hb hab _ _ hua hub => same_unit_disjoint hv d ha hb hab hua hub,
    executing_count_le hv⟩

set_option maxRecDepth 4000 in
/-- Two instructions share the only `k0` unit: the second fires when the first has its bus. -/
theorem unit_exclusivity_shared :
    let tr : List TraceInst := [⟨4, 0, 5, -1, -1⟩, ⟨8, 0, 6, -1, -1⟩]
    let s := boundary ⟨1, 1, 1, 1, 2⟩ tr 4 .executed
    UnitsMatch ⟨1, 1, 1, 1, 2⟩ s ∧ (.k0, 0) ∈ s.busyUnits ∧
      ∃ a ∈ (stateAt ⟨1, 1, 1, 1, 2⟩ tr 7).instructions,
        ∃ b ∈ (stateAt ⟨1, 1, 1, 1, 2⟩ tr 7).instructions, a.instNum = 1 ∧ b.instNum = 2 ∧
          UsedUnit ⟨1, 1, 1, 1, 2⟩ tr 1 .k0 0 ∧ UsedUnit ⟨1, 1, 1, 1, 2⟩ tr 2 .k0 0 ∧
          ((a.stateCycle ≠ 0 ∧ a.stateCycle ≤ b.execCycle) ∨
            (b.stateCycle ≠ 0 ∧ b.stateCycle ≤ a.execCycle)) := by
  intro tr s
  obtain ⟨hmatch, hdisjoint, -⟩ := @unit_exclusivity ⟨1, 1, 1, 1, 2⟩ tr (by decide)
  have ha : ⟨⟨4, 0, 5, -1, -1⟩, 1, 1, 2, 3, 4, 5⟩ ∈
      (stateAt ⟨1, 1, 1, 1, 2⟩ tr 7).instructions := by decide
  have hb : ⟨⟨8, 0, 6, -1, -1⟩, 2, 1, 2, 3, 5, 6⟩ ∈
      (stateAt ⟨1, 1, 1, 1, 2⟩ tr 7).instructions := by decide
  have hua : UsedUnit ⟨1, 1, 1, 1, 2⟩ tr 1 .k0 0 :=
    ⟨3, .executed, ⟨⟨⟨4, 0, 5, -1, -1⟩, 1, 1, 2, 3, 4, 0⟩, 1, true, some 0, some .k0, false, false,
      true, 0, true, 0⟩, by decide, rfl, rfl, rfl⟩
  have hub : UsedUnit ⟨1, 1, 1, 1, 2⟩ tr 2 .k0 0 :=
    ⟨4, .executed, ⟨⟨⟨8, 0, 6, -1, -1⟩, 2, 1, 2, 3, 5, 0⟩, 2, true, some 0, some .k0, false, false,
      true, 0, true, 0⟩, by decide, rfl, rfl, rfl⟩
  exact ⟨hmatch 4 .executed, ⟨⟨true, 1, 2⟩, by decide, rfl⟩, _, ha, _, hb, rfl, rfl, hua, hub,
    hdisjoint 7 _ ha _ hb (by decide) .k0 0 hua hub (by decide) (by decide)⟩

end Procsim
