import Ece116c.Procsim.Phases
import Ece116c.Procsim.Workload
import Ece116c.Window.Invariant

/-! How the globals of the code show a timeline of the abstract machine.

    `record` and `entry` are what the code stores for a tag, read off the timeline; the ready bits
    and source tags come from the producers, the scoreboard from the last scheduled writers. `Rep`
    says that all the globals are these views. -/

namespace Procsim
open Window

variable (tr : List TraceInst)

/-- The `proc_inst_t` of tag `i`. -/
def record (T : Timeline) (i : ℕ) : ProcInst :=
  { toTraceInst := inst tr i, instNum := i, fetchCycle := T.fetch i, dispCycle := T.disp i,
    schedCycle := T.sched i, execCycle := T.exec i, stateCycle := T.state i }

/-- Source `s` of instruction `i` waits for nobody any more. -/
def srcDone (T : Timeline) (s : Fin 2) (i : ℕ) : Bool :=
  decide (producer tr s i = 0 ∨ producer tr s i ∈ T.announced)

/-- The tag source `s` still waits for. -/
def srcWait (T : Timeline) (s : Fin 2) (i : ℕ) : ℕ :=
  if srcDone tr T s i then 0 else producer tr s i

/-- The schedule-queue entry of tag `i`. -/
def entry (T : Timeline) (i : ℕ) : ScheduleEntry where
  instruction := record tr T i
  tag := i
  fired := decide (T.exec i ≠ 0)
  fuIndex := if T.exec i ≠ 0 then some (T.unit i) else none
  fuType := if T.exec i ≠ 0 then (workload tr).kind i else none
  broadcast := decide (i ∈ T.announced)
  onResultBus := decide (i ∈ T.announced ∨ i ∈ T.bus)
  src0Ready := srcDone tr T 0 i
  src0Tag := srcWait tr T 0 i
  src1Ready := srcDone tr T 1 i
  src1Tag := srcWait tr T 1 i

theorem entry_srcReady (T : Timeline) (i : ℕ) : ∀ s, (entry tr T i).srcReady s = srcDone tr T s i
  | 0 => rfl
  | 1 => rfl

theorem entry_srcTag (T : Timeline) (i : ℕ) : ∀ s, (entry tr T i).srcTag s = srcWait tr T s i
  | 0 => rfl
  | 1 => rfl

/-- The units show who holds them; a unit taken in cycle `c` still counts one cycle. -/
structure BankRep (cfg : Config) (c : ℕ) (T : Timeline) (b : FuBank) : Prop where
  length : ∀ t, (b.get t).length = cfg.k t
  held : ∀ i t, T.Held i → (workload tr).kind i = some t →
    (b.get t)[T.unit i]? = some ⟨true, if T.exec i = c then 1 else 0, i⟩
  busy : ∀ t j (u : FunctionalUnit), (b.get t)[j]? = some u → u.busy = true →
    ∃ i, T.Held i ∧ (workload tr).kind i = some t ∧ T.unit i = j

/-- The scoreboard entry of register `x`: its last scheduled writer until that is announced. -/
def pendingWriter (T : Timeline) (x : ℤ) : ℕ :=
  if lastWriter tr x T.scheduled ∈ T.announced then 0 else lastWriter tr x T.scheduled

structure RegRep (T : Timeline) (registerTag : List ℕ) : Prop where
  length : registerTag.length = 128
  tag : ∀ x : ℤ, 0 ≤ x → x < 128 → regTag registerTag x = pendingWriter tr T x

/-- All globals but `cycle_count` are the views of the timeline `T`, whose last update was in
    cycle `c`. -/
structure Rep (cfg : Config) (c : ℕ) (T : Timeline) (s : Proc) : Prop where
  input : s.input = tr.drop T.fetched
  nextTag : s.nextTag = T.fetched + 1
  fetchComplete : s.fetchComplete = T.eof
  fetchQueue : s.fetchQueue =
    (List.range' (T.dispatched + 1) (T.fetched - T.dispatched)).map (record tr T)
  dispatchQueue : s.dispatchQueue =
    (List.range' (T.scheduled + 1) (T.dispatched - T.scheduled)).map (record tr T)
  scheduleQueue : s.scheduleQueue = T.window.map (entry tr T)
  resultBusQueue : s.resultBusQueue = T.bus
  retiredQueue : s.retiredQueue = T.leaving
  completedInstructions : s.completedInstructions = T.announced.map (record tr T)
  units : BankRep tr cfg c T s.units
  registerTag : RegRep tr T s.registerTag
  totalInstFired : s.totalInstFired = T.fired
  totalInstRetired : s.totalInstRetired = T.announced.length
  totalDispatchSize : s.totalDispatchSize = T.waitSum
  maxDispatchSize : s.maxDispatchSize = T.waitMax

section Congr

variable {tr} {T T' : Timeline} {P : ℕ → Prop} {l : List ℕ}

/-- A queue shows any timeline that keeps the records of its tags. -/
theorem records_congr (hrec : ∀ i, P i → record tr T' i = record tr T i) (hl : ∀ i ∈ l, P i)
    {q : List ProcInst} (h : q = l.map (record tr T)) : q = l.map (record tr T') :=
  h.trans (List.map_congr_left fun i hi => (hrec i (hl i hi)).symm)

/-- So does a schedule queue when starts, units, bus and announcements are the same. -/
theorem entries_congr (hrec : ∀ i, P i → record tr T' i = record tr T i) (hl : ∀ i ∈ l, P i)
    (hx : T'.exec = T.exec) (hu : T'.unit = T.unit) (ha : T'.announced = T.announced)
    (hb : T'.bus = T.bus) {q : List ScheduleEntry} (h : q = l.map (entry tr T)) :
    q = l.map (entry tr T') := by
  refine h.trans (List.map_congr_left fun i hi => ?_)
  unfold entry srcWait srcDone
  rw [hrec i (hl i hi), hx, hu, ha, hb]

end Congr

theorem getElem?_initFu {n j : ℕ} {u : FunctionalUnit} (h : (initFu n)[j]? = some u) :
    u = ⟨false, 0, 0⟩ := by
  rw [initFu, List.getElem?_replicate] at h
  split at h
  · exact (Option.some.inj h).symm
  · cases h

/-- `setup_proc` shows the empty timeline. -/
theorem setupProc_rep (cfg : Config) : Rep tr cfg 0 Timeline.start (setupProc cfg tr) where
  input := rfl
  nextTag := rfl
  fetchComplete := rfl
  fetchQueue := rfl
  dispatchQueue := rfl
  scheduleQueue := rfl
  resultBusQueue := rfl
  retiredQueue := rfl
  completedInstructions := rfl
  units := by
    refine ⟨fun t => ?_, fun i t hi => absurd rfl hi.1, fun t j u hu hb => ?_⟩
    · cases t <;> exact List.length_replicate
    · have hinit : ((setupProc cfg tr).units.get t) = initFu (cfg.k t) := by cases t <;> rfl
      rw [hinit] at hu
      rw [getElem?_initFu hu] at hb
      cases hb
  registerTag := by
    refine ⟨List.length_replicate, fun x h0 h1 => ?_⟩
    have hx : (List.replicate 128 0).getD x.toNat 0 = 0 := by
      rw [List.getD_eq_getElem?_getD, List.getElem?_replicate]
      split <;> rfl
    exact hx
  totalInstFired := rfl
  totalInstRetired := rfl
  totalDispatchSize := rfl
  maxDispatchSize := rfl

end Procsim
