import Ece116c.Procsim.State
import Ece116c.Lib.Lists

/-! The five phases of a cycle (`procsim.cpp`), each a function of the globals.

    Loops over a container are recursions over the list; the lambdas keep their C++ names. The
    searches `find_if` by tag are `updateFirst`, `find?` and `eraseP` on `e.tag == tag`. -/

namespace Procsim
open Lists

variable (cfg : Config)

/-! ### fetch, dispatch, schedule -/

/-- What `fetch_phase` stores for a line it has read. -/
def fetchedInst (t : TraceInst) (num cycle : ℕ) : ProcInst :=
  { toTraceInst := t, instNum := num, fetchCycle := cycle, dispCycle := 0, schedCycle := 0,
    execCycle := 0, stateCycle := 0 }

/-- The `for` loop of `fetch_phase`; an empty input is `read_instruction` returning `false`. -/
def fetchLoop : ℕ → Proc → Proc
  | 0, s => s
  | i + 1, s =>
    match s.input with
    | [] => { s with fetchComplete := true }
    | t :: rest =>
      fetchLoop i { s with
        input := rest
        nextTag := s.nextTag + 1
        fetchQueue := s.fetchQueue ++ [fetchedInst t s.nextTag s.cycleCount] }

def fetchPhase (s : Proc) : Proc :=
  if s.fetchComplete then s else fetchLoop cfg.f s

def dispatchPhase (s : Proc) : Proc :=
  { s with
    dispatchQueue :=
      s.dispatchQueue ++ s.fetchQueue.map (fun i => { i with dispCycle := s.cycleCount })
    fetchQueue := [] }

/-- `register_tag[reg]`. A register outside the 128 places is undefined behaviour in the source: the
    results ask for a `ValidTrace`, and the whole program, `procsim`, is `none` there. -/
def regTag (registerTag : List ℕ) (reg : ℤ) : ℕ := registerTag.getD reg.toNat 0

def srcReadyOf (registerTag : List ℕ) (reg : ℤ) : Bool := reg == -1 || regTag registerTag reg == 0

def srcTagOf (registerTag : List ℕ) (reg : ℤ) : ℕ :=
  if srcReadyOf registerTag reg || reg == -1 then 0 else regTag registerTag reg

/-- The entry `schedule_phase` builds for the instruction at the head of the dispatch queue. -/
def newEntry (registerTag : List ℕ) (cycle : ℕ) (i : ProcInst) : ScheduleEntry where
  instruction := { i with schedCycle := cycle }
  tag := i.instNum
  fired := false
  fuIndex := none
  fuType := none
  broadcast := false
  onResultBus := false
  src0Ready := srcReadyOf registerTag i.srcReg0
  src0Tag := srcTagOf registerTag i.srcReg0
  src1Ready := srcReadyOf registerTag i.srcReg1
  src1Tag := srcTagOf registerTag i.srcReg1

/-- `register_tag[dest_reg] = tag`, nothing when there is no destination. -/
def claimDest (registerTag : List ℕ) (i : ProcInst) (tag : ℕ) : List ℕ :=
  if i.destReg ≠ -1 then registerTag.set i.destReg.toNat tag else registerTag

/-- One turn of the `while` loop of `schedule_phase`. -/
def scheduleInst (i : ProcInst) (s : Proc) : Proc :=
  let entry := newEntry s.registerTag s.cycleCount i
  { s with
    registerTag := claimDest s.registerTag i entry.tag
    scheduleQueue := s.scheduleQueue ++ [entry] }

/-- The `while` loop of `schedule_phase`; the list is the dispatch queue it erases from. -/
def scheduleLoop : List ProcInst → Proc → Proc
  | [], s => s
  | i :: rest, s =>
    if s.scheduleQueue.length < cfg.scheduleQueueSize then
      scheduleLoop rest (scheduleInst i { s with dispatchQueue := rest })
    else s

def schedulePhase (s : Proc) : Proc :=
  if cfg.scheduleQueueSize ≤ s.scheduleQueue.length then s
  else scheduleLoop cfg s.dispatchQueue s

/-! ### execute -/

/-- The body of the loop of `execute_phase` on one entry: the entry, the units and whether it
    fired. -/
def executeEntry (cycle : ℕ) (e : ScheduleEntry) (b : FuBank) : ScheduleEntry × FuBank × Bool :=
  if e.fired || !e.src0Ready || !e.src1Ready then (e, b, false)
  else match getFuUnits e.instruction.opCode with
    | none => (e, b, false)
    | some t =>
      match (b.get t).findIdx? (fun u => !u.busy) with
      | none => (e, b, false)
      | some j =>
        ({ e with
            fired := true
            fuIndex := some j
            fuType := some t
            instruction := { e.instruction with execCycle := cycle } },
          b.set ((b.get t).set j ⟨true, 1, e.tag⟩) t, true)

/-- The loop of `execute_phase` over the schedule queue, counting the instructions fired. -/
def executeLoop (cycle : ℕ) : List ScheduleEntry → FuBank → List ScheduleEntry × FuBank × ℕ
  | [], b => ([], b, 0)
  | e :: rest, b =>
    let one := executeEntry cycle e b
    let more := executeLoop cycle rest one.2.1
    (one.1 :: more.1, more.2.1, (if one.2.2 then 1 else 0) + more.2.2)

def executePhase (s : Proc) : Proc :=
  let out := executeLoop s.cycleCount s.scheduleQueue s.units
  { s with
    scheduleQueue := out.1
    units := out.2.1
    totalInstFired := s.totalInstFired + out.2.2 }

/-! ### state update -/

/-- Retire phase 1, `remove_if` over the retired queue: the tags kept and the schedule queue
    left. -/
def removeRetired : List ℕ → List ScheduleEntry → List ℕ × List ScheduleEntry
  | [], sq => ([], sq)
  | tag :: rest, sq =>
    match sq.find? (fun e => e.tag == tag) with
    | some _ => removeRetired rest (sq.eraseP (fun e => e.tag == tag))
    | none =>
      let out := removeRetired rest sq
      (tag :: out.1, out.2)

def retirePhase1 (s : Proc) : Proc :=
  let out := removeRetired s.retiredQueue s.scheduleQueue
  { s with retiredQueue := out.1, scheduleQueue := out.2 }

/-- The clear of `register_tag` when its last writer retires. -/
def clearDest (registerTag : List ℕ) (i : ProcInst) (tag : ℕ) : List ℕ :=
  if i.destReg ≠ -1 ∧ regTag registerTag i.destReg = tag then
    registerTag.set i.destReg.toNat 0
  else registerTag

/-- The wakeup of one reservation entry by a broadcast tag. -/
def wakeup (tag : ℕ) (rs : ScheduleEntry) : ScheduleEntry :=
  let hit0 := !rs.src0Ready && rs.src0Tag == tag
  let hit1 := !rs.src1Ready && rs.src1Tag == tag
  { rs with
    src0Ready := if hit0 then true else rs.src0Ready
    src0Tag := if hit0 then 0 else rs.src0Tag
    src1Ready := if hit1 then true else rs.src1Ready
    src1Tag := if hit1 then 0 else rs.src1Tag }

/-- Retire phase 2 for the tag popped from the bus; a tag that is not found is skipped. -/
def broadcastTag (tag : ℕ) (s : Proc) : Proc :=
  match s.scheduleQueue.find? (fun e => e.tag == tag) with
  | none => s
  | some e =>
    { s with
      totalInstRetired := s.totalInstRetired + 1
      completedInstructions := s.completedInstructions ++ [e.instruction]
      retiredQueue := s.retiredQueue ++ [tag]
      registerTag := clearDest s.registerTag e.instruction tag
      scheduleQueue :=
        (updateFirst (fun e => e.tag == tag) (fun e => { e with broadcast := true })
          s.scheduleQueue).map (wakeup tag) }

/-- The loop of retire phase 2, `num_to_retire` turns. -/
def broadcastLoop : ℕ → Proc → Proc
  | 0, s => s
  | i + 1, s =>
    match s.resultBusQueue with
    | [] => s
    | tag :: rest => broadcastLoop i (broadcastTag tag { s with resultBusQueue := rest })

def retirePhase2 (s : Proc) : Proc :=
  broadcastLoop (min cfg.r s.resultBusQueue.length) s

def decrementFu (units : List FunctionalUnit) : List FunctionalUnit :=
  units.map (fun u => if u.busy && 0 < u.cycles then { u with cycles := u.cycles - 1 } else u)

def decrementPhase (s : Proc) : Proc :=
  { s with units :=
      ⟨decrementFu s.units.k0Units, decrementFu s.units.k1Units, decrementFu s.units.k2Units⟩ }

/-- `std::sort` of the schedule queue by tag. -/
def sortPhase (s : Proc) : Proc :=
  { s with scheduleQueue := s.scheduleQueue.insertionSort (fun a b => a.tag ≤ b.tag) }

/-- The unit an entry names, if the entry's indices are inside the arrays. -/
def entryUnit (b : FuBank) (e : ScheduleEntry) : Option FunctionalUnit :=
  match e.fuType, e.fuIndex with
  | some t, some j => (b.get t)[j]?
  | _, _ => none

/-- The test of the collect loop. -/
def justCompleted (b : FuBank) (e : ScheduleEntry) : Bool :=
  e.fired && !e.broadcast && !e.onResultBus &&
    match entryUnit b e with
    | some fu => fu.busy && fu.currentTag == e.tag && fu.cycles == 0
    | none => false

/-- Collect the newly completed instructions and push their sorted tags on the bus. -/
def collectPhase (s : Proc) : Proc :=
  let newlyCompletedTags := (s.scheduleQueue.filter (justCompleted s.units)).map (·.tag)
  { s with
    scheduleQueue := s.scheduleQueue.map
      (fun e => if justCompleted s.units e then { e with onResultBus := true } else e)
    resultBusQueue := s.resultBusQueue ++ newlyCompletedTags.insertionSort (· ≤ ·) }

/-- `busy = false; cycles = 0` for the unit an entry names. -/
def freeUnit (b : FuBank) (e : ScheduleEntry) : FuBank :=
  match e.fuType, e.fuIndex with
  | some t, some j =>
    b.set ((b.get t).modify j (fun u => { u with busy := false, cycles := 0 })) t
  | _, _ => b

/-- The test of the stamp loop. -/
def unstamped (tag : ℕ) (e : ScheduleEntry) : Bool := e.tag == tag && e.instruction.stateCycle == 0

/-- Stamp the instruction of a tag with the current cycle and free its unit. -/
def assignState (s : Proc) (tag : ℕ) : Proc :=
  match s.scheduleQueue.find? (unstamped tag) with
  | none => s
  | some e =>
    { s with
      scheduleQueue := updateFirst (unstamped tag)
        (fun e => { e with instruction := { e.instruction with stateCycle := s.cycleCount } })
        s.scheduleQueue
      units := freeUnit s.units e }

/-- The stamp loop over the first `num_to_state` tags on the bus. -/
def assignPhase (s : Proc) : Proc :=
  (s.resultBusQueue.take (min s.resultBusQueue.length cfg.r)).foldl assignState s

def stateUpdatePhase (s : Proc) : Proc :=
  assignPhase cfg (collectPhase (sortPhase (decrementPhase (retirePhase2 cfg (retirePhase1 s)))))

end Procsim
