import Mathlib.Data.List.Range
import Mathlib.Logic.Function.Basic

/-! An abstract out-of-order machine that knows its instructions only by age.

    Instruction `i` (ages start at 1) has a unit kind and the list of older instructions it waits
    for. The front end moves instructions in order; a window of bounded size holds the ones that
    were scheduled; a waiting instruction whose producers have all been announced takes the first
    free unit of its kind, oldest first; a finished instruction holds its unit until it is among
    the first `buses` of one FIFO, is announced a cycle later, and leaves the window after one
    more. There are no registers, no wakeup tags and no per-entry flags: the state is where each
    age is, and the cycle it reached each stage. -/

namespace Window

variable {κ : Type*}

/-- The resources: result buses, units of each kind, window slots and fetch width. -/
structure Machine (κ : Type*) where
  buses : ℕ
  units : κ → ℕ
  slots : ℕ
  width : ℕ

/-- What the machine needs to know of a program. -/
structure Workload (κ : Type*) where
  size : ℕ
  kind : ℕ → Option κ
  deps : ℕ → List ℕ

/-- Every dependence points to an older instruction. -/
def Workload.Ordered (w : Workload κ) : Prop := ∀ i, ∀ p ∈ w.deps i, 1 ≤ p ∧ p < i

/-- The ages of the instructions of a workload. -/
def Workload.ages (w : Workload κ) : List ℕ := List.range' 1 w.size

/-- The stamps `f`, with cycle `c` for the `n` ages after `a`. -/
def stampFrom (f : ℕ → ℕ) (a n c : ℕ) : ℕ → ℕ :=
  fun i => if a < i ∧ i ≤ a + n then c else f i

theorem stampFrom_zero (f : ℕ → ℕ) (a c : ℕ) : stampFrom f a 0 c = f := by
  funext i
  exact if_neg (by omega)

theorem stampFrom_succ (f : ℕ → ℕ) (a n c : ℕ) :
    stampFrom f a (n + 1) c = stampFrom (Function.update f (a + 1) c) (a + 1) n c := by
  funext i
  simp only [stampFrom]
  by_cases hi : i = a + 1
  · subst hi
    rw [if_pos (by omega), Function.update_self]
    split <;> rfl
  · rw [Function.update_of_ne hi]
    exact if_congr (by omega) rfl rfl

/-- Ages `1..scheduled` have entered the window, `1..dispatched` the dispatch queue, `1..fetched`
    the machine. `fetch`, `disp`, `sched`, `exec`, `state` are the cycles of the stages, 0 for not
    yet; `unit` is the unit an instruction took. -/
structure Timeline where
  fetched : ℕ
  dispatched : ℕ
  scheduled : ℕ
  eof : Bool
  window : List ℕ
  bus : List ℕ
  leaving : List ℕ
  announced : List ℕ
  fetch : ℕ → ℕ
  disp : ℕ → ℕ
  sched : ℕ → ℕ
  exec : ℕ → ℕ
  state : ℕ → ℕ
  unit : ℕ → ℕ
  fired : ℕ
  waitSum : ℕ
  waitMax : ℕ

namespace Timeline

/-- Nothing has been fetched. -/
def start : Timeline where
  fetched := 0
  dispatched := 0
  scheduled := 0
  eof := false
  window := []
  bus := []
  leaving := []
  announced := []
  fetch := fun _ => 0
  disp := fun _ => 0
  sched := fun _ => 0
  exec := fun _ => 0
  state := fun _ => 0
  unit := fun _ => 0
  fired := 0
  waitSum := 0
  waitMax := 0

/-- `i` holds a unit: it has started and has no bus yet. -/
def Held (T : Timeline) (i : ℕ) : Prop := T.exec i ≠ 0 ∧ T.state i = 0

instance (T : Timeline) (i : ℕ) : Decidable (T.Held i) := inferInstanceAs (Decidable (_ ∧ _))

/-- Every producer of `i` has been announced. -/
def Ready (w : Workload κ) (T : Timeline) (i : ℕ) : Prop := ∀ p ∈ w.deps i, p ∈ T.announced

instance (w : Workload κ) (T : Timeline) (i : ℕ) : Decidable (T.Ready w i) :=
  inferInstanceAs (Decidable (∀ p ∈ w.deps i, p ∈ T.announced))

/-! ### The steps of a cycle -/

/-- Instructions announced a cycle ago leave the window. -/
def evict (T : Timeline) : Timeline :=
  { T with window := T.window.filter (fun i => i ∉ T.leaving), leaving := [] }

/-- The instructions that got a bus are announced. -/
def announce (m : Machine κ) (T : Timeline) : Timeline :=
  { T with
    announced := T.announced ++ T.bus.take m.buses
    leaving := T.leaving ++ T.bus.take m.buses
    bus := T.bus.drop m.buses }

/-- Started and neither announced nor on the bus: the result is ready now. -/
def finishing (T : Timeline) : List ℕ :=
  T.window.filter (fun i => decide (T.exec i ≠ 0 ∧ i ∉ T.announced ∧ i ∉ T.bus))

/-- Finished instructions line up for the buses, oldest first. -/
def collect (T : Timeline) : Timeline := { T with bus := T.bus ++ T.finishing }

/-- The first `buses` instructions in line get a bus in cycle `c`. -/
def grant (m : Machine κ) (c : ℕ) (T : Timeline) : Timeline :=
  { T with state := fun i => if i ∈ T.bus.take m.buses ∧ T.state i = 0 then c else T.state i }

def update (m : Machine κ) (c : ℕ) (T : Timeline) : Timeline :=
  ((T.evict.announce m).collect).grant m c

variable [DecidableEq κ]

/-- The first unit of kind `t` that nobody in the window holds. -/
def freeUnit? (m : Machine κ) (w : Workload κ) (T : Timeline) (t : κ) : Option ℕ :=
  (List.range (m.units t)).find? fun j =>
    !T.window.any fun i => decide (T.Held i ∧ w.kind i = some t ∧ T.unit i = j)

/-- Instruction `i` takes unit `j` in cycle `c`. -/
def fire (c : ℕ) (T : Timeline) (i j : ℕ) : Timeline :=
  { T with
    exec := Function.update T.exec i c
    unit := Function.update T.unit i j
    fired := T.fired + 1 }

/-- Instruction `i` starts in cycle `c` if it waits, is ready and finds a unit. -/
def issueOne (m : Machine κ) (w : Workload κ) (c : ℕ) (T : Timeline) (i : ℕ) : Timeline :=
  if T.exec i ≠ 0 ∨ ¬ T.Ready w i then T
  else match w.kind i with
    | none => T
    | some t =>
      match T.freeUnit? m w t with
      | none => T
      | some j => T.fire c i j

def issue (m : Machine κ) (w : Workload κ) (c : ℕ) (T : Timeline) : Timeline :=
  T.window.foldl (issueOne m w c) T

/-- How many dispatched instructions find a slot. -/
def room (m : Machine κ) (T : Timeline) : ℕ :=
  min (T.dispatched - T.scheduled) (m.slots - T.window.length)

omit [DecidableEq κ] in
theorem room_le (m : Machine κ) (T : Timeline) : T.room m ≤ T.dispatched - T.scheduled :=
  Nat.min_le_left _ _

/-- The next instructions enter the window, in order. -/
def enter (m : Machine κ) (c : ℕ) (T : Timeline) : Timeline :=
  { T with
    window := T.window ++ List.range' (T.scheduled + 1) (T.room m)
    sched := stampFrom T.sched T.scheduled (T.room m) c
    scheduled := T.scheduled + T.room m }

def dispatch (c : ℕ) (T : Timeline) : Timeline :=
  { T with
    disp := fun i => if T.dispatched < i ∧ i ≤ T.fetched then c else T.disp i
    dispatched := T.fetched }

/-- How many instructions are fetched next. -/
def fetchCount (m : Machine κ) (w : Workload κ) (T : Timeline) : ℕ :=
  if T.eof then 0 else min m.width (w.size - T.fetched)

def fetchNext (m : Machine κ) (w : Workload κ) (c : ℕ) (T : Timeline) : Timeline :=
  { T with
    fetch := stampFrom T.fetch T.fetched (T.fetchCount m w) c
    fetched := T.fetched + T.fetchCount m w
    eof := T.eof || decide (w.size < T.fetched + m.width) }

/-- The number of dispatched instructions outside the window, summed up and at its largest. -/
def count (T : Timeline) : Timeline :=
  { T with
    waitSum := T.waitSum + (T.dispatched - T.scheduled)
    waitMax := if T.waitMax < T.dispatched - T.scheduled then T.dispatched - T.scheduled
      else T.waitMax }

/-- Cycle `c`. -/
def cycle (m : Machine κ) (w : Workload κ) (c : ℕ) (T : Timeline) : Timeline :=
  (((((T.update m c).issue m w c).enter m c).dispatch c).fetchNext m w c).count

/-- The timeline at the end of cycle `c`. -/
def run (m : Machine κ) (w : Workload κ) : ℕ → Timeline
  | 0 => start
  | c + 1 => (run m w c).cycle m w (c + 1)

/-- Everything fetched has left the machine and there is nothing more to fetch. -/
def Empty (T : Timeline) : Prop :=
  T.eof = true ∧ T.dispatched = T.fetched ∧ T.scheduled = T.dispatched ∧ T.window = [] ∧ T.bus = []

end Timeline

end Window
