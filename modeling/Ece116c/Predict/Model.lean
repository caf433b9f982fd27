import Mathlib.Data.Nat.Notation

/-! The branch predictor of `my_predictor.h` and the loop of `predict.cc` that drives it.

    The four global predictors do the same with their own history, table and widths; they are
    numbered as in the source, and the five components as `predictor_used` numbers them: 0 long,
    1 medium, 2 short, 3 micro, 4 local. A table is a function of the whole index; that no index
    leaves its table is a theorem. What the constructors leave uninitialised is a parameter. -/

namespace Predict

/-! ### The records of `branch.h`, `predictor.h` and `trace.h` -/

/-- `BR_CONDITIONAL`. -/
def brConditional : BitVec 32 := 1

structure BranchInfo where
  address : BitVec 32
  opcode : BitVec 32
  brFlags : BitVec 32
  deriving DecidableEq, Repr

/-- `br_flags & BR_CONDITIONAL`. -/
def BranchInfo.conditional (b : BranchInfo) : Bool := decide (b.brFlags &&& brConditional ≠ 0)

structure BranchUpdate where
  directionPrediction : Bool
  targetPrediction : BitVec 32

/-- `target_prediction ()`, whose result is a `bool`. -/
def BranchUpdate.targetPredicted (u : BranchUpdate) : Bool := decide (u.targetPrediction ≠ 0)

structure Trace where
  taken : Bool
  target : BitVec 32
  bi : BranchInfo
  deriving DecidableEq, Repr

/-! ### The predictor -/

structure MyUpdate extends BranchUpdate where
  index : Fin 4 → BitVec 32
  localIndex : BitVec 32
  localHistoryIndex : BitVec 32
  choiceIndex : BitVec 32
  pred : Fin 4 → Bool
  localPred : Bool
  predictorUsed : Fin 5

/-- `HISTORY_LENGTH_LONG`, `_MEDIUM`, `_SHORT` and `_MICRO`. -/
def historyLength : Fin 4 → ℕ
  | 0 => 18
  | 1 => 11
  | 2 => 6
  | 3 => 3

/-- `TABLE_BITS_0` to `TABLE_BITS_3`. -/
def tableBits : Fin 4 → ℕ
  | 0 => 22
  | 1 => 21
  | 2 => 20
  | 3 => 19

def localHistBits : ℕ := 14
def localPredBits : ℕ := 18
def choiceBits : ℕ := 19

/-- The bits of a local history that are kept. -/
def localHistLength : ℕ := 12

structure MyPredictor where
  u : MyUpdate
  bi : BranchInfo
  historyLong : BitVec 32
  historyMedium : BitVec 32
  historyShort : BitVec 32
  historyMicro : BitVec 32
  tab0 : BitVec 32 → BitVec 8
  tab1 : BitVec 32 → BitVec 8
  tab2 : BitVec 32 → BitVec 8
  tab3 : BitVec 32 → BitVec 8
  localHistTab : BitVec 32 → BitVec 16
  localPredTab : BitVec 32 → BitVec 8
  choiceTab : BitVec 32 → BitVec 8

namespace MyPredictor

/-- The constructor. -/
def new (u : MyUpdate) (bi : BranchInfo) : MyPredictor where
  u := u
  bi := bi
  historyLong := 0
  historyMedium := 0
  historyShort := 0
  historyMicro := 0
  tab0 _ := 2
  tab1 _ := 2
  tab2 _ := 2
  tab3 _ := 2
  localHistTab _ := 0
  localPredTab _ := 2
  choiceTab _ := 2

def history (p : MyPredictor) : Fin 4 → BitVec 32
  | 0 => p.historyLong
  | 1 => p.historyMedium
  | 2 => p.historyShort
  | 3 => p.historyMicro

def tab (p : MyPredictor) : Fin 4 → BitVec 32 → BitVec 8
  | 0 => p.tab0
  | 1 => p.tab1
  | 2 => p.tab2
  | 3 => p.tab3

end MyPredictor

/-! ### Prediction -/

/-- `(1 << n) - 1`. -/
def mask (n : ℕ) : BitVec 32 := (1#32 <<< n) - 1

/-- The index of global predictor `i`. -/
def globalIndex (i : Fin 4) (history pc : BitVec 32) : BitVec 32 :=
  ((history <<< (tableBits i - historyLength i)) ^^^ pc) &&& mask (tableBits i)

def localHistoryIndex (pc : BitVec 32) : BitVec 32 := pc &&& mask localHistBits

def localIndex (localHist : BitVec 32) : BitVec 32 := localHist &&& mask localPredBits

/-- A counter predicts a taken branch. -/
def predictsTaken (t : BitVec 8) : Bool := decide (4 ≤ t)

/-- The component a value of `choice_tab` selects. -/
def selects (choiceVal : BitVec 8) : Fin 5 :=
  if choiceVal ≤ 1 then 0
  else if choiceVal ≤ 3 then 1
  else if choiceVal ≤ 5 then 2
  else if choiceVal = 6 then 3
  else 4

/-- The predictions of the five components. -/
def componentPred (pred : Fin 4 → Bool) (localPred : Bool) : Fin 5 → Bool
  | 0 => pred 0
  | 1 => pred 1
  | 2 => pred 2
  | 3 => pred 3
  | 4 => localPred

namespace MyPredictor

/-- What `predict` looks up for a conditional branch. -/
def lookup (p : MyPredictor) (b : BranchInfo) : MyUpdate :=
  let pc := b.address >>> 2
  let index := fun i => globalIndex i (p.history i) pc
  let pred := fun i => predictsTaken (p.tab i (index i))
  let localHist := (p.localHistTab (localHistoryIndex pc)).setWidth 32
  let localPred := predictsTaken (p.localPredTab (localIndex localHist))
  let choiceIndex := (pc ^^^ p.historyLong ^^^ (p.historyMedium <<< 3)) &&& mask choiceBits
  let used := selects (p.choiceTab choiceIndex)
  { directionPrediction := componentPred pred localPred used
    targetPrediction := 0
    index := index
    localIndex := localIndex localHist
    localHistoryIndex := localHistoryIndex pc
    choiceIndex := choiceIndex
    pred := pred
    localPred := localPred
    predictorUsed := used }

/-- `predict`, which returns a pointer to `u`. -/
def predict (p : MyPredictor) (b : BranchInfo) : MyPredictor :=
  if b.conditional then { p with bi := b, u := p.lookup b }
  else { p with bi := b, u := { p.u with directionPrediction := true, targetPrediction := 0 } }

end MyPredictor

/-! ### Update -/

/-- A 3-bit saturating counter. -/
def train (taken : Bool) (t : BitVec 8) : BitVec 8 :=
  if taken then (if t < 7 then t + 1 else t) else (if 0 < t then t - 1 else t)

/-- The new value of the choice counter; components `0` to `4` were right where `correct` says. -/
def trainChoice (correct : Fin 5 → Bool) (used : Fin 5) (c : BitVec 8) : BitVec 8 :=
  if !correct used then
    if correct 0 then (if 0 < c then c - 1 else c)
    else if correct 1 then
      if c < 2 ∨ 3 < c then (if c < 2 then c + 1 else c - 1) else c
    else if correct 2 then
      if c < 4 ∨ 5 < c then (if c < 4 then c + 1 else c - 1) else c
    else if correct 3 then
      if c ≠ 6 then (if c < 6 then c + 1 else c - 1) else c
    else if correct 4 then (if c < 7 then c + 1 else c)
    else c
  else
    match used with
    | 0 => if 0 < c then c - 1 else c
    | 1 => if c < 2 then c + 1 else if 3 < c then c - 1 else c
    | 2 => if c < 4 then c + 1 else if 5 < c then c - 1 else c
    | 3 => if c < 6 then c + 1 else if 6 < c then c - 1 else c
    | 4 => if c < 7 then c + 1 else c

/-- `((h << 1) | taken) & ((1 << n) - 1)`. -/
def shiftHistory (n : ℕ) (h : BitVec 32) (taken : Bool) : BitVec 32 :=
  ((h <<< 1) ||| (BitVec.ofBool taken).setWidth 32) &&& mask n

/-- A table with entry `i` changed by `f`. -/
def setEntry {n : ℕ} (t : BitVec 32 → BitVec n) (i : BitVec 32) (f : BitVec n → BitVec n) :
    BitVec 32 → BitVec n :=
  fun j => if j = i then f (t j) else t j

namespace MyPredictor

/-- `update (mu, taken, target)`, which does not look at the target. -/
def update (p : MyPredictor) (mu : MyUpdate) (taken : Bool) (_target : BitVec 32) : MyPredictor :=
  if p.bi.conditional then
    { p with
      tab0 := setEntry p.tab0 (mu.index 0) (train taken)
      tab1 := setEntry p.tab1 (mu.index 1) (train taken)
      tab2 := setEntry p.tab2 (mu.index 2) (train taken)
      tab3 := setEntry p.tab3 (mu.index 3) (train taken)
      localPredTab := setEntry p.localPredTab mu.localIndex (train taken)
      choiceTab := setEntry p.choiceTab mu.choiceIndex
        (trainChoice (fun j => componentPred mu.pred mu.localPred j == taken) mu.predictorUsed)
      localHistTab := setEntry p.localHistTab mu.localHistoryIndex fun lh =>
        (shiftHistory localHistLength (lh.setWidth 32) taken).setWidth 16
      historyLong := shiftHistory (historyLength 0) p.historyLong taken
      historyMedium := shiftHistory (historyLength 1) p.historyMedium taken
      historyShort := shiftHistory (historyLength 2) p.historyShort taken
      historyMicro := shiftHistory (historyLength 3) p.historyMicro taken }
  else p

end MyPredictor

/-! ### The simulation -/

/-- The state of `main`: the predictor, and the mispredicted targets and directions. -/
structure Simulation where
  p : MyPredictor
  tmiss : ℕ
  dmiss : ℕ

/-- A prediction and its outcome disagree on the direction of a conditional branch. -/
def Trace.directionMissed (t : Trace) (u : MyUpdate) : Bool :=
  t.bi.conditional && u.directionPrediction != t.taken

/-- And on its target. -/
def Trace.targetMissed (t : Trace) (u : MyUpdate) : Bool :=
  t.bi.conditional && (BitVec.ofBool u.targetPredicted).setWidth 32 != t.target

namespace MyPredictor

/-- A branch goes through `predict` and `update`. -/
def branch (p : MyPredictor) (t : Trace) : MyPredictor :=
  (p.predict t.bi).update (p.predict t.bi).u t.taken t.target

def run (p : MyPredictor) (ts : List Trace) : MyPredictor := ts.foldl branch p

end MyPredictor

/-- The body of the loop of `main`. -/
def Simulation.step (s : Simulation) (t : Trace) : Simulation where
  p := s.p.branch t
  tmiss := s.tmiss + (t.targetMissed (s.p.predict t.bi).u).toNat
  dmiss := s.dmiss + (t.directionMissed (s.p.predict t.bi).u).toNat

/-- `main` on the traces of its file. -/
def main (u : MyUpdate) (bi : BranchInfo) (ts : List Trace) : Simulation :=
  ts.foldl Simulation.step ⟨MyPredictor.new u bi, 0, 0⟩

end Predict
